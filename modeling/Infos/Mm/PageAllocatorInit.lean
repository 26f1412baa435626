import Infos.Mm.BuddyHeld
import Infos.Mm.PageAllocator
import Mathlib.Data.List.Perm.Basic

/-!
# Initialising the page allocator

Marking touches only the type tags, the self test gives back every page it
takes, and the closing loop leaves free exactly the pages tagged available.
-/
namespace Infos.Mm.PageAllocator
open Infos.Lib Function Set

section Marking
variable {s s' : State} {a : Buddy.State}

/-- The type tag program never touches the algorithm. -/
def KeepsAlgorithm {α : Type} (x : Exec State α) : Prop :=
  ∀ a, Triple (fun s => s.algorithm = a) x fun _ s => s.algorithm = a

theorem KeepsAlgorithm.bind {α β : Type} {x : Exec State α} {f : α → Exec State β}
    (hx : KeepsAlgorithm x) (hf : ∀ v, KeepsAlgorithm (f v)) : KeepsAlgorithm (x >>= f) :=
  fun a => (hx a).bind fun v => hf v a

theorem keeps_setType (pgd : Nat) (type : PageDescriptorType) :
    KeepsAlgorithm (setType pgd type) := by
  intro a s u s' h run
  unfold setType at run
  rw [bind_ok (run_get_eq s)] at run
  split_ifs at run
  · cases run; exact h
  · cases run

theorem keeps_setTypes (type : PageDescriptorType) (pfn count : Nat) :
    KeepsAlgorithm (setTypes type pfn count) := by
  induction count generalizing pfn with
  | zero => exact fun _ => Triple.ret () fun _ h => h
  | succ count ih => exact (keeps_setType pfn type).bind fun _ => ih (pfn + 1)

theorem keeps_kvaToPa (va : Nat) : KeepsAlgorithm (kvaToPa va) :=
  fun _ => Triple.bind (Triple.assertThat _ fun _ h _ => h) fun _ => Triple.ret _ fun _ h => h

theorem keeps_markNormal (blocks : List PhysicalMemoryBlock) :
    KeepsAlgorithm (markNormal blocks) := by
  induction blocks with
  | nil => exact fun _ => Triple.ret () fun _ h => h
  | cons pmb rest ih =>
      unfold markNormal
      by_cases normal : pmb.type = .normal
      · rw [if_pos normal]
        exact (keeps_setTypes _ _ _).bind fun _ => ih
      · rw [if_neg normal]
        exact ih

theorem keeps_markAll (owner : MemoryManager) (layout : KernelLayout) :
    KeepsAlgorithm (markAll owner layout) := by
  have get : KeepsAlgorithm (get : Exec State State) := by
    intro a s u s' h run
    cases run
    exact h
  refine (keeps_markNormal _).bind fun _ => ?_
  refine (keeps_setTypes _ _ _).bind fun _ => (keeps_setTypes _ _ _).bind fun _ => ?_
  refine (keeps_setTypes _ _ _).bind fun _ => ?_
  refine (keeps_kvaToPa _).bind fun _ => (keeps_kvaToPa _).bind fun _ => ?_
  refine (keeps_setTypes _ _ _).bind fun _ => (keeps_kvaToPa _).bind fun _ => ?_
  exact get.bind fun _ => keeps_setTypes _ _ _

end Marking

/-! ### The self test -/

section SelfTest
variable {nr fuel k : Nat} {F₀ : Set Nat} {held : List (Option Nat × Nat)}

/-- The blocks a client holds, given the pointers and orders it asked for. -/
def blocksOf (held : List (Option Nat × Nat)) : List (Nat × Nat) :=
  held.filterMap fun b => b.1.map fun p => (p, b.2)

/-- A client holds what these pointers point to. -/
def Holds (nr : Nat) (F₀ : Set Nat) (held : List (Option Nat × Nat)) (s : Buddy.State) : Prop :=
  Buddy.Holding nr F₀ (blocksOf held) s

theorem alloc_triple (budget : nr + Buddy.maxOrder < fuel) :
    Triple (Holds nr F₀ held) (Buddy.allocPages fuel k) fun r => Holds nr F₀ ((r, k) :: held) := by
  intro s r s' h run
  rcases Buddy.Holding.alloc (k := k) h budget with run' | ⟨p, s'', run', _, _, h'⟩
  · cases run'.symm.trans run
    exact h
  · cases run'.symm.trans run
    exact h'

theorem free_triple (budget : nr + Buddy.maxOrder < fuel) (n : Nat) {p : Option Nat}
    (at_n : held[n]? = some (p, k)) :
    Triple (Holds nr F₀ held) (freeUnchecked fuel p k) fun _ => Holds nr F₀ (held.eraseIdx n) := by
  intro s u s' h run
  cases p with
  | none => cases run
  | some p =>
      obtain ⟨lt, e⟩ := List.getElem?_eq_some_iff.mp at_n
      have perm := (List.getElem_cons_eraseIdx_perm lt).symm.filterMap
        fun b : Option Nat × Nat => b.1.map fun p => (p, b.2)
      rw [e] at perm
      obtain ⟨s'', run', _, h'⟩ := Buddy.Holding.free (Buddy.Holding.perm h perm) budget
      cases run'.symm.trans run
      exact h'

theorem reserve_triple (budget : nr < fuel) (p : Option Nat) :
    Triple (Holds nr F₀ held) (reserveUnchecked fuel p) fun r s =>
      r = true → Holds nr F₀ ((p, 0) :: held) s := by
  intro s r s' h run reserved
  cases p with
  | none => cases run; cases reserved
  | some p =>
      rcases Buddy.Holding.reserve (p := p) h budget with run' | ⟨s'', run', h'⟩
      · cases run'.symm.trans run; cases reserved
      · cases run'.symm.trans run
        exact h'

/-- The self test gives every page back. -/
theorem selfTest_triple (budget : nr + Buddy.maxOrder < fuel) :
    Triple (Holds nr F₀ []) (selfTest fuel) fun r s => r = true → Holds nr F₀ [] s := by
  have small : nr < fuel := by omega
  unfold selfTest
  refine (alloc_triple budget).bind fun p => Triple.ite (fun none => ?_) fun _ => ?_
  · exact Triple.ret false fun s h e => by cases e
  refine (free_triple budget 0 rfl).bind fun _ => ?_
  refine (alloc_triple budget).bind fun p => (free_triple budget 0 rfl).bind fun _ => ?_
  refine (alloc_triple budget).bind fun p0 => (alloc_triple budget).bind fun p1 => ?_
  refine (free_triple budget 1 rfl).bind fun _ => (alloc_triple budget).bind fun p2 => ?_
  refine (free_triple budget 1 rfl).bind fun _ => (free_triple budget 0 rfl).bind fun _ => ?_
  refine (alloc_triple budget).bind fun p00 => (alloc_triple budget).bind fun p01 => ?_
  refine (alloc_triple budget).bind fun p02 => (alloc_triple budget).bind fun p03 => ?_
  refine (alloc_triple budget).bind fun p04 => (alloc_triple budget).bind fun p05 => ?_
  refine (alloc_triple budget).bind fun p06 => (alloc_triple budget).bind fun p07 => ?_
  refine (free_triple budget 2 rfl).bind fun _ => (free_triple budget 3 rfl).bind fun _ => ?_
  refine (free_triple budget 1 rfl).bind fun _ => (free_triple budget 0 rfl).bind fun _ => ?_
  refine (free_triple budget 1 rfl).bind fun _ => (free_triple budget 1 rfl).bind fun _ => ?_
  refine (free_triple budget 1 rfl).bind fun _ => (free_triple budget 0 rfl).bind fun _ => ?_
  refine Triple.getState.bind fun _ => ?_
  refine (reserve_triple small _).bind fun _ => ?_
  refine (Triple.assertThat _ fun s h reserved => h reserved).bind fun _ => ?_
  refine (reserve_triple small _).bind fun _ => ?_
  refine (Triple.assertThat _ fun s h reserved => h reserved).bind fun _ => ?_
  refine (free_triple budget 0 rfl).bind fun _ => (free_triple budget 0 rfl).bind fun _ => ?_
  exact Triple.ret true fun s h _ => h

end SelfTest

/-! ### The closing loop -/

section Closing
variable {nr fuel : Nat} {s s' : State}

/-- The pages tagged available. -/
def availablePages (s : State) : Set Nat := {x | x < s.nrPages ∧ s.types x = .available}

theorem of_algorithm_ok {α : Type} {x : Exec Buddy.State α} {v : α}
    (run : (algorithm x).run s = .ok (v, s')) :
    ∃ a, x.run s.algorithm = .ok (v, a) ∧ s' = { s with algorithm := a } :=
  of_zoom_ok run

theorem of_getType_ok {pgd : Nat} {t : PageDescriptorType}
    (run : (getType pgd).run s = .ok (t, s')) : pgd < s.nrPages ∧ t = s.types pgd ∧ s' = s := by
  unfold getType at run
  rw [bind_ok (run_get_eq s)] at run
  split_ifs at run with lt
  · cases run; exact ⟨lt, rfl, rfl⟩
  · cases run

/-- Reserving one marked page after another leaves the available ones free. -/
theorem reserveMarked_sound {pgd count : Nat} {L : Buddy.Lists}
    (sound : Buddy.Sound s.algorithm L {x | x < s.nrPages ∧ (x < pgd → s.types x = .available)})
    (budget : s.nrPages < fuel) (total : pgd + count = s.nrPages)
    (run : (reserveMarked fuel pgd count).run s = .ok (true, s')) :
    s'.types = s.types ∧ s'.nrPages = s.nrPages ∧
      ∃ L', Buddy.Sound s'.algorithm L' (availablePages s') := by
  induction count generalizing pgd s L with
  | zero =>
      cases run
      refine ⟨rfl, rfl, L, ?_⟩
      have all : {x | x < s'.nrPages ∧ (x < pgd → s'.types x = .available)} = availablePages s' := by
        ext x
        simp only [mem_ofPred_eq, availablePages]
        constructor
        · exact fun h => ⟨h.1, h.2 (by omega)⟩
        · exact fun h => ⟨h.1, fun _ => h.2⟩
      exact all ▸ sound
  | succ count ih =>
      unfold reserveMarked at run
      obtain ⟨t, s₁, run₁, run⟩ := of_bind_ok run
      obtain ⟨lt, rfl, rfl⟩ := of_getType_ok run₁
      by_cases available : s₁.types pgd = .available
      · rw [if_neg (not_not.mpr available)] at run
        have same : {x | x < s₁.nrPages ∧ (x < pgd + 1 → s₁.types x = .available)} =
            {x | x < s₁.nrPages ∧ (x < pgd → s₁.types x = .available)} := by
          ext x
          simp only [mem_ofPred_eq]
          refine and_congr_right fun _ => ⟨fun h lt => h (by omega), fun h lt => ?_⟩
          rcases Nat.lt_succ_iff_lt_or_eq.mp lt with lt | rfl
          · exact h lt
          · exact available
        exact ih (same.symm ▸ sound) budget (by omega) run
      · rw [if_pos available] at run
        obtain ⟨reserved, s₂, run₂, run⟩ := of_bind_ok run
        obtain ⟨a, call, rfl⟩ := of_algorithm_ok run₂
        rcases sound.reservePage pgd budget with ⟨_, a', L', run', size', sound'⟩ | ⟨out, _⟩
        · cases run'.symm.trans call
          rw [if_pos rfl] at run
          have size : ({ s₁ with algorithm := a } : State).nrPages = s₁.nrPages := size'
          have less : {x | x < s₁.nrPages ∧ (x < pgd + 1 → s₁.types x = .available)} =
              {x | x < s₁.nrPages ∧ (x < pgd → s₁.types x = .available)} \ {pgd} := by
            ext x
            simp only [mem_ofPred_eq, mem_sdiff, mem_singleton_iff]
            constructor
            · refine fun h => ⟨⟨h.1, fun lt => h.2 (by omega)⟩, ?_⟩
              rintro rfl
              exact available (h.2 (Nat.lt_succ_self x))
            · exact fun h => ⟨h.1.1, fun lt => h.1.2 (by omega)⟩
          have next : Buddy.Sound a L' {x | x < s₁.nrPages ∧
              (x < pgd + 1 → s₁.types x = .available)} := less ▸ sound'
          rw [← size] at next budget total
          obtain ⟨types, size'', rest⟩ := ih next budget (by omega) run
          exact ⟨types, size''.trans size, rest⟩
        · exact absurd ⟨lt, fun lt => absurd lt (lt_irrefl pgd)⟩ out

/-- The descriptors with every type tag in place. -/
def marked (owner : MemoryManager) (layout : KernelLayout) : Exec State Unit := do
  let _ ← setupPageDescriptors owner layout
  markAll owner layout

theorem of_setup_ok {owner : MemoryManager} {layout : KernelLayout}
    (run : (setupPageDescriptors owner layout).run s = .ok (true, s')) :
    s'.algorithm = Buddy.State.fresh (nrPagesOf owner) := by
  unfold setupPageDescriptors at run
  obtain ⟨pa, s₁, _, run⟩ := of_bind_ok run
  cases e : owner.lookupPhysBlock pa with
  | none => rw [e] at run; cases run
  | some pmb => rw [e] at run; cases run; rfl

/-- From marked descriptors the algorithm is left with the available pages. -/
theorem initAlgorithm_sound {doSelfTest : Bool}
    (fresh : s.algorithm = Buddy.State.fresh nr) (hnr : nr < 2 ^ 63)
    (budget : nr + Buddy.maxOrder < fuel)
    (run : (initAlgorithm fuel doSelfTest).run s = .ok (true, s')) :
    s'.types = s.types ∧ s'.nrPages = nr ∧ ∃ L, Buddy.Sound s'.algorithm L (availablePages s') := by
  have size : s.nrPages = nr := by rw [State.nrPages, fresh]; rfl
  unfold initAlgorithm at run
  rw [bind_ok (run_get_eq s), size] at run
  obtain ⟨ready, s₁, call, run⟩ := of_bind_ok run
  obtain ⟨a, filled, rfl⟩ := of_algorithm_ok call
  rw [fresh] at filled
  cases ready with
  | false => cases run
  | true =>
      rw [if_pos rfl] at run
      obtain ⟨a', L, init, size', sound⟩ := Buddy.init_sound
        (Buddy.init_true_small filled hnr) (by omega : nr < fuel)
      cases init.symm.trans filled
      -- with or without the self test, every page is free when the loop starts
      have start : ∃ (b : Buddy.State) (L' : Buddy.Lists),
          (reserveMarked fuel 0 nr).run { s with algorithm := b } = .ok (true, s') ∧
          b.nrPages = nr ∧ Buddy.Sound b L' (Iio nr) := by
        cases doSelfTest with
        | false => exact ⟨a, L, run, size', sound⟩
        | true =>
            rw [if_pos rfl] at run
            obtain ⟨passed, s₂, test, run⟩ := of_bind_ok run
            obtain ⟨b, tested, rfl⟩ := of_algorithm_ok test
            cases passed with
            | false => cases run
            | true =>
                have held := selfTest_triple budget a true b (sound.holding_nil size') tested rfl
                obtain ⟨L', sound'⟩ := Buddy.Holding.sound_nil held
                exact ⟨b, L', run, held.size, sound'⟩
      obtain ⟨b, L', loop, size'', sound'⟩ := start
      have all : Iio nr = {x | x < b.nrPages ∧ (x < 0 → s.types x = .available)} := by
        ext x
        simp [size'']
      rw [all] at sound'
      have fits : ({ s with algorithm := b } : State).nrPages = nr := size''
      obtain ⟨types, size₃, rest⟩ := reserveMarked_sound sound' (by omega) (by omega) loop
      exact ⟨types, size₃.trans size'', rest⟩

theorem init_sound (added : List AddedMemory) {layout : KernelLayout} {doSelfTest : Bool}
    (budget : nrPagesOf (.ofBlocks added) + Buddy.maxOrder < fuel)
    (run : (init fuel (.ofBlocks added) layout doSelfTest).run s = .ok (true, s')) :
    ∃ m, (marked (.ofBlocks added) layout).run s = .ok ((), m) ∧ s'.types = m.types ∧
      s'.nrPages = nrPagesOf (.ofBlocks added) ∧
      ∃ L, Buddy.Sound s'.algorithm L (availablePages s') := by
  unfold init at run
  obtain ⟨found, s₁, setup, run⟩ := of_bind_ok run
  cases found with
  | false => cases run
  | true =>
      rw [if_pos rfl] at run
      obtain ⟨_, m, mark, run⟩ := of_bind_ok run
      have fresh := keeps_markAll _ _ _ s₁ () m (of_setup_ok setup) mark
      have hnr : nrPagesOf (.ofBlocks added) < 2 ^ 63 := by
        have last := lastPfn_ofBlocks added
        rw [nrPagesOf]
        omega
      obtain ⟨types, size, sound⟩ := initAlgorithm_sound fresh hnr budget run
      exact ⟨m, (bind_ok setup).trans mark, types, size, sound⟩

end Closing
end Infos.Mm.PageAllocator
