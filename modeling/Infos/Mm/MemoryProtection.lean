import Infos.Mm.KernelMemory
import Infos.Mm.UserWalk

/-!
# Memory protection

Before the first process the kernel makes its own page tables, in pages of the page allocator.
While it leaves these alone, a program in user mode gets to pages of its own process, and the
kernel finds itself and all memory at the same addresses in each of them.
-/
namespace Infos.Mm
open Infos.Lib Function PageAllocator Set

/-! ### All areas -/

namespace Vma.Memory
variable {w w' : Memory} {i : Nat} {template : Nat → BitVec 64}

def AllGuarded (template : Nat → BitVec 64) (w : Memory) : Prop :=
  ∀ i a, w.areas i = some a → Guarded template (w.view a)

/-- Process `i` wrote to pages that it has. -/
def OwnWrites (i : Nat) (w w' : Memory) : Prop :=
  ∃ b, w'.areas i = some b ∧
    ∀ x, (∀ f, Held (w'.view b) f → ¬ InPage f x) → w'.mem x = w.mem x

theorem AllSound.guarded_put (h : AllSound w) (g : AllGuarded template w) {s s' : State}
    (mem : s.mem = w.mem) (own : Guarded template s') (writes : Writes (Held s') s s')
    (promise : Promise (w.put i s')) :
    AllGuarded template (w.put i s') ∧ OwnWrites i w (w.put i s') := by
  refine ⟨fun j b there => ?_, s'.area, update_self .., fun x out => ?_⟩
  · by_cases same : j = i
    · subst same
      cases (update_self ..).symm.trans there
      exact own
    · have before : w.areas j = some b := (update_of_ne same ..).symm.trans there
      obtain ⟨m, D, space, _⟩ := h.sound j b before
      have away : ∀ f, TableFrame (w.view b) f → ¬ Held s' f := fun f table held =>
        promise.others i j _ b (Ne.symm same) (update_self ..) there f held
          (space.heldTables f table)
      have writes' : Writes (Held s') (w.view b) ((w.put i s').view b) := fun x out =>
        (writes x out).trans (congrFun mem x)
      exact (g j b before).of_writes space writes' away rfl rfl
  · exact (writes x out).trans (congrFun mem x)

theorem AllSound.guarded_step (h : AllSound w) (g : AllGuarded template w)
    (step : Step w (some i) w') (promise : Promise w') (there : w.areas i ≠ none) :
    AllGuarded template w' ∧ OwnWrites i w w' := by
  cases step with
  | create none run => exact absurd none there
  | @allocatePhys _ a order r s' here run =>
      have apart := promise.apart i _ (update_self ..)
      obtain ⟨m, D, space, data⟩ := h.sound i a here
      obtain ⟨_, writes⟩ := (h.sound i a here).allocatePhys run apart
      exact h.guarded_put g rfl ((g i a here).allocatePhys space run apart) writes promise
  | @allocateVirt _ a va nrPages r s' here user run =>
      have apart := promise.apart i _ (update_self ..)
      obtain ⟨m, D, space, data⟩ := h.sound i a here
      obtain ⟨_, writes⟩ := (h.sound i a here).allocateVirt user run apart
      exact h.guarded_put g rfl ((g i a here).allocateVirt space user run apart) writes promise
  | @copyTo _ a va src r s' here user low consecutive run =>
      have apart := h.promise.apart i a here
      obtain ⟨m, D, space, data⟩ := h.sound i a here
      obtain ⟨phys, P, new, own⟩ := (h.sound i a here).copyTo_updates low user consecutive apart run
      obtain ⟨_, writes⟩ := (h.sound i a here).store new own
      have guarded := (g i a here).of_writes space new.writes
        (fun f table written => (own f written).2 table) phys new.root
      exact h.guarded_put g rfl guarded writes promise
  | @store _ a P mem here writes own =>
      have new : Updates P (w.view a) { w.view a with mem := mem } := ⟨writes, rfl, rfl, rfl⟩
      obtain ⟨m, D, space, data⟩ := h.sound i a here
      obtain ⟨_, mine⟩ := (h.sound i a here).store new own
      have guarded := (g i a here).of_writes space new.writes
        (fun f table written => (own f written).2 table) rfl rfl
      rw [← put_store here] at promise ⊢
      exact h.guarded_put g rfl guarded mine promise

theorem AllSound.guarded_create (h : AllSound w) (g : AllGuarded template w) {s' : State}
    {words : Nat → BitVec 64} (kernel : template 0x1ff = words 0x1ff)
    (direct : template 0x100 = words 0x100)
    (run : (create (some words)).run (w.view .empty) = .ok ((), s'))
    (promise : Promise (w.put i s')) :
    AllGuarded template (w.put i s') ∧ OwnWrites i w (w.put i s') := by
  have apart : Apart s'.pageAllocations := promise.apart i _ (update_self ..)
  obtain ⟨_, writes⟩ := create_sound h.fresh rfl run apart
  have own := (create_guarded h.fresh run apart).congr kernel direct
  exact h.guarded_put g rfl own writes promise

theorem AllSound.guarded_other (h : AllSound w) (g : AllGuarded template w)
    (step : Step w none w') : AllGuarded template w' := by
  cases step with
  | other writes away =>
      intro j b there
      obtain ⟨m, D, space, _⟩ := h.sound j b there
      exact (g j b there).of_writes space writes
        (fun f table written => away j b there f written (space.heldTables f table)) rfl rfl

end Vma.Memory

/-! ### The kernel's tables -/

/-- The new `__template_pml4`, or `none` where the source returns false. -/
def System.reinitialisePgt (installed : Option PageAllocatorAlgorithm) :
    Exec System (Option Nat) := do
  match ← onPgalloc (allocPagesBy installed 4) with
  | none => pure none
  | some pages => do
      let template ← onVma (Vma.buildTables pages)
      pure (some template)

namespace KernelMemory

/-- Memory and the page allocator, before the first area. -/
def beforePaging (p : PageAllocator.State) (mem : Nat → BitVec 64) : System :=
  (booted p mem).view .empty

/-- The kernel after `reinitialise_pgt`, with its tables in the sixteen pages from `F` on. -/
def paged (s : System) (F : Nat) : KernelMemory := ⟨s.pgalloc, s.vma.mem, [], [(F, 4)]⟩

/-- A step that makes areas from the kernel's tables at `F`, and keeps these. -/
inductive ProtectedStep (fuel : Nat) (F₀ : Set Nat) (F : Nat) (k : KernelMemory) :
    Option Nat → KernelMemory → Prop
  | create {s : System} :
      (System.create (some (buddyPageAllocator fuel))
        (some fun i => k.mem (Vma.slot (Vma.tableAt F) i))).run (k.view .empty) = .ok ((), s) →
      ProtectedStep fuel F₀ F k (some k.areas.length) (k.add s)
  | process {i : Nat} {k' : KernelMemory} : i < k.areas.length → Step fuel F₀ k (some i) k' →
      ProtectedStep fuel F₀ F k (some i) k'
  | kernel {k' : KernelMemory} : Step fuel F₀ k none k' → (F, 4) ∈ k'.heap →
      (∀ f, F ≤ f → f < F + 16 → ∀ x, Vma.InPage f x → k'.mem x = k.mem x) →
      ProtectedStep fuel F₀ F k none k'

inductive ProtectedRuns (fuel : Nat) (F₀ : Set Nat) (F : Nat) (k : KernelMemory) :
    List (Option Nat) → KernelMemory → Prop
  | refl : ProtectedRuns fuel F₀ F k [] k
  | step {whose : List (Option Nat)} {k₁ k' : KernelMemory} {who : Option Nat} :
      ProtectedRuns fuel F₀ F k whose k₁ → ProtectedStep fuel F₀ F k₁ who k' →
      ProtectedRuns fuel F₀ F k (who :: whose) k'

/-- The tables at `F` are the kernel's, and the upper half of each area is theirs. -/
structure Protected (nr : Nat) (F₀ : Set Nat) (F : Nat) (k : KernelMemory) : Prop where
  supplied : Supplied nr F₀ k
  sound : (k.memory []).AllSound
  guarded : (k.memory []).AllGuarded (Vma.builtWords F 0)
  tables : Vma.Holds k.mem F (Vma.builtWords F)
  mine : (F, 4) ∈ k.heap

section Protected
variable {nr fuel F : Nat} {F₀ : Set Nat} {k k' : KernelMemory} {who : Option Nat}
  {whose : List (Option Nat)}

theorem ProtectedStep.toStep (step : ProtectedStep fuel F₀ F k who k') :
    Step fuel F₀ k who k' := by
  cases step with
  | create run => exact .create run
  | process _ step => exact step
  | kernel step _ _ => exact step

theorem sound_frames {v : Vma.State} (h : Vma.Sound v) {fs : List Nat}
    (fresh : Vma.FreshFrames (fs ++ Vma.allocated v)) : Vma.Sound { v with frames := fs } := by
  obtain ⟨m, D, space, data⟩ := h
  refine ⟨m, D, ⟨?_, space.reached, space.heldTables, space.heldData, space.apart⟩, data⟩
  exact space.tables.frame rfl (fun _ _ _ _ _ => rfl) (List.Subset.refl _) fresh.1 fresh.2

theorem allocated_sublist {i : Nat} {a : Vma.Area} (there : k.areas[i]? = some a) :
    (Vma.allocated (k.view a).vma).Sublist k.allocated := by
  obtain ⟨before, after, areas, _⟩ := areas_split there
  rw [allocated, areas, List.flatMap_append, List.flatMap_cons]
  exact ((List.sublist_append_left _ _).trans (List.sublist_append_right _ _))

theorem Protected.supply (h : Protected nr F₀ F k) (noZero : 0 ∉ F₀) {handed : List Nat}
    (fresh : Vma.FreshFrames (k.allocated ++ handed)) :
    (k.memory handed).AllSound ∧ (k.memory handed).AllGuarded (Vma.builtWords F 0) := by
  refine ⟨⟨?_, fun i a there => ?_, h.supplied.promise noZero handed⟩, fun i a there => ?_⟩
  · exact ⟨fresh.1.sublist (List.sublist_append_right _ _),
      fun f mem => fresh.2 f (List.mem_append_right _ mem)⟩
  · have sub := (List.Sublist.refl handed).append (allocated_sublist there)
    have fresh' := freshFrames_perm List.perm_append_comm fresh
    exact sound_frames (h.sound.sound i a there)
      ⟨fresh'.1.sublist sub, fun f mem => fresh'.2 f (sub.subset mem)⟩
  · have g := h.guarded i a there
    exact ⟨g.shown, g.entries, g.upper⟩

theorem holds_of_ownWrites {i : Nat} {words : Vma.PageWords} {fs fs' : List Nat}
    (holds : Vma.Holds k.mem F words) (supplied : Supplied nr F₀ k') (mine : (F, 4) ∈ k'.heap)
    (writes : Vma.Memory.OwnWrites i (k.memory fs) (k'.memory fs')) :
    Vma.Holds k'.mem F words := by
  obtain ⟨b, there, same⟩ := writes
  intro n hn j hj
  rw [← holds n hn j hj]
  apply same
  rintro f held here
  cases (Vma.inPage_slot hj).unique here
  have owner : F + n ∈ Buddy.pagesOf k'.heap :=
    ⟨(F, 4), mine, mem_block.mpr ⟨Nat.le_add_right F n, Nat.add_lt_add_left hn F⟩⟩
  exact supplied.blocks_apart.2.2 b (mem_areas there) _ (held_iff.mp held) owner

theorem Protected.simulate (h : Protected nr F₀ F k) (budget : nr + Buddy.maxOrder < fuel)
    (small : nr < 2 ^ 31) (noZero : 0 ∉ F₀) (step : Step fuel F₀ k who k') :
    Supplied nr F₀ k' ∧ (k'.memory []).Promise ∧ (k'.memory []).AllSound ∧
      ∃ handed, (k.memory handed).AllSound ∧ (k.memory handed).AllGuarded (Vma.builtWords F 0) ∧
        (k.memory handed).Step who (k'.memory []) := by
  obtain ⟨handed, supplied, taken, runs⟩ := h.supplied.step budget small step
  have now := runs []
  rw [List.append_nil] at now
  obtain ⟨sound, guarded⟩ := h.supply noZero (freshFrames_perm taken (supplied.fresh noZero))
  have promise := supplied.promise noZero []
  exact ⟨supplied, promise, (sound.step now promise).1, handed, sound, guarded, now⟩

theorem Protected.step (h : Protected nr F₀ F k) (budget : nr + Buddy.maxOrder < fuel)
    (small : nr < 2 ^ 31) (noZero : 0 ∉ F₀) (step : ProtectedStep fuel F₀ F k who k') :
    Protected nr F₀ F k' := by
  cases step with
  | @create s run =>
      obtain ⟨handed, supplied, taken, runs⟩ :=
        h.supplied.drawNew (System.create_draws budget small _) run
      have now := runs []
      rw [List.append_nil] at now
      obtain ⟨sound, guarded⟩ := h.supply noZero (freshFrames_perm taken (supplied.fresh noZero))
      have none : (k.memory handed).areas k.areas.length = Option.none :=
        List.getElem?_eq_none le_rfl
      have promise := supplied.promise noZero []
      rw [memory_add k s handed []] at promise
      have kernel := (h.tables 0 (by decide) 0x1ff (by decide)).symm
      have direct := (h.tables 0 (by decide) 0x100 (by decide)).symm
      obtain ⟨guarded', writes⟩ := sound.guarded_create guarded kernel direct now promise
      have sound' := (sound.step (.create none now) promise).1
      rw [← memory_add k s handed []] at guarded' writes sound'
      exact ⟨supplied, sound', guarded', holds_of_ownWrites h.tables supplied h.mine writes, h.mine⟩
  | @process i _ inside step =>
      obtain ⟨supplied, promise, sound', handed, sound, guarded, now⟩ :=
        h.simulate budget small noZero step
      have there : (k.memory handed).areas i ≠ none := by
        rw [show (k.memory handed).areas i = k.areas[i]? from rfl,
          List.getElem?_eq_getElem inside]
        exact Option.some_ne_none _
      obtain ⟨guarded', writes⟩ := sound.guarded_step guarded now promise there
      have mine : (F, 4) ∈ k'.heap := by
        cases step <;> exact h.mine
      exact ⟨supplied, sound', guarded', holds_of_ownWrites h.tables supplied mine writes, mine⟩
  | kernel step mine kept =>
      obtain ⟨supplied, _, sound', handed, sound, guarded, now⟩ :=
        h.simulate budget small noZero step
      refine ⟨supplied, sound', sound.guarded_other guarded now, fun n hn j hj => ?_, mine⟩
      rw [← h.tables n hn j hj]
      exact kept (F + n) (Nat.le_add_right F n) (Nat.add_lt_add_left hn F) _ (Vma.inPage_slot hj)

theorem Protected.run (h : Protected nr F₀ F k) (budget : nr + Buddy.maxOrder < fuel)
    (small : nr < 2 ^ 31) (noZero : 0 ∉ F₀) (runs : ProtectedRuns fuel F₀ F k whose k') :
    Protected nr F₀ F k' := by
  induction runs with
  | refl => exact h
  | step _ step ih => exact ih.step budget small noZero step

end Protected

/-! ### Paging is turned on -/

section Paging
variable {nr fuel F : Nat} {F₀ : Set Nat} {p : PageAllocator.State} {mem : Nat → BitVec 64}
  {s : System}

theorem buildTables_low {v v' : Vma.State} {template : Nat} (small : F < 2 ^ 31)
    (run : (Vma.buildTables F).run v = .ok (template, v')) : F < 2 ^ 19 := by
  unfold Vma.buildTables at run
  obtain ⟨_, _, first, _⟩ := of_bind_ok run
  unfold Vma.pgdToKva Vma.paToKva at first
  obtain ⟨_, _, check, _⟩ := of_bind_ok first
  rw [assertThat] at check
  split_ifs at check with inside
  · have low := of_decide_eq_true inside
    rw [Vma.pgdToPa, BitVec.toNat_shiftLeft, BitVec.toNat_ofNat, Vma.kernelVmemSize,
      Vma.kernelVmemEnd, Vma.kernelVmemStart, Nat.shiftLeft_eq] at low
    omega
  · cases check

theorem Supplied.paged (h : Supplied nr F₀ (booted p mem)) (budget : nr + Buddy.maxOrder < fuel)
    (small : nr < 2 ^ 31) (noZero : 0 ∉ F₀)
    (run : (System.reinitialisePgt (some (buddyPageAllocator fuel))).run (beforePaging p mem) =
      .ok (some (Vma.tableAt F), s)) :
    Protected nr F₀ F (paged s F) ∧ F + 16 ≤ 2 ^ 20 := by
  obtain ⟨answer, s₁, asked, run⟩ := of_bind_ok run
  obtain ⟨q, front, rfl⟩ := of_zoom_ok asked
  cases answer with
  | none => cases run
  | some pages =>
      obtain ⟨template, s₂, zoomed, run⟩ := of_bind_ok run
      obtain ⟨v, built, rfl⟩ := of_zoom_ok zoomed
      rw [allocPagesBy_buddy fuel (by decide)] at front
      have after := h.tagged.allocPages budget front
      obtain ⟨_, _, fits, _⟩ := after.holding.outstanding.1 (pages, 4) List.mem_cons_self
      have size := after.holding.size
      dsimp only at fits size
      have low := buildTables_low (by omega) built
      have inside : pages + 16 ≤ 2 ^ 20 := after.below List.mem_cons_self (by omega)
      let before : Vma.PageWords := fun n j => mem (Vma.slot (Vma.tableAt (pages + n)) j)
      have builds : Vma.Builds pages (Vma.buildTables pages) (Vma.tableAt pages) before
          (Vma.builtWords pages) := .buildTables (Vma.buildTables_window inside built)
      obtain ⟨mem', built', holds, _⟩ := builds (beforePaging p mem).vma fun _ _ _ _ => rfl
      cases built.symm.trans built'
      obtain ⟨place, rfl⟩ := Prod.mk.inj (Except.ok.inj run)
      cases Vma.tableAt_inj (Option.some.inj place)
      have noArea : ∀ (i : Nat) (a : Vma.Area), ([] : List Vma.Area)[i]? ≠ some a := by
        intro i a there
        cases List.getElem?_nil.symm.trans there
      have noFrame : ∀ {P : Nat → Prop}, ∀ f ∈ ([] : List Nat), P f :=
        fun f mem => (List.not_mem_nil mem).elim
      have supplied : Supplied nr F₀ ⟨q, mem', [], [(F, 4)]⟩ := ⟨after, noFrame⟩
      refine ⟨⟨supplied, ⟨⟨List.nodup_nil, noFrame⟩, ?_, supplied.promise noZero []⟩, ?_, holds,
        List.mem_singleton_self _⟩, inside⟩
      · exact fun i a there => absurd there (noArea i a)
      · exact fun i a there => absurd there (noArea i a)

end Paging

/-! ### Results -/

/-- User mode gets to pages of the process itself, none of which is a table or was kept back, and
to all that `get_mapping` shows. The upper half, for the kernel alone, is the same in each area. -/
structure Confined (back : Set Nat) (k : KernelMemory) : Prop where
  user : ∀ (i : Nat) (a : Vma.Area) (va : BitVec 64) (x : Nat), k.areas[i]? = some a →
    Vma.userWalk (k.view a).vma va = some x →
    va.toNat < 2 ^ 47 ∧ x / 4096 ∈ Buddy.pagesOf (blocksOf a.pageAllocations) ∧
      x / 4096 ∉ back ∧ ∀ b ∈ k.areas, ¬ Vma.TableFrame (k.view b).vma (x / 4096)
  shown : ∀ (i : Nat) (a : Vma.Area) (va pa : BitVec 64), k.areas[i]? = some a →
    va.toNat < 2 ^ 47 → Vma.Shows (k.view a).vma va pa →
    Vma.userWalk (k.view a).vma va = some pa.toNat
  kernel : ∀ (i : Nat) (a : Vma.Area) (va : BitVec 64) (x : Nat), k.areas[i]? = some a →
    2 ^ 64 - 2 ^ 47 ≤ va.toNat →
    (Vma.processorWalk (k.view a).vma va = some x ↔
      x < 2 ^ 32 ∧ va.toNat = Vma.pmemVaStart + x ∨
        x < 2 ^ 31 ∧ va.toNat = Vma.kernelVmemStart + x)

section Results
variable {nr fuel F : Nat} {F₀ : Set Nat} {k : KernelMemory} {whose : List (Option Nat)}
  {added : List AddedMemory} {layout : KernelLayout} {doSelfTest : Bool}
  {s s₀ : PageAllocator.State} {s₁ : System}

theorem Protected.confined (h : Protected nr F₀ F k) {back : Set Nat}
    (kept : ∀ f ∈ F₀, f ∉ back) (inside : F + 16 ≤ 2 ^ 20) : Confined back k := by
  have apart : ∀ {i : Nat} {a : Vma.Area}, k.areas[i]? = some a → Vma.Apart a.pageAllocations :=
    fun there => h.sound.promise.apart _ _ there
  have kernel : Vma.getFlag (Vma.builtWords F 0 0x1ff) .allowUser = false := Vma.linkEntry_denies _
  have direct : Vma.getFlag (Vma.builtWords F 0 0x100) .allowUser = false := Vma.linkEntry_denies _
  constructor
  case user =>
    intro i a va x there walk
    obtain ⟨m, D, space, data⟩ := h.sound.sound i a there
    obtain ⟨low, pa, shows, rfl⟩ :=
      ((h.guarded i a there).userWalk_iff space data (apart there) kernel direct).mp walk
    obtain ⟨held, noTable⟩ := (h.sound.sound i a there).place (apart there) low shows
    have mine := held_iff.mp held
    have page := h.supplied.page (pagesOf_mono (blocks_subset there) mine)
    refine ⟨low, mine, kept _ page.1, fun b mem table => ?_⟩
    obtain ⟨j, there'⟩ := List.getElem?_of_mem mem
    by_cases same : i = j
    · subst same
      cases there.symm.trans there'
      exact noTable table
    · obtain ⟨m', D', space', _⟩ := h.sound.sound j b there'
      have other := held_iff.mp (space'.heldTables _ table)
      exact h.supplied.blocks_apart.2.1 i j a b same there there' _ mine other
  case shown =>
    intro i a va pa there low shows
    obtain ⟨m, D, space, data⟩ := h.sound.sound i a there
    exact ((h.guarded i a there).userWalk_iff space data (apart there) kernel direct).mpr
      ⟨low, pa, shows, rfl⟩
  case kernel =>
    intro i a va x there upper
    obtain ⟨m, D, space, _⟩ := h.sound.sound i a there
    have g := h.guarded i a there
    exact g.walk_upper_iff (g.rooted space (apart there)) h.tables inside upper

/-- Over every run of the kernel from its own page tables on, a program in user mode reaches pages
of its process alone, and the kernel is mapped in each area as it mapped itself. -/
theorem user_mode_confined
    (budget : nrPagesOf (.ofBlocks added) + Buddy.maxOrder < fuel)
    (success : (init fuel (.ofBlocks added) layout doSelfTest).run s = .ok (true, s₀))
    (mem : Nat → BitVec 64)
    (paging : (System.reinitialisePgt (some (buddyPageAllocator fuel))).run
      (beforePaging s₀ mem) = .ok (some (Vma.tableAt F), s₁))
    (runs : ProtectedRuns fuel (availablePages s₀) F (paged s₁ F) whose k) :
    Confined (keptBack layout (nrPagesOf (.ofBlocks added))) k := by
  obtain ⟨start, small, noZero, kept⟩ := booted_supplied budget success mem
  obtain ⟨begun, inside⟩ := start.paged budget small noZero paging
  exact (begun.run budget small noZero runs).confined kept inside

/-- One process with one page, on a machine of forty-eight pages. -/
theorem user_mode_confined_page : ∃ (k : KernelMemory) (a : Vma.Area), k.areas[0]? = some a ∧
    Vma.userWalk (k.view a).vma 0x400123 = some 0xb123 ∧ Confined (keptBack sampleLayout 48) k := by
  have ran : endsWith (init 80 (.ofBlocks [⟨0, 48, .normal⟩]) sampleLayout false)
      ⟨Buddy.State.fresh 0, fun _ => .invalid⟩ (fun answer s₀ => answer &&
        endsWith (System.reinitialisePgt (some (buddyPageAllocator 80)))
          (beforePaging s₀ fun _ => 0) (fun t s₁ => t == some (Vma.tableAt 16) &&
            endsWith (System.create (some (buddyPageAllocator 80))
                (some fun i => s₁.vma.mem (Vma.slot (Vma.tableAt 16) i)))
              ((paged s₁ 16).view .empty) (fun _ s₂ =>
                endsWith (System.allocateVirt (some (buddyPageAllocator 80)) 0x400000 1)
                  (((paged s₁ 16).add s₂).view s₂.vma.area) fun _ s₃ =>
                    let k := ((paged s₁ 16).add s₂).put 0 s₃
                    Vma.userWalk (k.view s₃.vma.area).vma 0x400123 == some 0xb123))) = true := by
    decide +kernel
  obtain ⟨answer, s₀, start, ran⟩ := of_endsWith ran
  obtain ⟨answer, ran⟩ := Bool.and_eq_true_iff.mp ran
  obtain ⟨t, s₁, paging, ran⟩ := of_endsWith ran
  obtain ⟨place, ran⟩ := Bool.and_eq_true_iff.mp ran
  obtain ⟨_, s₂, made, ran⟩ := of_endsWith ran
  obtain ⟨r, s₃, mapped, walk⟩ := of_endsWith ran
  cases answer
  cases eq_of_beq place
  have first : ((paged s₁ 16).add s₂).areas[0]? = some s₂.vma.area := rfl
  have int : (1 : Int) < 2 ^ 31 := by decide
  have step : Step 80 (availablePages s₀) ((paged s₁ 16).add s₂) (some 0)
      (((paged s₁ 16).add s₂).put 0 s₃) :=
    .allocateVirt first (by decide) int (by decide) mapped
  have confined := @user_mode_confined 80 16 _ _ [⟨0, 48, .normal⟩] sampleLayout false _ s₀ s₁
    (by decide) start _ paging (.step (.step .refl (.create made)) (.process Nat.zero_lt_one step))
  exact ⟨((paged s₁ 16).add s₂).put 0 s₃, s₃.vma.area, rfl, eq_of_beq walk, confined⟩

end Results
end KernelMemory
end Infos.Mm
