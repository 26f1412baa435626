import Infos.Lib.Machine
import Infos.Mm.PageAllocatorInit

/-!
# The type tags and the free lists agree

A client allocates and frees through the front end and remembers what it holds.
Over any run, a page is tagged available exactly when the algorithm has it free.
-/
namespace Infos.Mm.PageAllocator
open Infos.Lib Function Set

section Retype
variable {s : State} {old new : PageDescriptorType} {pgd count : Nat}

/-- The tags after a loop over `count` descriptors. -/
def retyped (types : Nat → PageDescriptorType) (new : PageDescriptorType) (pgd count : Nat) :
    Nat → PageDescriptorType :=
  fun x => if pgd ≤ x ∧ x < pgd + count then new else types x

theorem retype_run (inside : pgd + count ≤ s.nrPages)
    (tagged : ∀ x, pgd ≤ x → x < pgd + count → s.types x = old) :
    (retype old new pgd count).run s =
      .ok ((), { s with types := retyped s.types new pgd count }) := by
  induction count generalizing s pgd with
  | zero =>
      have same : retyped s.types new pgd 0 = s.types := by
        funext x
        exact if_neg (by omega)
      rw [same]
      rfl
  | succ count ih =>
      have lt : pgd < s.nrPages := by omega
      have read : (getType pgd).run s = .ok (s.types pgd, s) := by
        unfold getType
        rw [bind_ok (run_get_eq s), if_pos lt]
        rfl
      have write : (setType pgd new).run s =
          .ok ((), { s with types := update s.types pgd new }) := by
        unfold setType
        rw [bind_ok (run_get_eq s), if_pos lt]
        rfl
      have checked : (s.types pgd == old) = true :=
        beq_iff_eq.mpr (tagged pgd le_rfl (by omega))
      unfold retype
      rw [bind_ok read, bind_ok (assertThat_run checked), bind_ok write, ih]
      · congr 3
        funext x
        simp only [retyped, update_apply]
        split_ifs <;> first | rfl | omega
      · change pgd + 1 + count ≤ s.nrPages
        omega
      · intro x lo hi
        dsimp only
        rw [update_of_ne (by omega)]
        exact tagged x (by omega) (by omega)

end Retype

/-! ### Clients -/

/-- The allocator together with the blocks currently held from `alloc_pages`. -/
structure Client where
  allocator : State
  held : List (Nat × Nat)

inductive ClientOp where
  | alloc (order : Nat)
  | free (block : Nat × Nat)

def Client.onAllocator {α : Type} (x : Exec State α) : Exec Client α :=
  zoom Client.allocator (fun c s => { c with allocator := s }) x

def ClientOp.run (fuel : Nat) : ClientOp → Exec Client Unit
  | .alloc k => do
      match ← Client.onAllocator (allocPages fuel k) with
      | none => pure ()
      | some pgd => modify fun c => { c with held := (pgd, k) :: c.held }
  | .free b => do
      Client.onAllocator (freePages fuel b.1 b.2)
      modify fun c => { c with held := c.held.erase b }

/-- An allocation finds memory, and only held blocks are freed. -/
def ClientOp.Valid (fuel : Nat) (c : Client) : ClientOp → Prop
  | .alloc k => ∃ p a, (Buddy.allocPages fuel k).run c.allocator.algorithm = .ok (some p, a)
  | .free b => b ∈ c.held

/-- Clients of an allocator that `init` left in state `s`. -/
def clients (fuel : Nat) (s : State) : Machine Client ClientOp Unit where
  start c := c = ⟨s, []⟩
  valid := ClientOp.Valid fuel
  run := ClientOp.run fuel

/-- What holds of a client of `nr` pages, given the descriptors `m` after marking. -/
structure ClientOk (nr fuel : Nat) (m : State) (c : Client) : Prop where
  agree : ∀ x < nr,
    c.allocator.types x = .available ↔ x ∈ Buddy.freePagesOf c.allocator.algorithm
  marked : ∀ b ∈ c.held, ∀ x ∈ block b.2 b.1, m.types x = .available
  disjoint : c.held.Pairwise fun a b => Disjoint (block a.2 a.1) (block b.2 b.1)
  returns : ∀ op : ClientOp, op.Valid fuel c → ∃ c', (op.run fuel).run c = .ok ((), c')

section Runs
variable {nr fuel : Nat} {F₀ : Set Nat} {c : Client} {s : State}

/-- The run invariant: the tags record which pages are free and which are held. -/
structure Tagged (nr : Nat) (F₀ : Set Nat) (c : Client) : Prop where
  holding : Buddy.Holding nr F₀ c.held c.allocator.algorithm
  free : ∀ x < nr, c.allocator.types x = .available ↔
    x ∈ Buddy.freePagesOf c.allocator.algorithm
  held : ∀ b ∈ c.held, ∀ x ∈ block b.2 b.1, c.allocator.types x = .allocated

theorem mem_block_shift {k p x : Nat} : x ∈ block k p ↔ p ≤ x ∧ x < p + 1 <<< k := by
  rw [mem_block, Nat.one_shiftLeft]

theorem retyped_inside {types : Nat → PageDescriptorType} {new : PageDescriptorType} {k p x : Nat}
    (h : x ∈ block k p) : retyped types new p (1 <<< k) x = new :=
  if_pos (mem_block_shift.mp h)

theorem retyped_outside {types : Nat → PageDescriptorType} {new : PageDescriptorType} {k p x : Nat}
    (h : x ∉ block k p) : retyped types new p (1 <<< k) x = types x :=
  if_neg fun inside => h (mem_block_shift.mpr inside)

theorem retype_block {old : PageDescriptorType} (new : PageDescriptorType) {k p : Nat}
    (inside : p + 2 ^ k ≤ s.nrPages)
    (tagged : ∀ x ∈ block k p, s.types x = old) :
    (retype old new p (1 <<< k)).run s =
      .ok ((), { s with types := retyped s.types new p (1 <<< k) }) := by
  apply retype_run
  · rw [Nat.one_shiftLeft]
    exact inside
  · intro x lo hi
    exact tagged x (mem_block_shift.mpr ⟨lo, hi⟩)

theorem Tagged.alloc (h : Tagged nr F₀ c) (budget : nr + Buddy.maxOrder < fuel) {k : Nat}
    (valid : ClientOp.Valid fuel c (.alloc k)) :
    ∃ c', (ClientOp.run fuel (.alloc k)).run c = .ok ((), c') ∧ Tagged nr F₀ c' := by
  obtain ⟨p, a, call⟩ := valid
  rcases h.holding.alloc (k := k) budget with run | ⟨p', a', run, free, pages, holding⟩
  · cases run.symm.trans call
  cases run.symm.trans call
  obtain ⟨_, _, fits, _⟩ := holding.outstanding.1 (p, k) List.mem_cons_self
  obtain ⟨L, sound⟩ := h.holding.sound
  have before := h.holding.size
  let s₁ : State := { c.allocator with algorithm := a }
  have tagged : ∀ x ∈ block k p, s₁.types x = .available := by
    intro x hx
    exact (h.free x (before ▸ sound.inside x (free hx))).mpr (free hx)
  have loop := retype_block (s := s₁) .allocated fits tagged
  have apart : ∀ b ∈ c.held, ∀ x ∈ block b.2 b.1, x ∉ block k p := by
    intro b hb x hx hx'
    exact disjoint_left.mp ((List.pairwise_cons.mp holding.outstanding.2).1 b hb) hx' hx
  refine ⟨⟨{ s₁ with types := retyped s₁.types .allocated p (1 <<< k) }, (p, k) :: c.held⟩,
    ?_, holding, ?_, ?_⟩
  · have front : (allocPages fuel k).run c.allocator =
        .ok (some p, { s₁ with types := retyped s₁.types .allocated p (1 <<< k) }) := by
      unfold allocPages algorithm
      rw [bind_ok (zoom_run run)]
      dsimp only
      rw [bind_ok loop]
      rfl
    unfold ClientOp.run Client.onAllocator
    dsimp only
    rw [bind_ok (zoom_run front)]
    rfl
  · intro x lt
    dsimp only
    rw [pages]
    by_cases hx : x ∈ block k p
    · rw [retyped_inside hx]
      simp [hx]
    · rw [retyped_outside hx]
      simpa [hx] using h.free x lt
  · intro b hb x hx
    rcases List.mem_cons.mp hb with rfl | hb
    · exact retyped_inside hx
    · dsimp only
      rw [retyped_outside (apart b hb x hx)]
      exact h.held b hb x hx

theorem Tagged.free_block (h : Tagged nr F₀ c) (budget : nr + Buddy.maxOrder < fuel)
    {b : Nat × Nat} (valid : b ∈ c.held) :
    ∃ c', (ClientOp.run fuel (.free b)).run c = .ok ((), c') ∧ Tagged nr F₀ c' := by
  have first := h.holding.perm (List.perm_cons_erase valid)
  obtain ⟨a, run, pages, holding⟩ := first.free budget
  obtain ⟨_, _, fits, _⟩ := first.outstanding.1 b List.mem_cons_self
  have apart : ∀ b' ∈ c.held.erase b, ∀ x ∈ block b'.2 b'.1, x ∉ block b.2 b.1 := by
    intro b' hb' x hx hx'
    exact disjoint_left.mp ((List.pairwise_cons.mp first.outstanding.2).1 b' hb') hx' hx
  let s₁ : State := { c.allocator with algorithm := a }
  have size : s₁.nrPages = c.allocator.nrPages := holding.size.trans h.holding.size.symm
  have loop := retype_block (s := s₁) .available (size ▸ fits) (h.held b valid)
  refine ⟨⟨{ s₁ with types := retyped s₁.types .available b.1 (1 <<< b.2) }, c.held.erase b⟩,
    ?_, holding, ?_, ?_⟩
  · have front : (freePages fuel b.1 b.2).run c.allocator =
        .ok ((), { s₁ with types := retyped s₁.types .available b.1 (1 <<< b.2) }) := by
      unfold freePages algorithm
      rw [bind_ok (zoom_run run)]
      exact loop
    unfold ClientOp.run Client.onAllocator
    dsimp only
    rw [bind_ok (zoom_run front)]
    rfl
  · intro x lt
    dsimp only
    rw [pages]
    by_cases hx : x ∈ block b.2 b.1
    · rw [retyped_inside hx]
      simp [hx]
    · rw [retyped_outside hx]
      simpa [hx] using h.free x lt
  · intro b' hb' x hx
    dsimp only
    rw [retyped_outside (apart b' hb' x hx)]
    exact h.held b' (List.mem_of_mem_erase hb') x hx

theorem Tagged.returns (h : Tagged nr F₀ c) (budget : nr + Buddy.maxOrder < fuel) (op : ClientOp)
    (valid : op.Valid fuel c) : ∃ c', (op.run fuel).run c = .ok ((), c') ∧ Tagged nr F₀ c' := by
  cases op with
  | alloc k => exact h.alloc budget valid
  | free b => exact h.free_block budget valid

theorem Tagged.initial {L : Buddy.Lists} (size : s.nrPages = nr)
    (sound : Buddy.Sound s.algorithm L (availablePages s)) :
    Tagged nr (availablePages s) ⟨s, []⟩ where
  holding := sound.holding_nil size
  free := by
    intro x lt
    rw [sound.freePagesOf_eq]
    exact ⟨fun h => ⟨size ▸ lt, h⟩, And.right⟩
  held := fun b hb => absurd hb List.not_mem_nil

theorem Tagged.ok {m : State} (h : Tagged nr (availablePages s) c) (types : s.types = m.types)
    (budget : nr + Buddy.maxOrder < fuel) : ClientOk nr fuel m c where
  agree := h.free
  marked := by
    intro b hb x hx
    have out : x ∈ availablePages s := by
      rw [← h.holding.split]
      exact .inr ⟨b, hb, hx⟩
    rw [← types]
    exact out.2
  disjoint := h.holding.outstanding.2
  returns := by
    intro op valid
    obtain ⟨c', run, _⟩ := h.returns budget op valid
    exact ⟨c', run⟩

/-- Once `init` succeeds, over any run: the tags name the free pages, no check fails, pages
reserved by marking stay with the kernel and no page has two holders. -/
theorem front_end_agrees (added : List AddedMemory) (layout : KernelLayout) (doSelfTest : Bool)
    (fuel : Nat) (budget : nrPagesOf (.ofBlocks added) + Buddy.maxOrder < fuel) (s s₀ : State)
    (success : (init fuel (.ofBlocks added) layout doSelfTest).run s = .ok (true, s₀)) :
    ∃ m, (marked (.ofBlocks added) layout).run s = .ok ((), m) ∧
      ∀ c, (clients fuel s₀).Reach c → ClientOk (nrPagesOf (.ofBlocks added)) fuel m c := by
  obtain ⟨m, mark, types, size, L, sound⟩ := init_sound added budget success
  refine ⟨m, mark, fun c reach => ?_⟩
  have tagged : Tagged (nrPagesOf (.ofBlocks added)) (availablePages s₀) c := by
    refine reach.invariant ?_ ?_
    · rintro _ rfl
      exact Tagged.initial size sound
    · intro c c' op out h valid run
      obtain ⟨c'', run', h'⟩ := h.returns budget op valid
      cases run'.symm.trans run
      exact h'
  exact tagged.ok types budget

/-- Fourteen pages: the kernel image at page 7, the stack at 8, the heap at 9. -/
theorem front_end_agrees_small : ∃ s₀ m,
    (init 40 (.ofBlocks [⟨0, 14, .normal⟩])
      ⟨0x7000, 0x7fff, 0xFFFFFFFF80008000, 0xFFFFFFFF80008fff, 0xFFFFFFFF80009000⟩ false).run
        ⟨Buddy.State.fresh 0, fun _ => .invalid⟩ = .ok (true, s₀) ∧
    (marked (.ofBlocks [⟨0, 14, .normal⟩])
      ⟨0x7000, 0x7fff, 0xFFFFFFFF80008000, 0xFFFFFFFF80008fff, 0xFFFFFFFF80009000⟩).run
        ⟨Buddy.State.fresh 0, fun _ => .invalid⟩ = .ok ((), m) ∧
    ∀ c, (clients 40 s₀).Reach c →
      ClientOk (nrPagesOf (.ofBlocks [⟨0, 14, .normal⟩])) 40 m c := by
  have success : ∃ s₀, (init 40 (.ofBlocks [⟨0, 14, .normal⟩])
      ⟨0x7000, 0x7fff, 0xFFFFFFFF80008000, 0xFFFFFFFF80008fff, 0xFFFFFFFF80009000⟩ false).run
        ⟨Buddy.State.fresh 0, fun _ => .invalid⟩ = .ok (true, s₀) :=
    of_returns (by decide +kernel)
  obtain ⟨s₀, success⟩ := success
  obtain ⟨m, mark, ok⟩ := front_end_agrees [⟨0, 14, .normal⟩]
    ⟨0x7000, 0x7fff, 0xFFFFFFFF80008000, 0xFFFFFFFF80008fff, 0xFFFFFFFF80009000⟩ false 40
    (by decide) _ s₀ success
  exact ⟨s₀, m, success, mark, ok⟩

end Runs
end Infos.Mm.PageAllocator
