import Infos.Mm.AllocationFailure
import Infos.Mm.PageAllocatorRuns
import Infos.Mm.VmaSpace

/-!
# Operations that draw pages

The operations of an area over the buddy allocator: each run that returns took blocks that nobody
else holds, and is a run on the area alone for the frames that it took.
-/
namespace Infos.Mm
open Infos.Lib Function PageAllocator Set

/-- The blocks of an area, as callers of the page allocator hold them. -/
def blocksOf (allocations : List Vma.PageAllocation) : List (Nat × Nat) :=
  allocations.map fun b => (b.descriptorBase, b.allocationOrder)

namespace System

/-- What the constructor does with the page of the top-level table. -/
def setRoot (pgd : Nat) : Exec Vma.State Unit := do
  let base ← Vma.pgdToVpa pgd
  modify fun s => { s with pgtPhysBase := Vma.pgdToPa pgd, pgtVirtBase := base }

def construct (installed : Option PageAllocatorAlgorithm) : Exec System Unit := do
  match ← allocatePhys installed 0 with
  | none => throw .assertion
  | some pgd => onVma (setRoot pgd)

/-- The constructors of the area and of its process. -/
def create (installed : Option PageAllocatorAlgorithm) (template : Option (Nat → BitVec 64)) :
    Exec System Unit := do
  construct installed
  onVma (Vma.installDefaultKernelMapping template)

/-- What one operation took: blocks that nobody else holds, in the order of the operation on the
area alone. -/
structure Drawn {α : Type} (nr : Nat) (F₀ : Set Nat) (others : List (Nat × Nat))
    (y : Exec Vma.State α) (s : System) (a : α) (s' : System) (handed : List Nat) : Prop where
  tagged : Tagged nr F₀ ⟨s'.pgalloc, blocksOf s'.vma.pageAllocations ++ others⟩
  taken : Vma.allocated s'.vma = Vma.allocated s.vma ++ handed
  low : ∀ f ∈ handed, f < 2 ^ 20
  run : ∀ rest, y.run { s.vma with frames := handed ++ rest } =
    .ok (a, { s'.vma with frames := rest })

/-- Every run of `x` that returns took its pages from the allocator and is one of `y`. -/
def Draws {α : Type} (nr : Nat) (F₀ : Set Nat) (x : Exec System α) (y : Exec Vma.State α) : Prop :=
  ∀ s a s' others, x.run s = .ok (a, s') →
    Tagged nr F₀ ⟨s.pgalloc, blocksOf s.vma.pageAllocations ++ others⟩ →
    ∃ handed, Drawn nr F₀ others y s a s' handed

/-- The area keeps its blocks. -/
def SameBlocks (s s' : Vma.State) : Prop := s'.pageAllocations = s.pageAllocations

instance : Std.Refl SameBlocks := ⟨fun _ => rfl⟩

instance : IsTrans Vma.State SameBlocks := ⟨fun _ _ _ h h' => h'.trans h⟩

namespace Draws
variable {α β : Type} {nr : Nat} {F₀ : Set Nat} {x : Exec System α} {y : Exec Vma.State α}
  {f : α → Exec System β} {g : α → Exec Vma.State β}

theorem bind (hx : Draws nr F₀ x y) (hf : ∀ a, Draws nr F₀ (f a) (g a)) :
    Draws nr F₀ (x >>= f) (y >>= g) := by
  intro s b s'' others run tagged
  obtain ⟨a, s', run₁, run₂⟩ := of_bind_ok run
  obtain ⟨handed₁, first⟩ := hx s a s' others run₁ tagged
  obtain ⟨handed₂, second⟩ := hf a s' b s'' others run₂ first.tagged
  refine ⟨handed₁ ++ handed₂, second.tagged, ?_, ?_, fun rest => ?_⟩
  · rw [second.taken, first.taken, List.append_assoc]
  · intro p taken
    exact (List.mem_append.mp taken).elim (first.low p) (second.low p)
  · rw [List.append_assoc, bind_ok (first.run (handed₂ ++ rest))]
    exact second.run rest

theorem ret (a : α) : Draws nr F₀ (pure a) (pure a) := by
  intro s b s' others run tagged
  cases run
  exact ⟨[], tagged, (List.append_nil _).symm, nofun, fun rest => rfl⟩

theorem fault (e : Fault) : Draws nr F₀ (throw e) y := by
  intro s a s' others run
  cases run

/-- Work on the area that takes no pages. -/
theorem onVma (unread : FramesUnread y) (same : Respects SameBlocks y) :
    Draws nr F₀ (onVma y) y := by
  intro s a s' others run tagged
  obtain ⟨t, run', rfl⟩ := of_zoom_ok run
  have blocks : t.pageAllocations = s.vma.pageAllocations := same _ _ _ run'
  refine ⟨[], ?_, ?_, nofun, fun rest => unread s.vma a t rest run'⟩
  · dsimp only
    rw [blocks]
    exact tagged
  · rw [List.append_nil]
    exact congrArg (List.map _) blocks

end Draws

section Same

theorem paToVpa_same (pa : BitVec 64) : Respects SameBlocks (Vma.paToVpa pa) := by
  unfold Vma.paToVpa
  exact .bind (.assertThat _) fun _ => .ret _

theorem load_same (addr : Nat) : Respects SameBlocks (Vma.load addr) :=
  .bind .getState fun _ => .ret _

theorem modifyEntry_same (addr : Nat) (f : BitVec 64 → BitVec 64) :
    Respects SameBlocks (Vma.modifyEntry addr f) := .modify fun _ => rfl

theorem linkTable_same (entry pgd : Nat) : Respects SameBlocks (linkTable entry pgd) := by
  unfold linkTable
  exact .bind (modifyEntry_same _ _) fun _ => .bind (modifyEntry_same _ _) fun _ =>
    .bind (modifyEntry_same _ _) fun _ => modifyEntry_same _ _

theorem tableOf_same (entry : Nat) : Respects SameBlocks (tableOf entry) :=
  .bind (load_same entry) fun _ => paToVpa_same _

theorem insertEntry_same (pt : Nat) (pa mappingFlags : BitVec 64) :
    Respects SameBlocks (Vma.insertEntry pt pa mappingFlags) := by
  intro s a s' run
  rw [Vma.insertEntry_run] at run
  cases run
  rfl

theorem setRoot_same (pgd : Nat) : Respects SameBlocks (setRoot pgd) :=
  .bind (paToVpa_same _) fun _ => .modify fun _ => rfl

theorem setRoot_unread (pgd : Nat) : FramesUnread (setRoot pgd) :=
  (FramesUnread.paToVpa _).bind fun _ => .change _ fun _ _ => rfl

theorem installDefaultKernelMapping_same (template : Option (Nat → BitVec 64)) :
    Respects SameBlocks (Vma.installDefaultKernelMapping template) := by
  unfold Vma.installDefaultKernelMapping
  cases template with
  | none => exact .throw _
  | some pml4 =>
      exact .bind .getState fun _ => .bind (modifyEntry_same _ _) fun _ => modifyEntry_same _ _

theorem FramesUnread.bindGet {α : Type} {k : Vma.State → Exec Vma.State α}
    (same : ∀ s fs, k { s with frames := fs } = k s) (hk : ∀ s, FramesUnread (k s)) :
    FramesUnread (get >>= k) := by
  intro s a s' fs run
  rw [bind_ok (run_get_eq s)] at run
  rw [bind_ok (run_get_eq _), same]
  exact hk s s a s' fs run

theorem installDefaultKernelMapping_unread (template : Option (Nat → BitVec 64)) :
    FramesUnread (Vma.installDefaultKernelMapping template) := by
  cases template with
  | none =>
      intro s a s' fs run
      cases run
  | some pml4 =>
      refine .bindGet (fun _ _ => rfl) fun _ => ?_
      exact (FramesUnread.modifyEntry _ _).bind fun _ => .modifyEntry _ _

theorem lookupTable_unread (entry : Nat) : FramesUnread (Vma.lookupTable entry) := by
  unfold Vma.lookupTable
  refine (FramesUnread.load entry).bind fun _ => ?_
  split_ifs
  · refine (FramesUnread.load entry).bind fun _ => ?_
    exact (FramesUnread.paToVpa _).bind fun _ => .ret _
  · exact .ret none

theorem getMapping_unread (va : BitVec 64) : FramesUnread (Vma.getMapping va) := by
  unfold Vma.getMapping
  refine .bindGet (fun _ _ => rfl) fun _ => ?_
  dsimp only
  split_ifs
  · exact .ret none
  · refine (lookupTable_unread _).bind fun pdpTable => ?_
    cases pdpTable with
    | none => exact .ret none
    | some _ =>
      refine (lookupTable_unread _).bind fun pdTable => ?_
      cases pdTable with
      | none => exact .ret none
      | some _ =>
        refine (lookupTable_unread _).bind fun ptTable => ?_
        cases ptTable with
        | none => exact .ret none
        | some _ =>
          refine (FramesUnread.load _).bind fun _ => ?_
          split_ifs
          · exact .ret _
          · exact .ret none

theorem copyTo_unread (va : BitVec 64) (src : List Byte) : FramesUnread (Vma.copyTo va src) := by
  refine (getMapping_unread va).bind fun answer => ?_
  cases answer with
  | none => exact .ret false
  | some pa =>
      refine (FramesUnread.paToVpa pa).bind fun _ => ?_
      exact (FramesUnread.change _ fun _ _ => rfl).bind fun _ => .ret true

theorem copyTo_same (va : BitVec 64) (src : List Byte) :
    Respects SameBlocks (Vma.copyTo va src) := by
  have look : Respects SameBlocks (Vma.getMapping va) := by
    intro s r s' run
    cases Vma.getMapping_same va s r s' run
    rfl
  unfold Vma.copyTo
  refine .bind look fun r => ?_
  cases r with
  | none => exact .ret false
  | some pa =>
      exact .bind (paToVpa_same pa) fun _ => .bind (.modify fun _ => rfl) fun _ => .ret true

end Same

end System

/-! ### The page allocator under the operations -/

section Allocator
variable {nr fuel : Nat} {F₀ : Set Nat} {held held' : List (Nat × Nat)} {p t : PageAllocator.State}

theorem PageAllocator.Tagged.perm (h : Tagged nr F₀ ⟨p, held⟩) (e : held.Perm held') :
    Tagged nr F₀ ⟨p, held'⟩ where
  holding := h.holding.perm e
  free := h.free
  held b mem := h.held b (e.mem_iff.mpr mem)

/-- A block that the front end hands out joins the held ones. -/
theorem PageAllocator.Tagged.allocPages (h : Tagged nr F₀ ⟨p, held⟩)
    (budget : nr + Buddy.maxOrder < fuel) {k pgd : Nat}
    (run : (PageAllocator.allocPages fuel k).run p = .ok (some pgd, t)) :
    Tagged nr F₀ ⟨t, (pgd, k) :: held⟩ := by
  have valid : ClientOp.Valid fuel ⟨p, held⟩ (.alloc k) := by
    obtain ⟨answer, s₁, call, rest⟩ := of_bind_ok run
    cases answer with
    | none => cases rest
    | some q =>
        obtain ⟨a, found, _⟩ := of_algorithm_ok call
        exact ⟨q, a, found⟩
  obtain ⟨c, call, tagged⟩ := h.alloc budget valid
  have here : (ClientOp.run fuel (.alloc k)).run ⟨p, held⟩ = .ok ((), ⟨t, (pgd, k) :: held⟩) := by
    unfold ClientOp.run Client.onAllocator
    rw [bind_ok (zoom_run run)]
    rfl
  cases here.symm.trans call
  exact tagged

/-- A held block goes back. -/
theorem PageAllocator.Tagged.freePages (h : Tagged nr F₀ ⟨p, held⟩)
    (budget : nr + Buddy.maxOrder < fuel) {b : Nat × Nat} (mem : b ∈ held)
    (run : (PageAllocator.freePages fuel b.1 b.2).run p = .ok ((), t)) :
    Tagged nr F₀ ⟨t, held.erase b⟩ := by
  obtain ⟨c, call, tagged⟩ := h.free_block budget mem
  have here : (ClientOp.run fuel (.free b)).run ⟨p, held⟩ = .ok ((), ⟨t, held.erase b⟩) :=
    bind_ok (zoom_run run)
  cases here.symm.trans call
  exact tagged

/-- A held block inside the direct map lies in it as a whole, for it is aligned. -/
theorem PageAllocator.Tagged.below (h : Tagged nr F₀ ⟨p, held⟩) {b : Nat × Nat} (mem : b ∈ held)
    (low : b.1 < 2 ^ 20) : b.1 + 2 ^ b.2 ≤ 2 ^ 20 := by
  obtain ⟨order, aligned, _, _⟩ := h.holding.outstanding.1 b mem
  have divides : 2 ^ b.2 ∣ 2 ^ 20 := Nat.pow_dvd_pow 2 (by rw [Buddy.maxOrder] at order; omega)
  obtain ⟨i, first⟩ := aligned
  obtain ⟨n, all⟩ := divides
  rw [first, all] at low ⊢
  have next : i < n := Nat.lt_of_mul_lt_mul_left low
  calc 2 ^ b.2 * i + 2 ^ b.2 = 2 ^ b.2 * (i + 1) := by rw [Nat.mul_succ]
    _ ≤ 2 ^ b.2 * n := Nat.mul_le_mul_left _ next

end Allocator

namespace System
section Refinement
variable {nr fuel : Nat} {F₀ : Set Nat}

/-- The page that `keepPages` clears is in the direct map. -/
theorem of_keepPages_ok {pgd order : Nat} {s s' : Vma.State} (small : pgd < 2 ^ 31)
    (run : (keepPages pgd order).run s = .ok ((), s')) :
    pgd < 2 ^ 20 ∧ s'.pageAllocations = s.pageAllocations ++ [⟨pgd, order⟩] := by
  obtain ⟨_, s₁, added, run⟩ := of_bind_ok run
  cases added
  obtain ⟨base, s₂, place, run⟩ := of_bind_ok run
  have same : s₂.pageAllocations = s.pageAllocations ++ [⟨pgd, order⟩] := paToVpa_same _ _ _ _ place
  obtain ⟨_, _, check, _⟩ := of_bind_ok place
  cases run
  rw [assertThat] at check
  split_ifs at check with inside
  · refine ⟨?_, same⟩
    have low := of_decide_eq_true inside
    rw [Vma.pgdToPa, BitVec.toNat_shiftLeft, BitVec.toNat_ofNat, Vma.pmemVaSize,
      Nat.shiftLeft_eq] at low
    omega
  · cases check

variable (budget : nr + Buddy.maxOrder < fuel) (small : nr < 2 ^ 31)
include budget small

theorem allocatePhys_draws {order : Nat} (word : order < 32) :
    Draws nr F₀ (allocatePhys (some (buddyPageAllocator fuel)) order) (Vma.allocatePhys order) := by
  intro s answer s' others run tagged
  obtain ⟨answer₁, s₁, asked, run⟩ := of_bind_ok run
  obtain ⟨t, front, rfl⟩ := of_zoom_ok asked
  cases answer₁ with
  | none => exact absurd front (allocPagesBy_ne_null word)
  | some pgd =>
      obtain ⟨_, s₂, keep, run⟩ := of_bind_ok run
      obtain ⟨v, kept, rfl⟩ := of_zoom_ok keep
      cases run
      rw [allocPagesBy_buddy fuel word] at front
      have after := tagged.allocPages budget front
      obtain ⟨_, _, fits, _⟩ := after.holding.outstanding.1 (pgd, order) List.mem_cons_self
      have pages := Nat.two_pow_pos order
      have size := after.holding.size
      dsimp only at fits size
      obtain ⟨low, blocks⟩ := of_keepPages_ok (by omega) kept
      dsimp only at blocks
      refine ⟨[pgd], ?_, ?_, ?_, fun rest => ?_⟩
      · dsimp only
        rw [blocks, blocksOf, List.map_append, List.append_assoc]
        exact after.perm List.perm_middle.symm
      · dsimp only [Vma.allocated]
        rw [blocks, List.map_append]
        rfl
      · intro f mem
        rwa [List.mem_singleton.mp mem]
      · rw [vma_allocatePhys_eq]
        have first : (Vma.allocPages order).run { s.vma with frames := [pgd] ++ rest } =
            .ok (some pgd, { s.vma with frames := rest }) := rfl
        rw [bind_ok first]
        dsimp only
        rw [bind_ok (FramesUnread.keepPages pgd order _ _ _ rest kept)]
        rfl

theorem insertTable_draws (entry : Nat) :
    Draws nr F₀ (insertTable (some (buddyPageAllocator fuel)) entry) (Vma.insertTable entry) := by
  rw [vma_insertTable_eq]
  unfold insertTable
  have table : Draws nr F₀ (System.onVma (tableOf entry)) (tableOf entry) :=
    .onVma (.tableOf entry) (tableOf_same entry)
  refine (Draws.onVma (.load entry) (load_same entry)).bind fun word => ?_
  split_ifs
  · refine (allocatePhys_draws budget small (by decide)).bind fun answer => ?_
    cases answer with
    | none => exact (Draws.fault .assertion).bind fun _ => table
    | some pgd =>
        exact (Draws.onVma (.linkTable entry pgd) (linkTable_same entry pgd)).bind fun _ => table
  · exact table

theorem insertMapping_draws (va pa mappingFlags : BitVec 64) :
    Draws nr F₀ (insertMapping (some (buddyPageAllocator fuel)) va pa mappingFlags)
      (Vma.insertMapping va pa mappingFlags) := by
  rw [vma_insertMapping_eq]
  have root : Draws nr F₀ (System.onVma do pure (← get).pgtVirtBase)
      (do pure (← get).pgtVirtBase : Exec Vma.State Nat) :=
    .onVma (.read (fun s => s.pgtVirtBase) fun _ _ => rfl) (.bind .getState fun _ => .ret _)
  refine root.bind fun root => ?_
  refine (insertTable_draws budget small _).bind fun pdpTable => ?_
  refine (insertTable_draws budget small _).bind fun pdTable => ?_
  refine (insertTable_draws budget small _).bind fun ptTable => ?_
  exact .onVma (.insertEntry _ pa mappingFlags) (insertEntry_same _ pa mappingFlags)

theorem mapPages_draws (n : Nat) (vbase pbase : BitVec 64) :
    Draws nr F₀ (mapPages (some (buddyPageAllocator fuel)) n vbase pbase)
      (Vma.mapPages n vbase pbase) := by
  induction n generalizing vbase pbase with
  | zero => exact .ret ()
  | succ n ih => exact (insertMapping_draws budget small _ _ _).bind fun _ => ih _ _

theorem allocateVirt_draws (va : BitVec 64) {nrPages : Int} (some : 0 ≤ nrPages)
    (int : nrPages < 2 ^ 31) :
    Draws nr F₀ (allocateVirt (.some (buddyPageAllocator fuel)) va nrPages)
      (Vma.allocateVirt va nrPages) := by
  unfold allocateVirt Vma.allocateVirt
  by_cases zero : nrPages = 0
  · rw [if_pos zero, if_pos zero]
    exact .ret false
  · rw [if_neg zero, if_neg zero]
    have order := log2ceil_lt (lt_of_le_of_ne some (Ne.symm zero)) int
    refine (allocatePhys_draws budget small order).bind fun answer => ?_
    cases answer with
    | none => exact .ret false
    | some pgd => exact (mapPages_draws budget small _ _ _).bind fun _ => .ret true

theorem create_draws (template : Option (Nat → BitVec 64)) :
    Draws nr F₀ (create (some (buddyPageAllocator fuel)) template) (Vma.create template) := by
  have constructed :
      Draws nr F₀ (construct (some (buddyPageAllocator fuel))) Vma.construct := by
    unfold construct Vma.construct
    refine (allocatePhys_draws budget small (by decide)).bind fun answer => ?_
    cases answer with
    | none => exact .fault .assertion
    | some pgd => exact .onVma (setRoot_unread pgd) (setRoot_same pgd)
  exact constructed.bind fun _ => .onVma (installDefaultKernelMapping_unread template)
    (installDefaultKernelMapping_same template)

end Refinement
end System

end Infos.Mm
