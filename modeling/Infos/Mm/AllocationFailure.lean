import Infos.Mm.PageAllocatorAlgorithm
import Infos.Mm.Vma

/-!
# Callers of the page allocator, and what they see of a failure

The virtual memory area over the page allocator itself. Its own model takes the
page frames it is handed from a list; the runs here that return are runs there.
-/
namespace Infos.Mm
open Infos.Lib PageAllocator

/-- The page allocator, and a virtual memory area with the physical memory. -/
structure System where
  pgalloc : PageAllocator.State
  vma : Vma.State

namespace System

def onPgalloc {α : Type} (x : Exec PageAllocator.State α) : Exec System α :=
  zoom System.pgalloc (fun s p => { s with pgalloc := p }) x

def onVma {α : Type} (x : Exec Vma.State α) : Exec System α :=
  zoom System.vma (fun s v => { s with vma := v }) x

section Operations
variable (installed : Option PageAllocatorAlgorithm)

def allocZeroPage : Exec System (Option Nat) := do
  match ← onPgalloc (allocPagesBy installed 0) with
  | none => pure none
  | some pgd => do
      onVma do Vma.pnzero (← Vma.pgdToVpa pgd) 1
      pure (some pgd)

/-- What `allocate_phys` does with the pages it gets. -/
def keepPages (pgd order : Nat) : Exec Vma.State Unit := do
  modify fun s => { s with pageAllocations := s.pageAllocations ++ [⟨pgd, order⟩] }
  Vma.pnzero (← Vma.pgdToVpa pgd) (1 <<< order)

def allocatePhys (order : Nat) : Exec System (Option Nat) := do
  match ← onPgalloc (allocPagesBy installed order) with
  | none => pure none
  | some pgd => do
      onVma (keepPages pgd order)
      pure (some pgd)

/-- What `insert_mapping` makes of an entry that had no table. -/
def linkTable (entry pgd : Nat) : Exec Vma.State Unit := do
  Vma.modifyEntry entry (Vma.setBaseAddress (Vma.pgdToPa pgd))
  Vma.modifyEntry entry (Vma.setFlag .present true)
  Vma.modifyEntry entry (Vma.setFlag .writable true)
  Vma.modifyEntry entry (Vma.setFlag .allowUser true)

/-- The table that an entry points to. -/
def tableOf (entry : Nat) : Exec Vma.State Nat := do
  Vma.paToVpa (Vma.baseAddress (← Vma.load entry))

def insertTable (entry : Nat) : Exec System Nat := do
  if Vma.baseAddress (← onVma (Vma.load entry)) = 0 then
    match ← allocatePhys installed 0 with
    | none => throw .assertion
    | some pgd => onVma (linkTable entry pgd)
  onVma (tableOf entry)

def insertMapping (va pa mappingFlags : BitVec 64) : Exec System Unit := do
  let (pml4Idx, pdpIdx, pdIdx, ptIdx) := Vma.vaTableIndicies va
  let root ← onVma do pure (← get).pgtVirtBase
  let pdpTable ← insertTable installed (root + 8 * pml4Idx)
  let pdTable ← insertTable installed (pdpTable + 8 * pdpIdx)
  let ptTable ← insertTable installed (pdTable + 8 * pdIdx)
  onVma (Vma.insertEntry (ptTable + 8 * ptIdx) pa mappingFlags)

def mapPages : Nat → BitVec 64 → BitVec 64 → Exec System Unit
  | 0, _, _ => pure ()
  | n + 1, vbase, pbase => do
      insertMapping installed vbase pbase
        (Vma.mappingPresent ||| Vma.mappingUser ||| Vma.mappingWritable)
      mapPages n (vbase + 0x1000) (pbase + 0x1000)

/-- `nrPages` is an `int`. -/
def allocateVirt (va : BitVec 64) (nrPages : Int) : Exec System Bool := do
  if nrPages = 0 then pure false
  else
    let order := Vma.log2ceil (toUInt64 nrPages)
    match ← allocatePhys installed order with
    | none => pure false
    | some pgd => do
        mapPages installed (1 <<< order) va (Vma.pgdToPa pgd)
        pure true

end Operations

/-! ### The list of page frames -/

/-- The program neither looks at the frames that are left nor changes them. -/
def FramesUnread {α : Type} (y : Exec Vma.State α) : Prop :=
  ∀ s a s' fs, y.run s = .ok (a, s') →
    y.run { s with frames := fs } = .ok (a, { s' with frames := fs })

namespace FramesUnread
variable {α β : Type} {y : Exec Vma.State α} {g : α → Exec Vma.State β}

theorem bind (hy : FramesUnread y) (hg : ∀ a, FramesUnread (g a)) : FramesUnread (y >>= g) := by
  intro s b s'' fs run
  obtain ⟨a, s', run₁, run₂⟩ := of_bind_ok run
  rw [bind_ok (hy s a s' fs run₁)]
  exact hg a s' b s'' fs run₂

theorem ret (a : α) : FramesUnread (pure a) := by
  intro s b s' fs run
  cases run
  rfl

theorem read (f : Vma.State → α) (same : ∀ s fs, f { s with frames := fs } = f s) :
    FramesUnread (do pure (f (← get))) := by
  intro s a s' fs run
  cases run
  rw [bind_ok (run_get_eq _), same]
  rfl

theorem change (f : Vma.State → Vma.State)
    (same : ∀ s fs, f { s with frames := fs } = { f s with frames := fs }) :
    FramesUnread (modify f) := by
  intro s a s' fs run
  cases run
  rw [run_modify_eq, same]

theorem paToVpa (pa : BitVec 64) : FramesUnread (Vma.paToVpa pa) := by
  intro s a s' fs run
  unfold Vma.paToVpa at run ⊢
  obtain ⟨_, s₁, asserted, returned⟩ := of_bind_ok run
  by_cases inside : pa.toNat < Vma.pmemVaSize
  · have holds : decide (pa.toNat < Vma.pmemVaSize) = true := decide_eq_true inside
    rw [assertThat_run holds] at asserted
    cases asserted
    cases returned
    rw [bind_ok (assertThat_run holds)]
    rfl
  · rw [decide_eq_false inside] at asserted
    cases asserted

theorem load (addr : Nat) : FramesUnread (Vma.load addr) :=
  read (fun s => s.mem addr) fun _ _ => rfl

theorem modifyEntry (addr : Nat) (f : BitVec 64 → BitVec 64) :
    FramesUnread (Vma.modifyEntry addr f) := change _ fun _ _ => rfl

theorem pnzero (addr nrPages : Nat) : FramesUnread (Vma.pnzero addr nrPages) :=
  change _ fun _ _ => rfl

theorem keepPages (pgd order : Nat) : FramesUnread (keepPages pgd order) := by
  unfold System.keepPages
  refine (change _ fun _ _ => rfl).bind fun _ => ?_
  exact (paToVpa _).bind fun base => pnzero base _

theorem linkTable (entry pgd : Nat) : FramesUnread (linkTable entry pgd) := by
  unfold System.linkTable
  refine (modifyEntry _ _).bind fun _ => ?_
  refine (modifyEntry _ _).bind fun _ => ?_
  exact (modifyEntry _ _).bind fun _ => modifyEntry _ _

theorem tableOf (entry : Nat) : FramesUnread (tableOf entry) :=
  (load entry).bind fun _ => paToVpa _

theorem insertEntry (pt : Nat) (pa mappingFlags : BitVec 64) :
    FramesUnread (Vma.insertEntry pt pa mappingFlags) := by
  unfold Vma.insertEntry
  refine (modifyEntry _ _).bind fun _ => ?_
  split_ifs <;> repeat' refine bind ?_ fun _ => ?_
  all_goals first
    | exact modifyEntry _ _
    | exact ret _

end FramesUnread

/-- Every run of `x` that returns is a run of `y` for the frames that the page allocator
handed out in it. -/
def Follows {α : Type} (x : Exec System α) (y : Exec Vma.State α) : Prop :=
  ∀ s a s', x.run s = .ok (a, s') → ∃ handed, ∀ rest,
    y.run { s.vma with frames := handed ++ rest } = .ok (a, { s'.vma with frames := rest })

namespace Follows
variable {α β : Type} {x : Exec System α} {y : Exec Vma.State α} {f : α → Exec System β}
  {g : α → Exec Vma.State β}

theorem bind (hx : Follows x y) (hf : ∀ a, Follows (f a) (g a)) : Follows (x >>= f) (y >>= g) := by
  intro s b s'' run
  obtain ⟨a, s', run₁, run₂⟩ := of_bind_ok run
  obtain ⟨handed₁, first⟩ := hx s a s' run₁
  obtain ⟨handed₂, second⟩ := hf a s' b s'' run₂
  refine ⟨handed₁ ++ handed₂, ?_⟩
  intro rest
  rw [List.append_assoc, bind_ok (first (handed₂ ++ rest))]
  exact second rest

theorem ret (a : α) : Follows (pure a) (pure a) := by
  intro s b s' run
  cases run
  exact ⟨[], fun rest => rfl⟩

theorem onVma (unread : FramesUnread y) : Follows (onVma y) y := by
  intro s a s' run
  obtain ⟨t, run', rfl⟩ := of_zoom_ok run
  exact ⟨[], fun rest => unread s.vma a t rest run'⟩

theorem fault (e : Fault) : Follows (throw e) y := by
  intro s a s' run
  cases run

/-- With an algorithm installed, the front end hands out a frame or faults. -/
theorem allocPages (algorithm : PageAllocatorAlgorithm) {order : Nat} (small : order < 32) :
    Follows (onPgalloc (allocPagesBy (some algorithm) order)) (Vma.allocPages order) := by
  intro s a s' run
  unfold onPgalloc at run
  obtain ⟨t, run', rfl⟩ := of_zoom_ok run
  cases a with
  | none => exact absurd run' (allocPagesBy_ne_null small)
  | some pgd => exact ⟨[pgd], fun rest => rfl⟩

end Follows

section Refinement
variable (algorithm : PageAllocatorAlgorithm)

omit algorithm in
theorem vma_allocatePhys_eq (order : Nat) :
    Vma.allocatePhys order = (do
      match ← Vma.allocPages order with
      | none => pure none
      | some pgd => do
          keepPages pgd order
          pure (some pgd)) := by
  unfold Vma.allocatePhys
  apply bind_congr
  intro answer
  cases answer with
  | none => rfl
  | some pgd =>
      unfold keepPages
      simp only [bind_assoc]

omit algorithm in
theorem vma_insertTable_eq (entry : Nat) :
    Vma.insertTable entry = (do
      if Vma.baseAddress (← Vma.load entry) = 0 then
        match ← Vma.allocatePhys 0 with
        | none => throw .assertion
        | some pgd => linkTable entry pgd
      tableOf entry) := rfl

theorem allocatePhys_follows {order : Nat} (small : order < 32) :
    Follows (allocatePhys (some algorithm) order) (Vma.allocatePhys order) := by
  rw [vma_allocatePhys_eq]
  unfold allocatePhys
  refine (Follows.allocPages algorithm small).bind fun answer => ?_
  cases answer with
  | none => exact .ret none
  | some pgd =>
      have kept := Follows.onVma (FramesUnread.keepPages pgd order)
      exact kept.bind fun _ => .ret (some pgd)

theorem insertTable_follows (entry : Nat) :
    Follows (insertTable (some algorithm) entry) (Vma.insertTable entry) := by
  rw [vma_insertTable_eq]
  unfold insertTable
  have table := Follows.onVma (FramesUnread.tableOf entry)
  refine (Follows.onVma (FramesUnread.load entry)).bind fun word => ?_
  split_ifs
  · refine (allocatePhys_follows algorithm (by decide)).bind fun answer => ?_
    cases answer with
    | none => exact (Follows.fault .assertion).bind fun _ => table
    | some pgd => exact (Follows.onVma (FramesUnread.linkTable entry pgd)).bind fun _ => table
  · exact table

omit algorithm in
theorem vma_insertMapping_eq (va pa mappingFlags : BitVec 64) :
    Vma.insertMapping va pa mappingFlags = (do
      let root ← (do pure (← get).pgtVirtBase : Exec Vma.State Nat)
      let pdpTable ← Vma.insertTable (root + 8 * (Vma.vaTableIndicies va).1)
      let pdTable ← Vma.insertTable (pdpTable + 8 * (Vma.vaTableIndicies va).2.1)
      let ptTable ← Vma.insertTable (pdTable + 8 * (Vma.vaTableIndicies va).2.2.1)
      Vma.insertEntry (ptTable + 8 * (Vma.vaTableIndicies va).2.2.2) pa mappingFlags) := by
  rw [bind_assoc]
  rfl

theorem insertMapping_follows (va pa mappingFlags : BitVec 64) :
    Follows (insertMapping (some algorithm) va pa mappingFlags)
      (Vma.insertMapping va pa mappingFlags) := by
  rw [vma_insertMapping_eq]
  have root := FramesUnread.read (fun s => s.pgtVirtBase) fun _ _ => rfl
  refine (Follows.onVma root).bind fun root => ?_
  refine (insertTable_follows algorithm _).bind fun pdpTable => ?_
  refine (insertTable_follows algorithm _).bind fun pdTable => ?_
  refine (insertTable_follows algorithm _).bind fun ptTable => ?_
  exact .onVma (.insertEntry _ pa mappingFlags)

theorem mapPages_follows (n : Nat) (vbase pbase : BitVec 64) :
    Follows (mapPages (some algorithm) n vbase pbase) (Vma.mapPages n vbase pbase) := by
  induction n generalizing vbase pbase with
  | zero => exact .ret ()
  | succ n ih => exact (insertMapping_follows algorithm _ _ _).bind fun _ => ih _ _

/-- An `int` number of pages has an order that `1u << order` can shift by. -/
theorem log2ceil_lt {nrPages : Int} (positive : 0 < nrPages) (int : nrPages < 2 ^ 31) :
    Vma.log2ceil (toUInt64 nrPages) < 32 := by
  have ne : toUInt64 nrPages ≠ 0 := by
    unfold toUInt64
    omega
  have lt : toUInt64 nrPages < 2 ^ 31 := by
    unfold toUInt64
    omega
  have log := (Nat.log2_lt ne).mpr lt
  unfold Vma.log2ceil
  rw [if_neg ne]
  split_ifs <;> omega

/-- What `allocate_virt` does over the page allocator, where it returns at all, is what the
model of the area alone does with the frames handed out. -/
theorem allocateVirt_follows (va : BitVec 64) {nrPages : Int} (positive : 0 < nrPages)
    (int : nrPages < 2 ^ 31) :
    Follows (allocateVirt (some algorithm) va nrPages) (Vma.allocateVirt va nrPages) := by
  unfold allocateVirt Vma.allocateVirt
  rw [if_neg positive.ne', if_neg positive.ne']
  refine (allocatePhys_follows algorithm (log2ceil_lt positive int)).bind fun answer => ?_
  cases answer with
  | none => exact .ret false
  | some pgd => exact (mapPages_follows algorithm _ _ _).bind fun _ => .ret true

end Refinement

/-! ### Failure -/

/-- What the NULL checks of the callers are for: where the algorithm has no block of order
`k`, the front end returns NULL and does nothing else, and every caller reports a failure. -/
structure FailsCleanly (algorithm : PageAllocatorAlgorithm) (k : Nat) (s : System) : Prop where
  allocPages : ∃ s', (algorithm.allocPages k).run s.pgalloc = .ok (none, s') ∧
    (allocPagesBy (some algorithm) k).run s.pgalloc = .ok (none, s')
  allocZeroPage : k = 0 → ∃ s', (allocZeroPage (some algorithm)).run s = .ok (none, s')
  allocatePhys : ∃ s', (allocatePhys (some algorithm) k).run s = .ok (none, s')
  allocateVirt : ∀ va nrPages, nrPages ≠ 0 → Vma.log2ceil (toUInt64 nrPages) = k →
    ∃ s', (allocateVirt (some algorithm) va nrPages).run s = .ok (false, s')

section Failure
variable {algorithm : PageAllocatorAlgorithm} {k : Nat} {s : System}

theorem allocatePhys_null (null : (allocPagesBy (some algorithm) k).run s.pgalloc =
    .error .nullDeref) : (allocatePhys (some algorithm) k).run s = .error .nullDeref :=
  bind_error (zoom_error null)

/-- No caller reaches its NULL check: the front end has read through the NULL pointer. -/
theorem alloc_failure_faults (algorithm : PageAllocatorAlgorithm) (k : Nat) (small : k < 32)
    (s : System) (failed : ∃ s', (algorithm.allocPages k).run s.pgalloc = .ok (none, s')) :
    ¬ FailsCleanly algorithm k s ∧
    (allocPagesBy (some algorithm) k).run s.pgalloc = .error .nullDeref ∧
    (k = 0 → (allocZeroPage (some algorithm)).run s = .error .nullDeref) ∧
    (allocatePhys (some algorithm) k).run s = .error .nullDeref ∧
    ∀ va nrPages, nrPages ≠ 0 → Vma.log2ceil (toUInt64 nrPages) = k →
      (allocateVirt (some algorithm) va nrPages).run s = .error .nullDeref := by
  obtain ⟨s', failed⟩ := failed
  have null := allocPagesBy_null small failed
  have phys := allocatePhys_null null
  refine ⟨?_, null, ?_, phys, ?_⟩
  · intro clean
    obtain ⟨_, _, returned⟩ := clean.allocPages
    rw [null] at returned
    cases returned
  · intro zero
    subst zero
    exact bind_error (zoom_error null)
  · intro va nrPages some order
    unfold allocateVirt
    rw [if_neg some, order]
    exact bind_error phys

/-- Four pages, all allocated, and no mapping. -/
def exhausted : System where
  pgalloc := ⟨Buddy.State.fresh 4, fun _ => .allocated⟩
  vma := ⟨fun _ => 0, [], [], 0, 0⟩

theorem alloc_failure_faults_exhausted :
    (¬ FailsCleanly (buddyPageAllocator 40) 0 exhausted ∧
      (allocateVirt (some (buddyPageAllocator 40)) 0x400000 1).run exhausted =
        .error .nullDeref) ∧
    ¬ FailsCleanly simplePageAllocator 0 exhausted ∧
      (allocateVirt (some simplePageAllocator) 0x400000 1).run exhausted = .error .nullDeref := by
  obtain ⟨unclean, -, -, -, virt⟩ := alloc_failure_faults (buddyPageAllocator 40) 0 (by decide)
    exhausted ⟨exhausted.pgalloc, rfl⟩
  obtain ⟨unclean', -, -, -, virt'⟩ := alloc_failure_faults simplePageAllocator 0 (by decide)
    exhausted ⟨exhausted.pgalloc, rfl⟩
  exact ⟨⟨unclean, virt _ 1 (by decide) (by decide)⟩, unclean', virt' _ 1 (by decide) (by decide)⟩

/-- With either algorithm a page is asked for, there is none, and NULL is not what comes back. -/
theorem failure_unclean :
    ((buddyPageAllocator 40).allocPages 0).run exhausted.pgalloc = .ok (none, exhausted.pgalloc) ∧
    ¬ FailsCleanly (buddyPageAllocator 40) 0 exhausted ∧
    (simplePageAllocator.allocPages 0).run exhausted.pgalloc = .ok (none, exhausted.pgalloc) ∧
    ¬ FailsCleanly simplePageAllocator 0 exhausted := by
  refine ⟨rfl, ?_, rfl, ?_⟩
  · rintro ⟨⟨s', _, returned⟩, _, _, _⟩
    exact allocPagesBy_ne_null (by decide) returned
  · rintro ⟨⟨s', _, returned⟩, _, _, _⟩
    exact allocPagesBy_ne_null (by decide) returned

end Failure
end System
end Infos.Mm
