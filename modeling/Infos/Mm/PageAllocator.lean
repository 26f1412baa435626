import Infos.Lib.Triple
import Infos.Mm.Buddy
import Infos.Mm.MemoryManager

/-!
# The page allocator front end, over the buddy algorithm

A page descriptor has a link, which the algorithm owns, and a type tag, which
the front end owns. Accesses outside the descriptor array are faults.
-/
namespace Infos.Mm.PageAllocator
open Infos.Lib Function

inductive PageDescriptorType where
  | invalid
  | reserved
  | available
  | allocated
  deriving DecidableEq, Repr

/-- `algorithm` holds the free areas and the `next_free` fields, `types` the other field. -/
structure State where
  algorithm : Buddy.State
  types : Nat → PageDescriptorType

def State.nrPages (s : State) : Nat := s.algorithm.nrPages

/-- A call into the algorithm. -/
def algorithm {α : Type} (x : Exec Buddy.State α) : Exec State α :=
  zoom State.algorithm (fun s a => { s with algorithm := a }) x

def getType (pgd : Nat) : Exec State PageDescriptorType := do
  let s ← get
  if pgd < s.nrPages then pure (s.types pgd) else throw .outOfBounds

def setType (pgd : Nat) (type : PageDescriptorType) : Exec State Unit := do
  let s ← get
  if pgd < s.nrPages then set { s with types := update s.types pgd type } else throw .outOfBounds

/-- `for (pfn = start; pfn < start + count; pfn++) _page_descriptors[pfn].type = type;` -/
def setTypes (type : PageDescriptorType) : Nat → Nat → Exec State Unit
  | _, 0 => pure ()
  | pfn, count + 1 => do
      setType pfn type
      setTypes type (pfn + 1) count

/-- `nr_pages` is an `unsigned int`. -/
def markPageRange (type : PageDescriptorType) (start nrPages : Nat) : Exec State Unit :=
  setTypes type start (nrPages % 2 ^ 32)

/-- Where the linker put the kernel; the image has physical addresses, the rest virtual ones. -/
structure KernelLayout where
  imageStart : Nat
  imageEnd : Nat
  stackStart : Nat
  stackEnd : Nat
  heapStart : Nat

def kernelVmemStart : Nat := 0xFFFFFFFF80000000

def kernelVmemEnd : Nat := 0xFFFFFFFFFFFFFFFF

def kvaToPa (va : Nat) : Exec State Nat := do
  assertThat (va ≥ kernelVmemStart && va ≤ kernelVmemEnd)
  pure (va - kernelVmemStart)

def paToPfn (pa : Nat) : Nat := pa >>> 12

/-- `last - first + 1` on 64-bit page numbers. -/
def pfnCount (first last : Nat) : Nat := (last + (2 ^ 64 - first) + 1) % 2 ^ 64

def sizeofPageDescriptor : Nat := 16

def nrPagesOf (owner : MemoryManager) : Nat := (owner.lastPfn + 1) % 2 ^ 64

def setupPageDescriptors (owner : MemoryManager) (layout : KernelLayout) : Exec State Bool := do
  match owner.lookupPhysBlock (← kvaToPa layout.heapStart) with
  | none => pure false
  | some _ => do
      set (⟨Buddy.State.fresh (nrPagesOf owner), fun _ => .invalid⟩ : State)
      pure true

/-- The loop over the physical memory blocks. -/
def markNormal : List PhysicalMemoryBlock → Exec State Unit
  | [] => pure ()
  | pmb :: rest => do
      if pmb.type = .normal then setTypes .available pmb.basePfn pmb.nrPages
      markNormal rest

/-- The part of `init` that fills in the type tags. -/
def markAll (owner : MemoryManager) (layout : KernelLayout) : Exec State Unit := do
  markNormal owner.physMemBlocks
  markPageRange .reserved 0 1
  markPageRange .allocated 1 6
  let imageStartPfn := paToPfn layout.imageStart
  let imageLastPfn := paToPfn layout.imageEnd
  markPageRange .reserved imageStartPfn (pfnCount imageStartPfn imageLastPfn)
  let stackStartPfn := paToPfn (← kvaToPa layout.stackStart)
  let stackLastPfn := paToPfn (← kvaToPa layout.stackEnd)
  markPageRange .reserved stackStartPfn (pfnCount stackStartPfn stackLastPfn)
  let heapStartPfn := paToPfn (← kvaToPa layout.heapStart)
  markPageRange .reserved heapStartPfn (((← get).nrPages * sizeofPageDescriptor) >>> 12 + 1)

/-- `free_pages` of the algorithm on a pointer that was not checked. -/
def freeUnchecked (fuel : Nat) (pgd : Option Nat) (order : Nat) : Exec Buddy.State Unit :=
  match pgd with
  | none => throw .nullDeref
  | some p => Buddy.freePages fuel p order

/-- `reserve_page` of the algorithm; NULL is in no list. -/
def reserveUnchecked (fuel : Nat) (pgd : Option Nat) : Exec Buddy.State Bool :=
  match pgd with
  | none => pure false
  | some p => Buddy.reservePage fuel p

def selfTest (fuel : Nat) : Exec Buddy.State Bool := do
  -- (1), (2)
  let p ← Buddy.allocPages fuel 0
  if p = none then pure false
  else do
    freeUnchecked fuel p 0
    -- (3), (4)
    let p ← Buddy.allocPages fuel 1
    freeUnchecked fuel p 1
    -- (5)
    let p0 ← Buddy.allocPages fuel 0
    let p1 ← Buddy.allocPages fuel 1
    freeUnchecked fuel p0 0
    let p2 ← Buddy.allocPages fuel 0
    freeUnchecked fuel p1 1
    freeUnchecked fuel p2 0
    -- (6)
    let p00 ← Buddy.allocPages fuel 0
    let p01 ← Buddy.allocPages fuel 0
    let p02 ← Buddy.allocPages fuel 0
    let p03 ← Buddy.allocPages fuel 2
    let p04 ← Buddy.allocPages fuel 0
    let p05 ← Buddy.allocPages fuel 0
    let p06 ← Buddy.allocPages fuel 0
    let p07 ← Buddy.allocPages fuel 0
    freeUnchecked fuel p05 0
    freeUnchecked fuel p03 2
    freeUnchecked fuel p06 0
    freeUnchecked fuel p07 0
    freeUnchecked fuel p02 0
    freeUnchecked fuel p01 0
    freeUnchecked fuel p00 0
    freeUnchecked fuel p04 0
    -- (7)
    let nr := (← get).nrPages
    assertThat (← reserveUnchecked fuel (Buddy.pfnToPgd nr 0x14e))
    assertThat (← reserveUnchecked fuel (Buddy.pfnToPgd nr 0x14f))
    -- (8), (9)
    freeUnchecked fuel (Buddy.pfnToPgd nr 0x14f) 0
    freeUnchecked fuel (Buddy.pfnToPgd nr 0x14e) 0
    pure true

/-- The loop that reserves every page that is not available, from `pgd` on. -/
def reserveMarked (fuel : Nat) : Nat → Nat → Exec State Bool
  | _, 0 => pure true
  | pgd, count + 1 => do
      if (← getType pgd) ≠ .available then
        if ← algorithm (Buddy.reservePage fuel pgd) then reserveMarked fuel (pgd + 1) count
        else pure false
      else reserveMarked fuel (pgd + 1) count

/-- The part of `init` that sets the algorithm up. -/
def initAlgorithm (fuel : Nat) (doSelfTest : Bool) : Exec State Bool := do
  let nr := (← get).nrPages
  if ← algorithm (Buddy.init fuel nr) then
    if doSelfTest then
      if ← algorithm (selfTest fuel) then reserveMarked fuel 0 nr else throw .aborted
    else reserveMarked fuel 0 nr
  else pure false

def init (fuel : Nat) (owner : MemoryManager) (layout : KernelLayout) (doSelfTest : Bool) :
    Exec State Bool := do
  if ← setupPageDescriptors owner layout then
    markAll owner layout
    initAlgorithm fuel doSelfTest
  else pure false

/-- `for (i = 0; i < (1u << order); i++)`: check the type tag of each page and change it. -/
def retype (old new : PageDescriptorType) : Nat → Nat → Exec State Unit
  | _, 0 => pure ()
  | pgd, count + 1 => do
      assertThat ((← getType pgd) == old)
      setType pgd new
      retype old new (pgd + 1) count

/-- An order of 32 or more would shift out of an `unsigned int`. -/
def allocPages (fuel order : Nat) : Exec State (Option Nat) := do
  match ← algorithm (Buddy.allocPages fuel order) with
  | none => throw .nullDeref
  | some pgd => do
      retype .available .allocated pgd (1 <<< order)
      pure (some pgd)

def freePages (fuel pgd order : Nat) : Exec State Unit := do
  algorithm (Buddy.freePages fuel pgd order)
  retype .allocated .available pgd (1 <<< order)

end Infos.Mm.PageAllocator
