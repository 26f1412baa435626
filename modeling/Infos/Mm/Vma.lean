import Infos.Lib.Bytes
import Infos.Lib.Exec
import Infos.Lib.Words
import Mathlib.Data.Nat.Log

/-!
# Virtual memory areas

Page tables are words of memory, read and written through the direct map of
physical memory. The page allocator is its list of answers: the page frames it
will hand out, in order, and NULL once the list is used up.
-/
namespace Infos.Mm.Vma
open Infos.Lib Function

/-- The entries of `_page_allocations`. -/
structure PageAllocation where
  descriptorBase : Nat
  allocationOrder : Nat
  deriving DecidableEq, Repr

/-- `mem` is memory by the 64-bit word, at virtual addresses of the direct map. -/
structure State where
  mem : Nat → BitVec 64
  frames : List Nat
  pageAllocations : List PageAllocation
  pgtPhysBase : BitVec 64
  pgtVirtBase : Nat

def pmemVaStart : Nat := 0xFFFF800000000000

def pmemVaSize : Nat := 0x100000000

def paToVpa (pa : BitVec 64) : Exec State Nat := do
  assertThat (pa.toNat < pmemVaSize)
  pure (pmemVaStart + pa.toNat)

def pgdToPa (pgd : Nat) : BitVec 64 := BitVec.ofNat 64 pgd <<< 12

def pgdToVpa (pgd : Nat) : Exec State Nat := paToVpa (pgdToPa pgd)

def load (addr : Nat) : Exec State (BitVec 64) := do pure ((← get).mem addr)

def State.setWord (s : State) (addr : Nat) (w : BitVec 64) : State :=
  { s with mem := update s.mem addr w }

/-- A change of one word in place. -/
def modifyEntry (addr : Nat) (f : BitVec 64 → BitVec 64) : Exec State Unit :=
  modify fun s => s.setWord addr (f (s.mem addr))

def pnzero (addr nrPages : Nat) : Exec State Unit :=
  modify fun s => { s with
    mem := fun a => if addr ≤ a ∧ a < addr + 4096 * nrPages then 0 else s.mem a }

def allocPages (_order : Nat) : Exec State (Option Nat) := do
  let s ← get
  match s.frames with
  | [] => pure none
  | pgd :: rest => do
      set { s with frames := rest }
      pure (some pgd)

def allocatePhys (order : Nat) : Exec State (Option Nat) := do
  match ← allocPages order with
  | none => pure none
  | some pgd => do
      modify fun s => { s with pageAllocations := s.pageAllocations ++ [⟨pgd, order⟩] }
      pnzero (← pgdToVpa pgd) (1 <<< order)
      pure (some pgd)

/-! ### Table entries -/

/-- `BITS(val, start, end)` -/
def bits (val : BitVec 64) (start stop : Nat) : BitVec 64 :=
  (val >>> start) &&& (BitVec.ofNat 64 (1 <<< (stop - start + 1)) - 1)

/-- The four table indices of an address, each cut to a `table_idx_t`. -/
def vaTableIndicies (va : BitVec 64) : Nat × Nat × Nat × Nat :=
  (((bits va 39 47).setWidth 16).toNat, ((bits va 30 38).setWidth 16).toNat,
    ((bits va 21 29).setWidth 16).toNat, ((bits va 12 20).setWidth 16).toNat)

inductive MMUTableEntryFlags where
  | present
  | writable
  | allowUser
  | writeThrough
  | cacheDisabled
  | accessed
  | dirty
  | huge
  | global
  deriving DecidableEq, Repr

def MMUTableEntryFlags.idx : MMUTableEntryFlags → Nat
  | .present => 0
  | .writable => 1
  | .allowUser => 2
  | .writeThrough => 3
  | .cacheDisabled => 4
  | .accessed => 5
  | .dirty => 6
  | .huge => 7
  | .global => 8

def baseAddress (entry : BitVec 64) : BitVec 64 := entry &&& ~~~0xfff#64

def setBaseAddress (addr entry : BitVec 64) : BitVec 64 :=
  (entry &&& 0xfff#64) ||| (addr &&& ~~~0xfff#64)

def flags (entry : BitVec 64) : BitVec 16 := (entry &&& 0xfff#64).setWidth 16

def setFlags (f : BitVec 16) (entry : BitVec 64) : BitVec 64 :=
  (entry &&& ~~~0xfff#64) ||| (f &&& 0xfff#16).setWidth 64

def getFlag (entry : BitVec 64) (flag : MMUTableEntryFlags) : Bool :=
  flags entry &&& (1#16 <<< flag.idx) != 0

def setFlag (flag : MMUTableEntryFlags) (v : Bool) (entry : BitVec 64) : BitVec 64 :=
  if !v then setFlags (flags entry &&& ~~~(1#16 <<< flag.idx)) entry
  else setFlags (flags entry ||| (1#16 <<< flag.idx)) entry

/-- `MappingFlags`, as bits of an enumeration value. -/
def mappingPresent : BitVec 64 := 1
def mappingUser : BitVec 64 := 2
def mappingWritable : BitVec 64 := 4

/-! ### The operations -/

/-- The constructor: an empty top-level table. -/
def construct : Exec State Unit := do
  match ← allocatePhys 0 with
  | none => throw .assertion
  | some pgd => do
      let base ← pgdToVpa pgd
      modify fun s => { s with pgtPhysBase := pgdToPa pgd, pgtVirtBase := base }

/-- `template` is `__template_pml4`, NULL when it is `none`. -/
def installDefaultKernelMapping (template : Option (Nat → BitVec 64)) : Exec State Unit := do
  match template with
  | none => throw .assertion
  | some pml4 => do
      let pgt := (← get).pgtVirtBase
      modifyEntry (pgt + 8 * 0x1ff) fun _ => pml4 0x1ff
      modifyEntry (pgt + 8 * 0x100) fun _ => pml4 0x100

/-- One of the three steps down of `insert_mapping`: the table under an entry, made if the
entry has none. -/
def insertTable (entry : Nat) : Exec State Nat := do
  if baseAddress (← load entry) = 0 then
    match ← allocatePhys 0 with
    | none => throw .assertion
    | some pgd => do
        modifyEntry entry (setBaseAddress (pgdToPa pgd))
        modifyEntry entry (setFlag .present true)
        modifyEntry entry (setFlag .writable true)
        modifyEntry entry (setFlag .allowUser true)
  paToVpa (baseAddress (← load entry))

/-- The end of `insert_mapping`: fill in the page table entry. -/
def insertEntry (pt : Nat) (pa mappingFlags : BitVec 64) : Exec State Unit := do
  modifyEntry pt (setBaseAddress pa)
  if mappingFlags &&& mappingPresent ≠ 0 then modifyEntry pt (setFlag .present true)
  if mappingFlags &&& mappingWritable ≠ 0 then modifyEntry pt (setFlag .writable true)
  if mappingFlags &&& mappingUser ≠ 0 then modifyEntry pt (setFlag .allowUser true)

def insertMapping (va pa mappingFlags : BitVec 64) : Exec State Unit := do
  let (pml4Idx, pdpIdx, pdIdx, ptIdx) := vaTableIndicies va
  let pdpTable ← insertTable ((← get).pgtVirtBase + 8 * pml4Idx)
  let pdTable ← insertTable (pdpTable + 8 * pdpIdx)
  let ptTable ← insertTable (pdTable + 8 * pdIdx)
  insertEntry (ptTable + 8 * ptIdx) pa mappingFlags

/-- One of the three steps down of `get_mapping`. -/
def lookupTable (entry : Nat) : Exec State (Option Nat) := do
  if getFlag (← load entry) .present then
    pure (some (← paToVpa (baseAddress (← load entry))))
  else pure none

/-- The physical address of `va`, or `none` where the source returns false. -/
def getMapping (va : BitVec 64) : Exec State (Option (BitVec 64)) := do
  let root := (← get).pgtVirtBase
  if root = 0 then pure none
  else
    let (pml4Idx, pdpIdx, pdIdx, ptIdx) := vaTableIndicies va
    match ← lookupTable (root + 8 * pml4Idx) with
    | none => pure none
    | some pdpTable =>
      match ← lookupTable (pdpTable + 8 * pdpIdx) with
      | none => pure none
      | some pdTable =>
        match ← lookupTable (pdTable + 8 * pdIdx) with
        | none => pure none
        | some ptTable => do
            let entry ← load (ptTable + 8 * ptIdx)
            if getFlag entry .present then pure (some (baseAddress entry ||| (va &&& 0xfff#64)))
            else pure none

/-- The loop of `allocate_virt`. -/
def mapPages : Nat → BitVec 64 → BitVec 64 → Exec State Unit
  | 0, _, _ => pure ()
  | n + 1, vbase, pbase => do
      insertMapping vbase pbase (mappingPresent ||| mappingUser ||| mappingWritable)
      mapPages n (vbase + 0x1000) (pbase + 0x1000)

/-- `__log2ceil` -/
def log2ceil (x : Nat) : Nat :=
  if x = 0 then 0 else Nat.log2 x + if x &&& (x - 1) ≠ 0 then 1 else 0

/-- `nrPages` is an `int`. -/
def allocateVirt (va : BitVec 64) (nrPages : Int) : Exec State Bool := do
  if nrPages = 0 then pure false
  else
    let order := log2ceil (toUInt64 nrPages)
    match ← allocatePhys order with
    | none => pure false
    | some pgd => do
        mapPages (1 <<< order) va (pgdToPa pgd)
        pure true

def isMapped (va : BitVec 64) : Exec State Bool := do
  pure (← getMapping va).isSome

def memcpy (dest : Nat) (src : List Byte) : Exec State Unit :=
  modify fun s => { s with mem := writeBytes s.mem dest src }

def copyTo (destVa : BitVec 64) (src : List Byte) : Exec State Bool := do
  match ← getMapping destVa with
  | none => pure false
  | some pa => do
      memcpy (← paToVpa pa) src
      pure true

end Infos.Mm.Vma
