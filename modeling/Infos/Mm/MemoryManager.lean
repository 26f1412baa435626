import Mathlib.Algebra.Group.Int.Defs
import Mathlib.Algebra.Group.Nat.Defs
import Mathlib.Tactic.SplitIfs

/-!
# Physical memory blocks

What the boot code tells the memory manager before the page allocator starts.
-/
namespace Infos.Mm

inductive MemoryType where
  | normal
  | unusable
  deriving DecidableEq, Repr

structure PhysicalMemoryBlock where
  baseAddress : Nat
  basePfn : Nat
  nrPages : Nat
  type : MemoryType
  deriving DecidableEq, Repr

/-- `lastPfn` and the used part of `_phys_mem_blocks`. -/
structure MemoryManager where
  lastPfn : Nat
  physMemBlocks : List PhysicalMemoryBlock
  deriving DecidableEq, Repr

def MemoryManager.initial : MemoryManager := ⟨0, []⟩

/-- The byte size of a block: a product of two `unsigned int`. -/
def blockSize (nrPages : Nat) : Nat := nrPages * 0x1000 % 2 ^ 32

/-- `addr` is a 64-bit and `nrPages` a 32-bit unsigned value. -/
def MemoryManager.addPhysicalMemory (mm : MemoryManager) (addr nrPages : Nat)
    (type : MemoryType) : MemoryManager :=
  if nrPages = 0 then mm
  else if mm.physMemBlocks.length ≥ 16 then mm
  else
    let blocks := mm.physMemBlocks ++ [⟨addr, addr >>> 12, nrPages, type⟩]
    -- a sum that wraps to zero makes the last page number wrap too
    let lastPfn := (((addr + blockSize nrPages) % 2 ^ 64) >>> 12 + (2 ^ 64 - 1)) % 2 ^ 64
    if type = .normal ∧ lastPfn > mm.lastPfn then ⟨lastPfn, blocks⟩
    else { mm with physMemBlocks := blocks }

def MemoryManager.lookupPhysBlock (mm : MemoryManager) (addr : Nat) :
    Option PhysicalMemoryBlock :=
  mm.physMemBlocks.find? fun block =>
    addr ≥ block.baseAddress && addr < (block.baseAddress + blockSize block.nrPages) % 2 ^ 64

/-- The arguments of one `add_physical_memory` call. -/
structure AddedMemory where
  addr : Nat
  nrPages : Nat
  type : MemoryType

/-- The memory manager after the boot code has reported all blocks. -/
def MemoryManager.ofBlocks (added : List AddedMemory) : MemoryManager :=
  added.foldl (fun mm a => mm.addPhysicalMemory a.addr a.nrPages a.type) .initial

/-- The page numbers that `add_physical_memory` computes are those of 64-bit addresses. -/
theorem lastPfn_ofBlocks (added : List AddedMemory) :
    (MemoryManager.ofBlocks added).lastPfn < 2 ^ 52 ∨
      (MemoryManager.ofBlocks added).lastPfn = 2 ^ 64 - 1 := by
  have step : ∀ (mm : MemoryManager) (a : AddedMemory),
      (mm.lastPfn < 2 ^ 52 ∨ mm.lastPfn = 2 ^ 64 - 1) →
      (mm.addPhysicalMemory a.addr a.nrPages a.type).lastPfn < 2 ^ 52 ∨
        (mm.addPhysicalMemory a.addr a.nrPages a.type).lastPfn = 2 ^ 64 - 1 := by
    intro mm a h
    unfold MemoryManager.addPhysicalMemory
    dsimp only
    split_ifs
    · exact h
    · exact h
    · dsimp only
      rw [Nat.shiftRight_eq_div_pow]
      omega
    · exact h
  have all : ∀ (added : List AddedMemory) (mm : MemoryManager),
      (mm.lastPfn < 2 ^ 52 ∨ mm.lastPfn = 2 ^ 64 - 1) →
      (added.foldl (fun mm a => mm.addPhysicalMemory a.addr a.nrPages a.type) mm).lastPfn < 2 ^ 52 ∨
        (added.foldl (fun mm a => mm.addPhysicalMemory a.addr a.nrPages a.type) mm).lastPfn =
          2 ^ 64 - 1 := by
    intro added
    induction added with
    | nil => exact fun mm h => h
    | cons a added ih => exact fun mm h => ih _ (step mm a h)
  exact all added .initial (.inl (by decide))

end Infos.Mm
