import Infos.Fs.Tarfs
import Infos.Lib.Calls

/-!
# TarFS on a device whose reads may fail

Every call of `read_blocks` is kept, with what it asks for. The device answers
each call as it likes; one that fails leaves the destination as it was.
-/
namespace Infos.Fs
open Infos.Lib Infos.Util Function

structure ReadCall where
  offset : Nat
  count : Nat
  deriving DecidableEq, Repr

/-- `succeeds n c` is the answer to `c` where `n` calls were made before. -/
structure Device where
  block : Nat → Block
  blockCount : Nat
  succeeds : Nat → ReadCall → Bool

abbrev DeviceExec (σ α : Type) := Calls ReadCall σ α

/-- Bytes in memory; `none` is an indeterminate one. -/
abbrev Memory := List (Option UInt8)

structure TarFS where
  tree : TarState
  rootNode : Option NodeId

namespace Device
variable {σ : Type}

/-- The bytes of `count` blocks from `offset` on. -/
def blocks (dev : Device) (offset count : Nat) : List UInt8 :=
  (List.range count).flatMap fun i => (dev.block (offset + i)).1

def readBlocks (dev : Device) (offset count : Nat) : DeviceExec σ Bool := do
  let n ← Calls.call ⟨offset, count⟩
  pure (dev.succeeds n ⟨offset, count⟩)

/-- One block, into storage of 512 bytes. -/
def readHeader (dev : Device) (offset : Nat) (buffer : Option Block) :
    DeviceExec σ (Option Block) := do
  let ok ← dev.readBlocks offset 1
  pure (if ok then some (dev.block offset) else buffer)

/-- Blocks into an array of bytes; blocks that it has no room for are stored outside it. -/
def readInto (dev : Device) (offset count : Nat) (buffer : Memory) : DeviceExec σ Memory := do
  let ok ← dev.readBlocks offset count
  if ok then
    if buffer.length < 512 * count then throw .outOfBounds
    else pure ((dev.blocks offset count).map some ++ buffer.drop (512 * count))
  else pure buffer

/-! ### Mounting and opening -/

/-- One block, into the local `head` of `build_tree`. -/
def readHead (spare : Nat) (dev : Device) (offset : Nat) (head : Option Block) :
    DeviceExec σ (Option Block) := do
  let ok ← dev.readBlocks offset 1
  if ok then
    if sizeofPosixHeader + spare < 512 then throw .outOfBounds else pure (some (dev.block offset))
  else pure head

/-- The loop of `build_tree`. -/
def readHeaders (spare : Nat) (dev : Device) (root : NodeId) :
    Nat → Int → Bool → Option Block → DeviceExec TarState Unit
  | 0, _, _, _ => throw .outOfFuel
  | fuel + 1, offset, zeroSeen, head =>
      if toUInt64 offset < dev.blockCount then do
        match ← dev.readHead spare (toUInt64 offset) head with
        | none => throw .uninitialised
        | some head =>
            if isZeroBlock head then
              if zeroSeen then pure ()
              else dev.readHeaders spare root fuel (toInt32 (offset + 1)) true (some head)
            else do
              let fileBlocks ← Calls.ofExec (enterHeader root head offset)
              dev.readHeaders spare root fuel (toInt32 (offset + (1 + fileBlocks))) false (some head)
      else pure ()

def buildTree (spare : Nat) (dev : Device) : DeviceExec TarState NodeId := do
  let root ← Calls.ofExec (newNode [])
  dev.readHeaders spare root (dev.blockCount + 1) 0 false none
  pure root

def newFile (dev : Device) (fileHeaderBlock : Nat) : DeviceExec σ TarFSFile := do
  let hdr ← dev.readHeader fileHeaderBlock none
  pure ⟨hdr, (fileHeaderBlock + 1) % 2 ^ 32, 0⟩

def openNode (dev : Device) (n : NodeId) : DeviceExec TarState (Option TarFSFile) := do
  let node := (← get).nodes n
  if node.hasBlockOffset then do
    let file ← dev.newFile node.blockOffset
    pure (some file)
  else pure none

def mount (spare : Nat) (dev : Device) : DeviceExec TarFS (Option NodeId) := do
  match (← get).rootNode with
  | some root => pure (some root)
  | none => do
      let root ← Calls.zoom TarFS.tree (fun fs tree => { fs with tree }) (dev.buildTree spare)
      modify fun fs => { fs with rootNode := some root }
      pure (some root)

end Device

/-! ### Reading a file -/

namespace TarFSFile

def size (f : TarFSFile) : Except Fault Nat :=
  match f.hdr with
  | none => .error .uninitialised
  | some hdr => headerSize hdr

/-- The new `size` where the read would go beyond the end of the file. -/
def clamp (fileSize size off : Nat) : Nat :=
  if fileSize < (off + size) % 2 ^ 64 then toUInt64 (size - (off + size - fileSize : Int)) else size

def blocksToRead (size off : Nat) : Int :=
  let span := (size + 1 + off % 512) % 2 ^ 64
  toInt32 (if span % 512 ≠ 0 then span / 512 + 1 else span / 512 : Nat)

/-- `new uint8_t[length]` -/
def newBytes (length : Int) : Memory := List.replicate length.toNat none

/-- `memcpy` of `size` bytes, from `start` on in `buffer`. -/
def copyOut (buffer : Memory) (start size : Nat) : Except Fault Memory :=
  if start + size ≤ buffer.length then .ok ((buffer.drop start).take size) else .error .outOfBounds

/-- The count that is returned and the bytes that are stored. -/
def pread {σ : Type} (f : TarFSFile) (dev : Device) (size off : Nat) :
    DeviceExec σ (Int × Memory) := do
  let fileSize ← Calls.ofExec (lift f.size)
  let size := clamp fileSize size off
  if fileSize ≤ off ∨ size = 0 then pure (0, [])
  else do
    let blocks := blocksToRead size off
    let blockBuffer := newBytes (toInt32 (512 * blocks))
    let blockBuffer ← dev.readInto (f.fileStartBlock + off / 512) (toUInt64 blocks) blockBuffer
    let bytes ← Calls.ofExec (lift (copyOut blockBuffer (off % 512) size))
    pure (toInt32 size, bytes)

end TarFSFile

/-- A device on which a call fails where one of its blocks cannot be read. -/
def BlockDevice.device (dev : BlockDevice) : Device where
  block b := (dev.readBlock b).getD ⟨List.replicate 512 0, zeros_length⟩
  blockCount := dev.blockCount
  succeeds _ c := decide (∀ i < c.count, (dev.readBlock (c.offset + i)).isSome)

/-! ### Calls -/

section Calls
variable {σ : Type} {dev : Device} {s : σ} {log : List ReadCall}

@[simp] theorem Device.readBlocks_run (offset count : Nat) :
    (dev.readBlocks offset count : DeviceExec σ Bool).runOn s log =
      (.ok (dev.succeeds log.length ⟨offset, count⟩, s), ⟨offset, count⟩ :: log) := by
  rw [readBlocks, Calls.runOn_bind_ok (Calls.runOn_call _ s log)]
  rfl

theorem Device.readHeader_run (offset : Nat) (buffer : Option Block) :
    (dev.readHeader offset buffer : DeviceExec σ (Option Block)).runOn s log =
      (.ok (if dev.succeeds log.length ⟨offset, 1⟩ then some (dev.block offset) else buffer, s),
        ⟨offset, 1⟩ :: log) := rfl

end Calls
end Infos.Fs
