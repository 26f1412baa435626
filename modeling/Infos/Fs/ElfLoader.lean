import Infos.Mm.VmaRuns

/-!
# The ELF loader

A new process is an address space and a main thread. `load` reads the headers,
places each loadable segment and sets up the user stack and the command line.
-/
namespace Infos.Fs.Elf
open Infos.Lib Infos.Mm.Vma

/-! ### The new process -/

structure Thread where
  isKernelThread : Bool
  entryPoint : BitVec 64
  kernelStack : Nat
  nativeContext : Nat
  currentEntryArgument : Nat
  deriving DecidableEq, Repr

def kernelStackOrder : Nat := 1

def kernelStackSize : Nat := (1 <<< kernelStackOrder) * 4096

/-- Offsets of fields of an `X86Context`. -/
def rspOffset : Nat := 160
def entryArgumentOffsets : List Nat := [80, 88, 96, 104]

/-- What `prepare_initial_stack` pushes: the system context, then the thread context. -/
def Thread.initialStack (t : Thread) : List (BitVec 64) :=
  [if t.isKernelThread then 0x10 else 0x23, 0, 0x202, if t.isKernelThread then 0x8 else 0x1b,
    t.entryPoint, 0] ++ List.replicate 16 0

def push (stack : Nat) : List (BitVec 64) → Exec State Nat
  | [] => pure stack
  | w :: ws => do
      modify fun s => s.setWord (stack - 8) w
      push (stack - 8) ws

def prepareInitialStack (t : Thread) : Exec State Thread := do
  let stack ← push t.kernelStack t.initialStack
  modify fun s => s.setWord (stack + rspOffset) (BitVec.ofNat 64 t.kernelStack)
  pure { t with nativeContext := stack }

def newThread (isKernelThread : Bool) (entryPoint : BitVec 64) : Exec State Thread := do
  match ← allocatePhys kernelStackOrder with
  | none => throw .assertion
  | some pgd => do
      let base ← pgdToVpa pgd
      prepareInitialStack ⟨isKernelThread, entryPoint, base + kernelStackSize, 0, 0⟩

/-- The main thread of a new process, whose address space becomes the state's. -/
def newProcess (template : Option (Nat → BitVec 64)) (kernelProcess : Bool)
    (entryPoint : BitVec 64) : Exec State Thread := do
  modify fun s => { s with pageAllocations := [] }
  create template
  newThread kernelProcess entryPoint

/-- `__align_up_page` -/
def alignUpPage (value : BitVec 64) : BitVec 64 :=
  value + if value % 4096 = 0 then 0 else 4096 - value % 4096

def allocateUserStack (t : Thread) (vaddr size : BitVec 64) : Exec State Unit := do
  let nrPages := toInt32 (alignUpPage size >>> 12).toNat
  let _ ← allocateVirt vaddr nrPages
  modify fun s => s.setWord (t.nativeContext + rspOffset) (vaddr + size)

def addEntryArgument (t : Thread) (arg : BitVec 64) : Exec State Thread := do
  match entryArgumentOffsets[t.currentEntryArgument]? with
  | none => pure t
  | some offset => do
      modify fun s => s.setWord (t.nativeContext + offset) arg
      pure { t with currentEntryArgument := t.currentEntryArgument + 1 }

/-! ### Files and headers -/

/-- A file: `read` at a position and `pread` take the caller's buffer, and give back the count
and what the buffer holds then. -/
structure File where
  read : Nat → List Byte → Int × List Byte
  pread : List Byte → BitVec 64 → Int × List Byte
  pread_length : ∀ buffer off, (pread buffer off).2.length = buffer.length

structure ELF64Header where
  magicNumber : BitVec 32
  eclass : BitVec 8
  data : BitVec 8
  type : BitVec 16
  machine : BitVec 16
  version : BitVec 32
  entryPoint : BitVec 64
  phoff : BitVec 64
  phentsize : BitVec 16
  phnum : BitVec 16
  deriving DecidableEq, Repr

structure ELF64ProgramHeaderEntry where
  type : BitVec 32
  offset : BitVec 64
  vaddr : BitVec 64
  filesz : BitVec 64
  memsz : BitVec 64
  deriving DecidableEq, Repr

/-- A packed little-endian field of `n` bytes. -/
def field (bytes : List Byte) (offset n : Nat) : BitVec (8 * n) :=
  BitVec.ofNat (8 * n) (leNat ((bytes.drop offset).take n))

def headerSize : Nat := 64

def ELF64Header.ofBytes (bytes : List Byte) : ELF64Header where
  magicNumber := field bytes 0 4
  eclass := field bytes 4 1
  data := field bytes 5 1
  type := field bytes 16 2
  machine := field bytes 18 2
  version := field bytes 20 4
  entryPoint := field bytes 24 8
  phoff := field bytes 32 8
  phentsize := field bytes 54 2
  phnum := field bytes 56 2

def entrySize : Nat := 56

def ELF64ProgramHeaderEntry.ofBytes (bytes : List Byte) : ELF64ProgramHeaderEntry where
  type := field bytes 0 4
  offset := field bytes 8 8
  vaddr := field bytes 16 8
  filesz := field bytes 32 8
  memsz := field bytes 40 8

def ELF64Header.valid (hdr : ELF64Header) : Bool :=
  hdr.magicNumber == 0x464c457f && hdr.eclass == 2 && hdr.data == 1 && hdr.type == 2 &&
    hdr.machine == 0x3e && hdr.version == 1

/-! ### Loading -/

section Load
variable (template : Option (Nat → BitVec 64)) (uninit : Nat → Byte) (file : File)

/-- A buffer before anything is written to it. -/
def newBuffer (n : Nat) : List Byte := (List.range n).map uninit

def readHeader : Int × ELF64Header :=
  let (bytes, buffer) := file.read 0 (newBuffer uninit headerSize)
  (bytes, .ofBytes buffer)

/-- `i` and `phentsize` are multiplied as `unsigned int`. -/
def readEntry (hdr : ELF64Header) (i : Nat) : Int × ELF64ProgramHeaderEntry :=
  let off := hdr.phoff + BitVec.ofNat 64 (i * hdr.phentsize.toNat % 2 ^ 32)
  let (bytes, buffer) := file.pread (newBuffer uninit entrySize) off
  (bytes, .ofBytes buffer)

/-- The pages asked for, as an `int`. -/
def ELF64ProgramHeaderEntry.nrPages (ent : ELF64ProgramHeaderEntry) : Int :=
  toInt32 (alignUpPage ent.memsz >>> 12).toNat

/-- A segment gets pages of its own unless its first address is mapped. -/
def placeSegment (ent : ELF64ProgramHeaderEntry) : Exec State Unit := do
  if !(← isMapped ent.vaddr) then
    let _ ← allocateVirt ent.vaddr ent.nrPages

def fillSegment (ent : ELF64ProgramHeaderEntry) : Exec State Unit := do
  let buffer := (file.pread (newBuffer uninit ent.filesz.toNat) ent.offset).2
  let _ ← copyTo ent.vaddr buffer

def loadSegment (ent : ELF64ProgramHeaderEntry) : Exec State Unit := do
  placeSegment ent
  fillSegment uninit file ent

/-- The loop over the program headers numbered `is`, and whether it read them all. -/
def loadEntries (hdr : ELF64Header) : List Nat → Exec State Bool
  | [] => pure true
  | i :: is => do
      let (bytes, ent) := readEntry uninit file hdr i
      if bytes ≠ entrySize then pure false
      else do
        if ent.type = 1 then loadSegment uninit file ent
        loadEntries hdr is

/-- The user stack and the command line. -/
def finishLoad (t : Thread) (cmdline : List Byte) : Exec State (Option Thread) := do
  allocateUserStack t 0x100000 0x2000
  if cmdline.length > 0 then
    let _ ← allocateVirt 0x102000 1
    if !(← copyTo 0x102000 cmdline) then pure none
    else pure (some (← addEntryArgument t 0x102000))
  else pure (some (← addEntryArgument t 0))

/-- The main thread of the process, or `none` for NULL. -/
def load (cmdline : List Byte) : Exec State (Option Thread) := do
  let (bytes, hdr) := readHeader uninit file
  if bytes ≠ headerSize then pure none
  else if !hdr.valid then pure none
  else do
    let t ← newProcess template false hdr.entryPoint
    if ← loadEntries uninit file hdr (List.range hdr.phnum.toNat) then finishLoad t cmdline
    else pure none

end Load
end Infos.Fs.Elf
