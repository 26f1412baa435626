import Infos.Lib.Words
import Infos.Util.Map
import Infos.Util.String

/-!
# The TAR file system

`build_tree` reads the headers of an archive and builds its tree in memory.
Blocks are 512 bytes; a node pointer is its number in the heap.
-/
namespace Infos.Fs
open Infos.Lib Infos.Util Function

abbrev Block := { bytes : List UInt8 // bytes.length = 512 }

theorem zeros_length : (List.replicate 512 (0 : UInt8)).length = 512 := List.length_replicate

/-- A device with blocks of 512 bytes; a read may fail. Every byte has a 64-bit address. -/
structure BlockDevice where
  readBlock : Nat → Option Block
  blockCount : Nat
  addressable : blockCount * 512 ≤ 2 ^ 64

abbrev NodeId := Nat

structure TarFSNode where
  name : List UInt8
  children : Map HashType NodeId
  size : Nat
  hasBlockOffset : Bool
  blockOffset : Nat

/-- `requests` are the blocks the device was asked for, the latest first. -/
structure TarState where
  nodes : NodeId → TarFSNode
  next : NodeId
  requests : List Nat

/-- A block of storage is `none` until something has been read into it. -/
structure TarFSFile where
  hdr : Option Block
  fileStartBlock : Nat
  curPos : Nat

/-- The loop over `i`: the pair is `value` and `factor`. -/
def octalStep (data : List UInt8) (acc : Nat × Int) (i : Nat) : Nat × Int :=
  let ch := (data.getD (data.length - i) 0).toInt8.toInt
  (toUInt32 (acc.1 + acc.2 * (ch - 48)), toInt32 (acc.2 * 8))

def octal2ui (data : List UInt8) : Nat :=
  ((List.range' 1 (data.length - 1)).foldl (octalStep data) (0, 1)).1

def isZeroBlock (buffer : Block) : Bool := buffer.1.all (· == 0)

/-- `octal2ui(head.size)` -/
def headerSize (head : Block) : Except Fault Nat := do
  let data ← cString (head.1.drop 124)
  .ok (octal2ui data)

def typeflag (head : Block) : UInt8 := head.1.getD 156 0

/-- The bytes of the fields of `posix_header`, which is packed. -/
def posixHeader : List Nat := [100, 8, 8, 8, 12, 12, 8, 1, 100, 6, 2, 32, 32, 8, 8, 155]

def sizeofPosixHeader : Nat := posixHeader.foldl Nat.add 0

@[simp] theorem sizeofPosixHeader_eq : sizeofPosixHeader = 500 := rfl

/-- The next component of a path, and the path after it. `component` has 256 bytes, and `path`
stays inside the header. -/
def nextComponent (path : List UInt8) : Except Fault (List UInt8 × List UInt8) :=
  let component := path.takeWhile fun c => c ≠ 0 ∧ c ≠ 47
  if 256 ≤ component.length then .error .outOfBounds
  else
    match path.drop component.length with
    | [] => .error .outOfBounds
    | c :: rest => .ok (component, if c = 47 then rest else c :: rest)

/-- A failed read leaves the buffer as it was; the result of `read_blocks` is not looked at. -/
def readInto (dev : BlockDevice) (offset : Nat) (buffer : Option Block) :
    Exec TarState (Option Block) := do
  modify fun s => { s with requests := offset :: s.requests }
  pure ((dev.readBlock offset).or buffer)

/-- A block of 512 bytes, into the `posix_header` that is a local of `build_tree`. Behind it are
`spare` bytes of the stack frame that hold nothing else. -/
def readHead (spare : Nat) (dev : BlockDevice) (offset : Nat) (head : Option Block) :
    Exec TarState (Option Block) := do
  modify fun s => { s with requests := offset :: s.requests }
  match dev.readBlock offset with
  | none => pure head
  | some block =>
      if sizeofPosixHeader + spare < 512 then throw .outOfBounds else pure (some block)

/-- A node as its constructor leaves it. -/
def TarFSNode.new (name : List UInt8) : TarFSNode := ⟨name, .empty, 0, false, 0⟩

def newNode (name : List UInt8) : Exec TarState NodeId := do
  let s ← get
  set { s with nodes := update s.nodes s.next (.new name), next := s.next + 1 }
  pure s.next

def TarState.modifyNode (s : TarState) (n : NodeId) (f : TarFSNode → TarFSNode) : TarState :=
  { s with nodes := update s.nodes n (f (s.nodes n)) }

def TarState.getChild (s : TarState) (n : NodeId) (name : List UInt8) : Option NodeId :=
  (s.nodes n).children.tryGetValue (getHash name)

def addChild (n : NodeId) (name : List UInt8) (child : NodeId) : Exec TarState Unit := do
  let s ← get
  let children ← lift ((s.nodes n).children.add (getHash name) child)
  set (s.modifyNode n fun node => { node with children })

/-- Sets the size of a node. -/
def setSize (n : NodeId) (size : Nat) : Exec TarState Unit :=
  modify fun s => s.modifyNode n fun node => { node with size }

def setBlockOffset (n : NodeId) (offset : Nat) : Exec TarState Unit :=
  modify fun s => s.modifyNode n fun node =>
    { node with hasBlockOffset := true, blockOffset := offset }

/-- The child of the given name, created where there is none. -/
def ensureChild (current : NodeId) (component : List UInt8) : Exec TarState NodeId := do
  match (← get).getChild current component with
  | some next => pure next
  | none => do
      let next ← newNode component
      addChild current component next
      pure next

/-- The walk along `head.name`; the result is `last_node`, unset until a component was found.
Every round moves `path`, so its length bounds the rounds. -/
def walk : Nat → NodeId → Option NodeId → List UInt8 → Exec TarState (Option NodeId)
  | 0, _, _, _ => throw .outOfFuel
  | fuel + 1, current, last, path => do
      let (component, path) ← lift (nextComponent path)
      if component = [] then pure last
      else do
        let next ← ensureChild current component
        walk fuel next (some next) path

/-- What `build_tree` does with a header that is not zero; the result is `file_blocks`. -/
def enterHeader (root : NodeId) (head : Block) (offset : Int) : Exec TarState Int := do
  let size ← lift (headerSize head)
  match ← walk 513 root none head.1 with
  | none => throw .uninitialised
  | some node => do
      setSize node size
      if typeflag head ≠ 53 then setBlockOffset node (toUInt32 offset)
      pure (toInt32 (if size % 512 ≠ 0 then size / 512 + 1 else size / 512 : Nat))

/-- The loop over the headers. `offset` is an `int`, the number of blocks a `size_t`. -/
def readHeaders (spare : Nat) (dev : BlockDevice) (root : NodeId) :
    Nat → Int → Bool → Option Block → Exec TarState Unit
  | 0, _, _, _ => throw .outOfFuel
  | fuel + 1, offset, zeroSeen, head =>
      if toUInt64 offset < dev.blockCount then do
        match ← readHead spare dev (toUInt64 offset) head with
        | none => throw .uninitialised
        | some head =>
            if isZeroBlock head then
              if zeroSeen then pure ()
              else readHeaders spare dev root fuel (toInt32 (offset + 1)) true (some head)
            else do
              let fileBlocks ← enterHeader root head offset
              readHeaders spare dev root fuel (toInt32 (offset + (1 + fileBlocks))) false (some head)
      else pure ()

def buildTree (spare : Nat) (dev : BlockDevice) : Exec TarState NodeId := do
  let root ← newNode []
  readHeaders spare dev root (dev.blockCount + 1) 0 false none
  pure root

/-- Nothing has been read and no node exists. -/
def TarState.initial : TarState := ⟨fun _ => .new [], 0, []⟩

/-- The constructor reads the header and steps to the block after it. -/
def TarFSFile.new (dev : BlockDevice) (fileHeaderBlock : Nat) : Exec TarState TarFSFile := do
  let hdr ← readInto dev fileHeaderBlock none
  pure ⟨hdr, (fileHeaderBlock + 1) % 2 ^ 32, 0⟩

def openNode (dev : BlockDevice) (n : NodeId) : Exec TarState (Option TarFSFile) := do
  let node := (← get).nodes n
  if node.hasBlockOffset then do
    let file ← TarFSFile.new dev node.blockOffset
    pure (some file)
  else pure none

end Infos.Fs
