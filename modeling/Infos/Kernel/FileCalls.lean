import Infos.Fs.Namespace
import Infos.Fs.TarfsFiles
import Infos.Kernel.ObjectManager
import Infos.Lib.Programs
import Infos.Util.MapIterator

/-!
# System calls on files and directories

The running kernel as programs see it: they open paths, and read, write and list what they have
got handles for. The archive lies on one block device, and devices that open as files are terminals.
-/
namespace Infos.Kernel.FileCalls
open Infos.Lib Infos.Util Infos.Kernel.Om Infos.Fs.Namespace Function
open Infos.Fs (Device DeviceExec Memory Name TarFSFile TarState)

abbrev ThreadId := Nat

abbrev ObjectId := Nat

structure DirectoryEntry where
  name : List UInt8
  size : Nat
  deriving DecidableEq

/-- Directories of TarFS and, if `simple`, those of the other file systems. -/
structure Directory where
  entries : List DirectoryEntry
  currentEntry : Nat
  simple : Bool

inductive Object where
  | tarFSFile (f : TarFSFile)
  | terminalFile (device : DeviceId)
  | directory (d : Directory)

/-- `typed` are the bytes in the buffers of the terminals. `written` says who wrote what, the
latest last; no code reads it. -/
structure World where
  tree : Tree
  om : ObjectManager ThreadId ObjectId
  objects : ObjectId → Object
  nextObject : ObjectId
  typed : DeviceId → List UInt8
  written : List (ThreadId × DeviceId × List UInt8)

/-- The kernel before the first thread runs: nothing is open. -/
def World.boot (tree : Tree) : World :=
  ⟨tree, Om.init, fun _ => .directory ⟨[], 0, true⟩, 0, fun _ => [], []⟩

/-- The device with the archive, the terminals, and those of them with a console. -/
structure Hardware where
  archive : Device
  terminal : DeviceId → Bool
  console : DeviceId → Bool

/-- The calls on files and directories, of all that there are. They take what they read and write
itself: a path, not the address of one, which the kernel would not check. -/
inductive Call where
  | openFile (path : List UInt8)
  | read (h size : Nat)
  | write (h : Nat) (bytes : List UInt8)
  | close (h : Nat)
  | opendir (path : List UInt8)
  | readdir (h : Nat)
  | closedir (h : Nat)

/-- A read also stores bytes, and `readdir` gives the name and the size of an entry. -/
def Call.Answer : Call → Type
  | .openFile _ => Nat
  | .read _ _ => Int × Memory
  | .write _ _ => Int
  | .close _ => Int
  | .opendir _ => Nat
  | .readdir _ => Option (List UInt8 × Nat)
  | .closedir _ => Int

section Calls
variable {π : Type} [DecidableEq π] (hw : Hardware) (process : ThreadId → π) (caller : ThreadId)

/-- The physical node that a path leads to. -/
def nodeAt (path : List UInt8) : DeviceExec World (Option PFSNode) := do
  let v ← Calls.zoom World.tree (fun w tree => { w with tree })
    (Calls.ofExec (Fs.LookupNode.lookupNode filesystems path))
  match v with
  | none => pure none
  | some v => return ((← get).tree.vnodes v).pn

/-- `pn->open()` -/
def openNode : PFSNode → DeviceExec World (Option Object)
  | .deviceFS d => pure (if hw.terminal d then some (.terminalFile d) else none)
  | .tarFS n => do
      let f ← Calls.zoom (fun w => w.tree.pfs.tar)
        (fun w tar => { w with tree := { w.tree with pfs := { w.tree.pfs with tar } } })
        (hw.archive.openNode n)
      pure (f.map .tarFSFile)
  | _ => pure none

/-- What an iteration over a map of children visits, level by level. -/
def visited {α : Type} (children : Map HashType α) : List α :=
  (MapHeap.visited (MapHeap.placed children.root)).map Prod.snd

/-- `pn->opendir()` -/
def directoryOf (m : Mounts) : PFSNode → Option Directory
  | .tempFS p =>
      some ⟨(visited (m.temp.nodes p).children).map fun c => ⟨(m.temp.nodes c).name, 0⟩, 0, true⟩
  | .deviceFSRoot =>
      some ⟨(visited m.devices.devices).map fun d => ⟨m.devices.name d, 0⟩, 0, true⟩
  | .tarFS n =>
      if (m.tar.nodes n).hasBlockOffset then none
      else some ⟨(visited (m.tar.nodes n).children).map fun c =>
        ⟨(m.tar.nodes c).name, (m.tar.nodes c).size⟩, 0, false⟩
  | _ => none

def register (object : Object) : DeviceExec World Nat := do
  let w ← get
  let (handle, om) ← Calls.ofExec (lift (registerObject caller (some w.nextObject) w.om))
  set { w with
    om
    objects := update w.objects w.nextObject object
    nextObject := w.nextObject + 1 }
  pure handle

/-- NULL has no handle. -/
def handleFor : Option Object → DeviceExec World Nat
  | none => pure errorHandle
  | some object => register caller object

def sysOpen (path : List UInt8) : DeviceExec World Nat := do
  match ← nodeAt path with
  | none => pure errorHandle
  | some pn => do
      let f ← openNode hw pn
      handleFor caller f

def sysOpendir (path : List UInt8) : DeviceExec World Nat := do
  match ← nodeAt path with
  | none => pure errorHandle
  | some pn => do
      let d := directoryOf (← get).tree.pfs pn
      handleFor caller (d.map .directory)

/-- `Terminal::read` waits until all bytes are there. -/
def readTerminal (d : DeviceId) (size : Nat) : DeviceExec World (Int × Memory) := do
  let w ← get
  if (w.typed d).length < size then throw .outOfFuel
  else do
    set { w with typed := update w.typed d ((w.typed d).drop size) }
    pure (toInt32 size, ((w.typed d).take size).map some)

def World.setObject (w : World) (o : ObjectId) (object : Object) : World :=
  { w with objects := update w.objects o object }

/-- What the calls with a handle have in common. The cast of the object is not checked. -/
def withObject {α : Type} (h : Nat) (missing : α) (body : ObjectId → Object → DeviceExec World α) :
    DeviceExec World α := do
  let w ← get
  match getObjectSecure process w.om caller h with
  | none => pure missing
  | some o => body o (w.objects o)

def sysRead (h size : Nat) : DeviceExec World (Int × Memory) :=
  withObject process caller h (-1, []) fun o object =>
    match object with
    | .tarFSFile f =>
        Calls.zoom (fun _ => f) (fun w f => w.setObject o (.tarFSFile f))
          (TarFSFile.read hw.archive size)
    | .terminalFile d => readTerminal d size
    | .directory _ => throw .aborted

def sysWrite (h : Nat) (bytes : List UInt8) : DeviceExec World Int :=
  withObject process caller h (-1) fun _ object =>
    match object with
    | .tarFSFile _ => pure 0
    | .terminalFile d =>
        if hw.console d then do
          modify fun w => { w with written := w.written ++ [(caller, d, bytes)] }
          pure (toInt32 bytes.length)
        else pure 0
    | .directory _ => throw .aborted

/-- Closing a file does nothing. -/
def sysClose (h : Nat) : DeviceExec World Int :=
  withObject process caller h (-1) fun _ object =>
    match object with
    | .directory _ => throw .aborted
    | _ => pure 0

/-- The name is copied with `strncpy(.., 63)`, which stops behind 62 characters. -/
def sysReaddir (h : Nat) : DeviceExec World (Option (List UInt8 × Nat)) :=
  withObject process caller h none fun o object =>
    match object with
    | .directory d =>
        match d.entries[d.currentEntry]? with
        | none => pure none
        | some e => do
            modify fun w => w.setObject o (.directory { d with currentEntry := d.currentEntry + 1 })
            pure (some ((e.name.takeWhile (· ≠ 0)).take 62, e.size))
    | _ => throw .aborted

def sysClosedir (h : Nat) : DeviceExec World Int :=
  withObject process caller h (-1) fun o object =>
    match object with
    | .directory d => do
        if d.simple then modify fun w => w.setObject o (.directory { d with entries := [] })
        pure 0
    | _ => throw .aborted

def serve : (c : Call) → DeviceExec World c.Answer
  | .openFile path => sysOpen hw caller path
  | .read h size => sysRead hw process caller h size
  | .write h bytes => sysWrite hw process caller h bytes
  | .close h => sysClose process caller h
  | .opendir path => sysOpendir caller path
  | .readdir h => sysReaddir process caller h
  | .closedir h => sysClosedir process caller h

/-- The call waits for keys. -/
def Call.waits (w : World) : Call → Bool
  | .read h size =>
      match (getObjectSecure process w.om caller h).map w.objects with
      | some (.terminalFile d) => (w.typed d).length < size
      | _ => false
  | _ => false

/-- What happens besides a program: calls of other threads, and whatever the buffer of a terminal
goes through while keys are typed and readers wait. -/
inductive Act where
  | call (caller : ThreadId) (c : Call)
  | keys (device : DeviceId) (buffer : List UInt8)

/-- A call that waits is left to a later act. -/
def perform : Act → DeviceExec World Unit
  | .call caller c => do
      if c.waits process caller (← get) then pure ()
      else do
        let _ ← serve hw process caller c
        pure ()
  | .keys device buffer => modify fun w => { w with typed := update w.typed device buffer }

end Calls

end Infos.Kernel.FileCalls
