import Infos.Drivers.VirtualConsole
import Infos.Lib.Triple

/-!
# The VGA console

Several virtual consoles, one video RAM. The console that is shown writes to the
video RAM; its own buffer is the device's backup until the next switch.
-/
namespace Infos.Drivers
open Infos.Lib Function

/-! ### The CRT controller -/

structure Crtc where
  index : UInt8
  cursorHigh : UInt8
  cursorLow : UInt8
  deriving DecidableEq

namespace Crtc

/-- Port 0x3d4 selects a register and port 0x3d5 is that register. -/
def outb (port : UInt16) (value : UInt8) (c : Crtc) : Crtc :=
  if port = 0x3d4 then { c with index := value }
  else if port = 0x3d5 then
    if c.index = 0xf then { c with cursorLow := value }
    else if c.index = 0xe then { c with cursorHigh := value }
    else c
  else c

/-- The cell where the card shows the cursor. -/
def cursor (c : Crtc) : Nat := 256 * c.cursorHigh.toNat + c.cursorLow.toNat

/-- The four `__outb` of the update callback. -/
def moveCursor (position : UInt16) (c : Crtc) : Crtc :=
  (((c.outb 0x3d4 0xf).outb 0x3d5 position.toUInt8).outb 0x3d4 0xe).outb 0x3d5
    (position >>> 8).toUInt8

end Crtc

/-! ### The device and its consoles -/

/-- The places a `_buffer` points to: each constructor allocates one. -/
inductive Buffer (ι : Type) where
  | videoRam
  | allocated (vc : ι)
  deriving DecidableEq

/-- `ucb` is whether the console has the device's update callback. -/
structure VirtualConsole (ι : Type) where
  currentPos : UInt16
  buffer : Option (Buffer ι)
  ucb : Bool
  deriving DecidableEq

structure VgaConsole (ι : Type) where
  consoles : ι → VirtualConsole ι
  memory : Buffer ι → Cells
  vcs : List ι
  currentVc : Option ι
  backupBuffer : Option (Buffer ι)
  oldVc : Option ι
  crtc : Crtc

namespace VgaConsole
variable {ι : Type} [DecidableEq ι]

/-- The consoles and the device as constructed, before anything is attached. -/
def start (videoRam : Cells) (crtc : Crtc) : VgaConsole ι where
  consoles vc := ⟨Screen.fresh.currentPos, some (.allocated vc), false⟩
  memory
    | .videoRam => videoRam
    | .allocated _ => Screen.fresh.cells
  vcs := []
  currentVc := none
  backupBuffer := none
  oldVc := none
  crtc := crtc

def setBuffer (vc : ι) (buffer : Option (Buffer ι)) (ucb : Bool) : Exec (VgaConsole ι) Unit :=
  modify fun s =>
    { s with consoles := update s.consoles vc { s.consoles vc with buffer := buffer, ucb := ucb } }

def getBuffer (vc : ι) : Exec (VgaConsole ι) (Option (Buffer ι)) := do
  let s ← get
  pure (s.consoles vc).buffer

/-- `memcpy` of the 80 * 25 cells. -/
def memcpy (dst src : Option (Buffer ι)) : Exec (VgaConsole ι) Unit :=
  match dst, src with
  | some dst, some src => modify fun s => { s with memory := update s.memory dst (s.memory src) }
  | _, _ => throw .nullDeref

def vcUpdateCallback (vc : ι) : Exec (VgaConsole ι) Unit :=
  modify fun s => { s with crtc := s.crtc.moveCursor (s.consoles vc).currentPos }

def getCurrentVc : Exec (VgaConsole ι) ι := do
  match (← get).currentVc with
  | some vc => pure vc
  | none => throw .nullDeref

/-- The first part of `virtual_console_changed`. -/
def releaseOld : Exec (VgaConsole ι) Unit := do
  let s ← get
  match s.oldVc with
  | some old => do
      setBuffer old s.backupBuffer false
      memcpy (← getBuffer old) (some .videoRam)
  | none => pure ()

/-- The rest of it. -/
def showCurrent : Exec (VgaConsole ι) Unit := do
  let vc ← getCurrentVc
  let backup ← getBuffer vc
  modify fun s => { s with backupBuffer := backup }
  setBuffer vc (some .videoRam) true
  if backup.isSome then memcpy (← getBuffer vc) backup
  modify fun s => { s with oldVc := some vc }
  vcUpdateCallback vc

def virtualConsoleChanged : Exec (VgaConsole ι) Unit := do
  releaseOld
  showCurrent

def setCurrentVc (vc : ι) : Exec (VgaConsole ι) Unit := do
  modify fun s => { s with currentVc := some vc }
  virtualConsoleChanged

def addVirtualConsole (vc : ι) : Exec (VgaConsole ι) Unit := do
  modify fun s => { s with vcs := s.vcs ++ [vc] }
  if (← get).vcs.length = 1 then setCurrentVc vc

/-- A console as `write` sees it: its position, and the cells its buffer points to. -/
def screenOn (vc : ι) (buffer : Buffer ι) (s : VgaConsole ι) : Screen :=
  ⟨s.memory buffer, (s.consoles vc).currentPos⟩

def setScreenOn (vc : ι) (buffer : Buffer ι) (s : VgaConsole ι) (t : Screen) : VgaConsole ι :=
  { s with
    memory := update s.memory buffer t.cells
    consoles := update s.consoles vc { s.consoles vc with currentPos := t.currentPos } }

def write (vc : ι) (buffer : List UInt8) : Exec (VgaConsole ι) Int32 := do
  match (← get).consoles vc |>.buffer with
  | none => pure 0
  | some own => do
      zoom (screenOn vc own) (setScreenOn vc own) (writeScreen buffer)
      if ((← get).consoles vc).ucb then vcUpdateCallback vc
      pure (Int32.ofNat buffer.length)

/-! ### Runs -/

inductive Op (ι : Type) where
  | addVirtualConsole (vc : ι)
  | setCurrentVc (vc : ι)
  | write (vc : ι) (buffer : List UInt8)
  deriving DecidableEq

def runOp : Op ι → Exec (VgaConsole ι) Unit
  | .addVirtualConsole vc => addVirtualConsole vc
  | .setCurrentVc vc => setCurrentVc vc
  | .write vc buffer => do
      let _ ← write vc buffer

def runOps : List (Op ι) → Exec (VgaConsole ι) Unit
  | [] => pure ()
  | op :: ops => do
      runOp op
      runOps ops

/-- The console is off the screen and its own buffer holds it. -/
def Hidden (s : VgaConsole ι) (screens : ι → Screen) (vc : ι) : Prop :=
  s.consoles vc = ⟨(screens vc).currentPos, some (.allocated vc), false⟩ ∧
    s.memory (.allocated vc) = (screens vc).cells

/-- The console is on the screen and its own buffer is the backup. -/
structure Shown (s : VgaConsole ι) (screens : ι → Screen) (vc : ι) : Prop where
  console : s.consoles vc = ⟨(screens vc).currentPos, some .videoRam, true⟩
  cells : s.memory .videoRam = (screens vc).cells
  backup : s.backupBuffer = some (.allocated vc)
  cursor : s.crtc.cursor = (screens vc).currentPos.toNat

structure Shows (s : VgaConsole ι) (screens : ι → Screen) : Prop where
  hidden : ∀ vc, s.oldVc ≠ some vc → Hidden s screens vc
  shown : ∀ vc, s.oldVc = some vc → Shown s screens vc

section Switch
variable {s : VgaConsole ι} {screens : ι → Screen} {vc : ι}

omit [DecidableEq ι] in
/-- What is shown does not depend on which consoles are attached or selected. -/
theorem Shows.select (shows : Shows s screens) (vcs : List ι) (current : Option ι) :
    Shows { s with vcs := vcs, currentVc := current } screens where
  hidden v old := shows.hidden v old
  shown v old := by
    have shown := shows.shown v old
    exact ⟨shown.console, shown.cells, shown.backup, shown.cursor⟩

end Switch

section Write
variable {s : VgaConsole ι} {screens : ι → Screen} {vc : ι} {buffer : List UInt8}

theorem Shows.screenOn_eq (shows : Shows s screens) (vc : ι) :
    ∃ own, (s.consoles vc).buffer = some own ∧ screenOn vc own s = screens vc := by
  by_cases seen : s.oldVc = some vc
  · have shown := shows.shown vc seen
    refine ⟨.videoRam, ?_, ?_⟩
    · rw [shown.console]
    · rw [screenOn, shown.console, shown.cells]
  · have hidden := shows.hidden vc seen
    refine ⟨.allocated vc, ?_, ?_⟩
    · rw [hidden.1]
    · rw [screenOn, hidden.1, hidden.2]

end Write

/-! ### Refinement -/

section Runs
variable {s : VgaConsole ι} {screens : ι → Screen}

end Runs

/-! ### Isolation -/

/-- The cells and the cursor of a console. -/
def screen (s : VgaConsole ι) (vc : ι) : Option Screen :=
  (s.consoles vc).buffer.map fun own => screenOn vc own s

structure Isolated (s : VgaConsole ι) (screens : ι → Screen) : Prop where
  own : ∀ vc, s.screen vc = some (screens vc)
  current : ∀ vc, s.currentVc = some vc →
    s.memory .videoRam = (screens vc).cells ∧ s.crtc.cursor = (screens vc).currentPos.toNat
  distinct : ∀ vc vc', (s.consoles vc).buffer = (s.consoles vc').buffer → vc = vc'

section Isolation
variable {s : VgaConsole ι} {screens : ι → Screen}

theorem Shows.distinct (shows : Shows s screens) {vc vc' : ι}
    (same : (s.consoles vc).buffer = (s.consoles vc').buffer) : vc = vc' := by
  by_cases seen : s.oldVc = some vc
  · by_cases seen' : s.oldVc = some vc'
    · exact Option.some.inj (seen.symm.trans seen')
    · rw [(shows.shown vc seen).console, (shows.hidden vc' seen').1] at same
      cases same
  · by_cases seen' : s.oldVc = some vc'
    · rw [(shows.hidden vc seen).1, (shows.shown vc' seen').console] at same
      cases same
    · rw [(shows.hidden vc seen).1, (shows.hidden vc' seen').1] at same
      exact Buffer.allocated.inj (Option.some.inj same)

theorem Shows.isolated (shows : Shows s screens) (synced : s.currentVc = s.oldVc) :
    Isolated s screens where
  own vc := by
    obtain ⟨own, buffer_eq, holds⟩ := shows.screenOn_eq vc
    rw [screen, buffer_eq, Option.map_some, holds]
  current vc seen := by
    have shown := shows.shown vc (synced.symm.trans seen)
    exact ⟨shown.cells, shown.cursor⟩
  distinct vc vc' same := shows.distinct same

end Isolation

end VgaConsole
end Infos.Drivers
