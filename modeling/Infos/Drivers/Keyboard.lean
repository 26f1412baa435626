import Infos.Drivers.Terminal
import Infos.Lib.Triple
import Infos.Util.List

/-!
# From the keyboard to the terminals

A scancode goes from the interrupt handler to the physical console, from it to the virtual console
that is shown, and from there as a character to its terminal. What the consoles draw is left out.
-/
namespace Infos.Drivers.Keyboard
open Infos.Lib Infos.Util Function

/-! ### Keys -/

/-- `Keys` -/
inductive Key where
  | noKey | unknownKey | keyEscape
  | keyA | keyB | keyC | keyD | keyE | keyF | keyG | keyH | keyI | keyJ | keyK | keyL | keyM
  | keyN | keyO | keyP | keyQ | keyR | keyS | keyT | keyU | keyV | keyW | keyX | keyY | keyZ
  | key1 | key2 | key3 | key4 | key5 | key6 | key7 | key8 | key9 | key0
  | keyF1 | keyF2 | keyF3 | keyF4 | keyF5 | keyF6 | keyF7 | keyF8 | keyF9 | keyF10 | keyF11 | keyF12
  | keyAsterisk | keyLsqbracket | keyRsqbracket | keyDot | keyComma | keySemicolon | keyApostrophe
  | keyHash | keyBackslash | keyForslash | keyBacktick | keyHyphen | keyEquals
  | keyTab | keyReturn | keySpace | keyBackspace
  | keyCapslock | keyLshift | keyRshift | keyLctrl | keyRctrl | keyLalt | keyRalt
  deriving DecidableEq, Repr

namespace Key

def isAlt (key : Key) : Bool := key == keyLalt || key == keyRalt

def isShift (key : Key) : Bool := key == keyLshift || key == keyRshift

end Key

def scancodeMap : List Key :=
  [.noKey, .keyEscape,
    .key1, .key2, .key3, .key4, .key5, .key6, .key7, .key8, .key9, .key0,
    .keyHyphen, .keyEquals, .keyBackspace, .keyTab,
    .keyQ, .keyW, .keyE, .keyR, .keyT, .keyY, .keyU, .keyI, .keyO, .keyP, .keyLsqbracket,
    .keyRsqbracket,
    .keyReturn, .keyLctrl,
    .keyA, .keyS, .keyD, .keyF, .keyG, .keyH, .keyJ, .keyK, .keyL, .keySemicolon, .keyApostrophe,
    .keyBacktick,
    .keyLshift,
    .keyBackslash, .keyZ, .keyX, .keyC, .keyV, .keyB, .keyN, .keyM, .keyComma, .keyDot,
    .keyForslash,
    .keyRshift, .keyAsterisk, .keyLalt, .keySpace, .keyCapslock,
    .keyF1, .keyF2, .keyF3, .keyF4, .keyF5, .keyF6, .keyF7, .keyF8, .keyF9, .keyF10]

/-- The check lets the length of the table through, which is behind its last entry. -/
def scancodeToKey (scancode : UInt8) : Except Fault Key :=
  let keyScancode := (scancode &&& 0x7f).toNat
  if scancodeMap.length < keyScancode then .ok .unknownKey
  else
    match scancodeMap[keyScancode]? with
    | some key => .ok key
    | none => .error .outOfBounds

inductive KeyEvent where
  | keyUp (key : Key)
  | keyDown (key : Key)
  deriving DecidableEq, Repr

/-- What `handle_key_event` makes of a scancode. -/
def keyEvent (scancode : UInt8) : Except Fault KeyEvent := do
  let key ← scancodeToKey scancode
  pure (if scancode &&& 0x80 ≠ 0 then .keyUp key else .keyDown key)

/-! ### Consoles and terminals -/

/-- What a virtual console keeps of the keys. The constructor does not set `_terminal`. -/
structure VirtualConsole where
  currentModMask : UInt32
  terminal : Option Nat

structure PhysicalConsole where
  vcs : CountedList Nat
  currentVc : Option Nat
  altPressed : Bool

/-- The keyboard's sink is the physical console or nothing. Virtual consoles and terminals have
numbers. -/
structure Input where
  sink : Bool
  pc : PhysicalConsole
  consoles : Nat → VirtualConsole
  ttys : Nat → Terminal

namespace VirtualConsole

def shift : UInt32 := 2

/-- The upper and the lower character of each `KEY_MAPPING`. -/
def keyMapping : Key → Option (Char × Char)
  | .keyA => some ('A', 'a')
  | .keyB => some ('B', 'b')
  | .keyC => some ('C', 'c')
  | .keyD => some ('D', 'd')
  | .keyE => some ('E', 'e')
  | .keyF => some ('F', 'f')
  | .keyG => some ('G', 'g')
  | .keyH => some ('H', 'h')
  | .keyI => some ('I', 'i')
  | .keyJ => some ('J', 'j')
  | .keyK => some ('K', 'k')
  | .keyL => some ('L', 'l')
  | .keyM => some ('M', 'm')
  | .keyN => some ('N', 'n')
  | .keyO => some ('O', 'o')
  | .keyP => some ('P', 'p')
  | .keyQ => some ('Q', 'q')
  | .keyR => some ('R', 'r')
  | .keyS => some ('S', 's')
  | .keyT => some ('T', 't')
  | .keyU => some ('U', 'u')
  | .keyV => some ('V', 'v')
  | .keyW => some ('W', 'w')
  | .keyX => some ('X', 'x')
  | .keyY => some ('Y', 'y')
  | .keyZ => some ('Z', 'z')
  | .key0 => some (')', '0')
  | .key1 => some ('!', '1')
  | .key2 => some ('\x22', '2')
  | .key3 => some ('#', '3')
  | .key4 => some ('$', '4')
  | .key5 => some ('%', '5')
  | .key6 => some ('^', '6')
  | .key7 => some ('&', '7')
  | .key8 => some ('*', '8')
  | .key9 => some ('(', '9')
  | .keyHyphen => some ('_', '-')
  | .keyEquals => some ('+', '=')
  | .keyBackslash => some ('|', '\x5c')
  | .keyForslash => some ('?', '/')
  | .keyDot => some ('>', '.')
  | _ => none

/-- The `ch` of `key_down`, with or without shift; `none` where it returns without one. -/
def keyChar (shifted : Bool) (key : Key) : Option UInt8 :=
  match keyMapping key with
  | some (upper, lower) => some (if shifted then upper else lower).toUInt8
  | none =>
      match key with
      | .keySpace => some 32
      | .keyReturn => some 10
      | .keyBackspace => some 8
      | _ => none

def isShifted (vc : VirtualConsole) : Bool := vc.currentModMask &&& shift != 0

def setMask (vc : Nat) (f : UInt32 → UInt32) : Exec Input Unit :=
  modify fun s => { s with
    consoles := update s.consoles vc
      { s.consoles vc with currentModMask := f (s.consoles vc).currentModMask } }

def onTty {α : Type} (tty : Nat) (x : Exec Terminal α) : Exec Input α :=
  zoom (fun s : Input => s.ttys tty) (fun s t => { s with ttys := update s.ttys tty t }) x

def keyUp (vc : Nat) (key : Key) : Exec Input Unit :=
  if key.isShift then setMask vc fun mask => mask &&& ~~~shift else pure ()

def keyDown (vc : Nat) (key : Key) : Exec Input Unit := do
  if key.isShift then setMask vc fun mask => mask ||| shift
  else
    let console := (← get).consoles vc
    match keyChar console.isShifted key with
    | none => pure ()
    | some ch =>
        match console.terminal with
        | none => throw .uninitialised
        | some tty => onTty tty (Terminal.appendToReadBuffer ch)

end VirtualConsole

namespace PhysicalConsole

def setCurrentVc (vc : Nat) : Exec Input Unit :=
  modify fun s => { s with pc := { s.pc with currentVc := some vc } }

/-- `set_current_vc(*_vcs.at(index))` -/
def switchTo (index : Nat) : Exec Input Unit := do
  match (← get).pc.vcs.elems[index]? with
  | none => throw .assertion
  | some vc => setCurrentVc vc

def setAlt (pressed : Bool) : Exec Input Unit :=
  modify fun s => { s with pc := { s.pc with altPressed := pressed } }

/-- A key goes to the console that is shown, if there is one. -/
def pass (handler : Nat → Exec Input Unit) : Exec Input Unit := do
  match (← get).pc.currentVc with
  | none => pure ()
  | some vc => handler vc

def keyUp (key : Key) : Exec Input Unit := do
  if key.isAlt then setAlt false
  pass fun vc => VirtualConsole.keyUp vc key

def keyDown (key : Key) : Exec Input Unit := do
  let alt := (← get).pc.altPressed
  if key = .keyF1 ∧ alt then switchTo 0
  else if key = .keyF2 ∧ alt then switchTo 1
  else do
    if key.isAlt then setAlt true
    pass fun vc => VirtualConsole.keyDown vc key

def addVirtualConsole (vc : Nat) : Exec Input Unit := do
  modify fun s => { s with pc := { s.pc with vcs := s.pc.vcs.append vc } }
  if (← get).pc.vcs.count = 1 then setCurrentVc vc

end PhysicalConsole

/-- `_sink->key_up` or `_sink->key_down` -/
def deliver : KeyEvent → Exec Input Unit
  | .keyUp key => PhysicalConsole.keyUp key
  | .keyDown key => PhysicalConsole.keyDown key

def handleKeyEvent (scancode : UInt8) : Exec Input Unit := do
  if (← get).sink then deliver (← lift (keyEvent scancode))

/-- One round of the loop of a terminal's `read`; `none` is a wait. -/
def readTty (tty : Nat) : Exec Input (Option UInt8) :=
  VirtualConsole.onTty tty Terminal.readElem

/-- What `activate_console` does to two consoles and two terminals. -/
def activateConsole : Exec Input Unit := do
  modify fun s => { s with
    consoles := update s.consoles 0 { s.consoles 0 with terminal := some 0 } }
  modify fun s => { s with
    consoles := update s.consoles 1 { s.consoles 1 with terminal := some 1 } }
  modify fun s => { s with sink := true }
  PhysicalConsole.addVirtualConsole 0
  PhysicalConsole.addVirtualConsole 1

/-- The devices as their constructors leave them. -/
def Input.constructed (memory : Nat → Vector UInt8 64) : Input where
  sink := false
  pc := ⟨.nil, none, false⟩
  consoles _ := ⟨0, none⟩
  ttys tty := .new (memory tty)

end Infos.Drivers.Keyboard
