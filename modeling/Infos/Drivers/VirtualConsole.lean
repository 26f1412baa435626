import Infos.Lib.Exec
import Mathlib.Tactic.SplitIfs

/-!
# Virtual consoles

What `write` does to a screen: the cells of the buffer and the cursor. Escape
state and colour last for one call.
-/
namespace Infos.Drivers
open Infos.Lib

/-- 25 rows of 80 cells. -/
abbrev Cells := Vector UInt16 2000

structure Screen where
  cells : Cells
  currentPos : UInt16
  deriving DecidableEq

/-- The screen that the constructor makes. -/
def Screen.fresh : Screen := ⟨Vector.replicate 2000 0x0700, 0⟩

/-- `attr | c`, where `c` is a signed `char` and the cell has the low 16 bits. -/
def cellOf (attr : UInt16) (c : UInt8) : UInt16 := attr ||| c.toInt8.toInt16.toUInt16

/-- `_buffer[_current_pos] = cell` -/
def setCell (cell : UInt16) : Exec Screen Unit := do
  let s ← get
  if h : s.currentPos.toNat < 2000 then
    set { s with cells := s.cells.set s.currentPos.toNat cell }
  else throw .outOfBounds

def moveTo (f : UInt16 → UInt16) : Exec Screen Unit :=
  modify fun s => { s with currentPos := f s.currentPos }

/-- `memcpy` moves the rows up from the front on; the last row is blank. -/
def scrollOneLine (cells : Cells) : Cells :=
  Vector.ofFn fun i => if h : i.val < 1920 then cells[i.val + 80] else 0x0700

/-- The end of a round: a cursor behind the last cell scrolls the screen. -/
def wrapScreen : Exec Screen Unit :=
  modify fun s => if 2000 ≤ s.currentPos then ⟨scrollOneLine s.cells, 1920⟩ else s

/-- A character outside an escape sequence; the result is the new `state`. -/
def putChar (attr : UInt16) (c : UInt8) : Exec Screen Nat :=
  if c = 10 then do
    moveTo fun pos => pos + (80 - pos % 80)
    pure 0
  else if c = 27 then pure 1
  else if c = 8 then do
    moveTo fun pos => pos - 1
    setCell (cellOf attr 32)
    pure 0
  else do
    setCell (cellOf attr c)
    moveTo fun pos => pos + 1
    pure 0

/-- One round with `state` 0. -/
def writeChar (attr : UInt16) (c : UInt8) : Exec Screen Nat := do
  let state ← putChar attr c
  wrapScreen
  pure state

/-- The colour and the state with which a character is looked at. -/
def escape (attr : UInt16) (state : Nat) (c : UInt8) : UInt16 × Nat :=
  if state = 1 then (attr, if c = 91 then 2 else 0)
  else if state = 2 then (0x0100, 0)
  else (attr, state)

def writeLoop : List UInt8 → UInt16 → Nat → Exec Screen Unit
  | [], _, _ => pure ()
  | c :: buffer, attr, state => do
      let (attr, state) := escape attr state c
      if state = 0 then do
        let state ← writeChar attr c
        writeLoop buffer attr state
      else writeLoop buffer attr state

/-- The loop counts with an `unsigned int`: it does not end where that cannot reach `size`. -/
def writeScreen (buffer : List UInt8) : Exec Screen Unit :=
  if buffer.length < 2 ^ 32 then writeLoop buffer 0x0700 0 else throw .outOfFuel

def writeAll : List (List UInt8) → Exec Screen Unit
  | [] => pure ()
  | buffer :: writes => do
      writeScreen buffer
      writeAll writes

/-! ### The cursor -/

/-- A character that moves the cursor below cell 0. -/
def BelowZero (s : Screen) (c : UInt8) : Prop := c = 8 ∧ s.currentPos = 0

/-- No character of the buffer moves the cursor below cell 0. -/
def StaysAbove : List UInt8 → UInt16 → Nat → Screen → Prop
  | [], _, _, _ => True
  | c :: buffer, attr, state, s =>
      if (escape attr state c).2 = 0 then
        ¬ BelowZero s c ∧ ∀ state' s', (writeChar (escape attr state c).1 c).run s =
          .ok (state', s') → StaysAbove buffer (escape attr state c).1 state' s'
      else StaysAbove buffer (escape attr state c).1 (escape attr state c).2 s

/-- None of the writes, made one after another, does. -/
def NeverBelow : List (List UInt8) → Screen → Prop
  | [], _ => True
  | buffer :: writes, s =>
      StaysAbove buffer 0x0700 0 s ∧
        ∀ s', (writeScreen buffer).run s = .ok ((), s') → NeverBelow writes s'

theorem staysAbove_of_plain {buffer : List UInt8} (plain : 8 ∉ buffer) (attr : UInt16)
    (state : Nat) (s : Screen) : StaysAbove buffer attr state s := by
  induction buffer generalizing attr state s with
  | nil => trivial
  | cons c buffer ih =>
      rw [List.mem_cons, not_or] at plain
      unfold StaysAbove
      split_ifs
      · exact ⟨fun below => plain.1 below.1.symm, fun state' s' _ => ih plain.2 _ state' s'⟩
      · exact ih plain.2 _ _ s

theorem neverBelow_of_plain {writes : List (List UInt8)} (plain : ∀ buffer ∈ writes, 8 ∉ buffer)
    (s : Screen) : NeverBelow writes s := by
  induction writes generalizing s with
  | nil => trivial
  | cons buffer writes ih =>
      refine ⟨staysAbove_of_plain (plain buffer List.mem_cons_self) _ _ s, ?_⟩
      intro s' _
      exact ih (fun b mem => plain b (List.mem_cons_of_mem _ mem)) s'

abbrev Screen.Bounded (s : Screen) : Prop := s.currentPos.toNat < 2000

section Cursor
variable {s : Screen}

theorem setCell_run (h : s.Bounded) (cell : UInt16) :
    (setCell cell).run s = .ok ((), { s with cells := s.cells.set s.currentPos.toNat cell h }) := by
  unfold setCell
  rw [bind_ok (run_get_eq s), dif_pos h]
  rfl

theorem wrapScreen_run (s : Screen) : ∃ s', wrapScreen.run s = .ok ((), s') ∧ s'.Bounded := by
  refine ⟨_, rfl, ?_⟩
  dsimp only
  split_ifs with behind
  · exact (by decide : (1920 : UInt16).toNat < 2000)
  · exact UInt16.lt_iff_toNat_lt.mp (UInt16.not_le.mp behind)

theorem putChar_run (h : s.Bounded) (attr : UInt16) {c : UInt8} (above : ¬ BelowZero s c) :
    ∃ state s', (putChar attr c).run s = .ok (state, s') := by
  unfold putChar
  split_ifs with newline esc back
  · exact ⟨_, _, rfl⟩
  · exact ⟨_, _, rfl⟩
  · have some : s.currentPos ≠ 0 := fun zero => above ⟨back, zero⟩
    have before : (s.currentPos - 1).toNat = s.currentPos.toNat - 1 := by
      apply UInt16.toNat_sub_of_le
      exact UInt16.le_iff_toNat_le.mpr (Nat.pos_of_ne_zero fun zero => some (UInt16.toNat.inj zero))
    have inside : Screen.Bounded { s with currentPos := s.currentPos - 1 } := by
      change (s.currentPos - 1).toNat < 2000
      rw [before]
      exact Nat.lt_of_le_of_lt (Nat.sub_le _ _) h
    rw [moveTo, bind_ok (run_modify_eq _ s), bind_ok (setCell_run inside _)]
    exact ⟨_, _, rfl⟩
  · rw [bind_ok (setCell_run h _)]
    exact ⟨_, _, rfl⟩

theorem writeChar_run (h : s.Bounded) (attr : UInt16) {c : UInt8} (above : ¬ BelowZero s c) :
    ∃ state s', (writeChar attr c).run s = .ok (state, s') ∧ s'.Bounded := by
  obtain ⟨state, s₁, run⟩ := putChar_run h attr above
  obtain ⟨s', run', bounded⟩ := wrapScreen_run s₁
  refine ⟨state, s', ?_, bounded⟩
  rw [writeChar, bind_ok run, bind_ok run']
  rfl

theorem writeLoop_run {buffer : List UInt8} {attr : UInt16} {state : Nat} (h : s.Bounded)
    (above : StaysAbove buffer attr state s) :
    ∃ s', (writeLoop buffer attr state).run s = .ok ((), s') ∧ s'.Bounded := by
  induction buffer generalizing attr state s with
  | nil => exact ⟨s, rfl, h⟩
  | cons c buffer ih =>
      unfold StaysAbove at above
      unfold writeLoop
      dsimp only
      split_ifs at above ⊢ with plain
      · obtain ⟨state', s₁, run, bounded⟩ := writeChar_run h (escape attr state c).1 above.1
        rw [bind_ok run]
        exact ih bounded (above.2 state' s₁ run)
      · exact ih h above

theorem writeScreen_run {buffer : List UInt8} (h : s.Bounded) (short : buffer.length < 2 ^ 32)
    (above : StaysAbove buffer 0x0700 0 s) :
    ∃ s', (writeScreen buffer).run s = .ok ((), s') ∧ s'.Bounded := by
  rw [writeScreen, if_pos short]
  exact writeLoop_run h above

end Cursor
end Infos.Drivers
