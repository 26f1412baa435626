import Infos.Drivers.VirtualConsole
import Infos.Lib.Steps

/-!
# The cursor of a console

`write` taken apart into the rounds of its loop, so that a statement can be about the cursor
after every byte and about a write that never ends.
-/
namespace Infos.Drivers
open Infos.Lib

/-- One round of the loop; the result is the colour and the state after it. -/
def writeRound (attr : UInt16) (state : Nat) (c : UInt8) : Exec Screen (UInt16 × Nat) := do
  let (attr, state) := escape attr state c
  if state = 0 then do
    let state ← writeChar attr c
    pure (attr, state)
  else pure (attr, state)

theorem writeLoop_cons (c : UInt8) (buffer : List UInt8) (attr : UInt16) (state : Nat) :
    writeLoop (c :: buffer) attr state =
      (do
        let (attr, state) ← writeRound attr state c
        writeLoop buffer attr state) := by
  unfold writeRound
  rw [writeLoop]
  dsimp only
  split_ifs
  · rw [bind_assoc]
    rfl
  · rfl

/-- A call of `write` on its way. -/
structure Writing where
  buffer : List UInt8
  i : Nat
  attr : UInt16
  state : Nat

def Writing.round (w : Writing) (c : UInt8) : Exec Screen Writing := do
  let (attr, state) ← writeRound w.attr w.state c
  pure { w with i := (w.i + 1) % 2 ^ 32, attr, state }

/-- A screen, the call of `write` on its way and the calls after it. -/
structure Console where
  screen : Screen
  writing : Option Writing
  later : List (List UInt8)

/-- The cursor is at cell 0. -/
def Console.start (cells : Cells) (writes : List (List UInt8)) : Console :=
  ⟨⟨cells, 0⟩, none, writes⟩

/-- The next call. -/
def Console.call (s : Console) : Console :=
  match s.later with
  | [] => s
  | buffer :: later => { s with writing := some ⟨buffer, 0, 0x0700, 0⟩, later }

/-- A call, a round of its loop or its return. -/
def Console.step (s : Console) : Except Fault Console :=
  match s.writing with
  | none => .ok s.call
  | some w =>
      match w.buffer[w.i]? with
      | none => .ok { s with writing := none }
      | some c => do
          let (w, screen) ← (w.round c).run s.screen
          .ok { s with screen, writing := some w }

/-- The next byte is a backspace, which no escape sequence swallows, and the cursor is at cell
0. -/
def Console.AtZero (s : Console) : Prop :=
  ∃ w c, s.writing = some w ∧ w.buffer[w.i]? = some c ∧ (escape w.attr w.state c).2 = 0 ∧
    BelowZero s.screen c

section Cursor
variable {s : Screen}

theorem writeChar_below {c : UInt8} (below : BelowZero s c) (attr : UInt16) :
    (writeChar attr c).run s = .error .outOfBounds := by
  obtain ⟨rfl, zero⟩ := below
  have outside : ¬ (s.currentPos - 1).toNat < 2000 := by
    rw [zero]
    decide
  have write : (setCell (cellOf attr 32)).run { s with currentPos := s.currentPos - 1 } =
      .error .outOfBounds := by
    rw [setCell, bind_ok (run_get_eq _), dif_neg outside]
    rfl
  rw [writeChar]
  apply bind_error
  rw [putChar, if_neg (by decide), if_neg (by decide), if_pos rfl, moveTo,
    bind_ok (run_modify_eq _ s)]
  exact bind_error write

theorem writeRound_iff (h : s.Bounded) (attr : UInt16) (state : Nat) (c : UInt8) :
    (∃ r s', (writeRound attr state c).run s = .ok (r, s') ∧ s'.Bounded) ↔
      ¬ ((escape attr state c).2 = 0 ∧ BelowZero s c) := by
  unfold writeRound
  dsimp only
  split_ifs with plain
  · rw [and_iff_right plain]
    constructor
    · rintro ⟨r, s', run, -⟩ below
      rw [bind_error (writeChar_below below _)] at run
      cases run
    · intro above
      obtain ⟨state', s', run, bounded⟩ := writeChar_run h (escape attr state c).1 above
      refine ⟨((escape attr state c).1, state'), s', ?_, bounded⟩
      rw [bind_ok run]
      rfl
  · exact iff_of_true ⟨_, s, rfl, h⟩ fun below => plain below.1

end Cursor

namespace Console
variable {s : Console} {w : Writing} {c : UInt8}

theorem call_screen (s : Console) : s.call.screen = s.screen := by
  unfold call
  cases s.later with
  | nil => rfl
  | cons buffer later => rfl

theorem step_return (writing : s.writing = some w) (byte : w.buffer[w.i]? = none) :
    s.step = .ok { s with writing := none } := by
  rw [step, writing]
  dsimp only
  rw [byte]

theorem step_round (writing : s.writing = some w) (byte : w.buffer[w.i]? = some c) :
    s.step = (do
      let (w, screen) ← (w.round c).run s.screen
      .ok { s with screen, writing := some w }) := by
  rw [step, writing]
  dsimp only
  rw [byte]

theorem round_step_iff (writing : s.writing = some w) (byte : w.buffer[w.i]? = some c)
    (h : s.screen.Bounded) :
    (∃ s', s.step = .ok s' ∧ s'.screen.Bounded) ↔
      ¬ ((escape w.attr w.state c).2 = 0 ∧ BelowZero s.screen c) := by
  rw [← writeRound_iff h, step_round writing byte, Writing.round]
  constructor
  · rintro ⟨s', run, bounded⟩
    cases ran : (writeRound w.attr w.state c).run s.screen with
    | error e =>
        rw [bind_error ran] at run
        cases run
    | ok p =>
        rw [bind_ok ran] at run
        cases run
        exact ⟨p.1, p.2, rfl, bounded⟩
  · rintro ⟨r, screen, run, bounded⟩
    rw [bind_ok run]
    exact ⟨_, rfl, bounded⟩

theorem step_iff (h : s.screen.Bounded) :
    (∃ s', s.step = .ok s' ∧ s'.screen.Bounded) ↔ ¬ s.AtZero := by
  cases writing : s.writing with
  | none =>
      refine iff_of_true ⟨s.call, by rw [step, writing], by rwa [call_screen]⟩ ?_
      rintro ⟨w, c, some, -⟩
      rw [writing] at some
      cases some
  | some w =>
      have atZero : s.AtZero ↔ ∃ c, w.buffer[w.i]? = some c ∧ (escape w.attr w.state c).2 = 0 ∧
          BelowZero s.screen c := by
        simp [AtZero, writing]
      rw [atZero]
      cases byte : w.buffer[w.i]? with
      | none =>
          rw [step_return writing byte]
          exact iff_of_true ⟨_, rfl, h⟩ (by simp)
      | some c =>
          rw [round_step_iff writing byte h]
          simp

/-- From any round on the steps do what the rest of the loop does. -/
theorem writeLoop_steps (front : List UInt8) {rest : List UInt8} {attr : UInt16} {state : Nat}
    {t t' : Screen}
    (short : (front ++ rest).length < 2 ^ 32)
    (run : (writeLoop rest attr state).run t = .ok ((), t')) (later : List (List UInt8)) :
    ∃ n, steps step n ⟨t, some ⟨front ++ rest, front.length, attr, state⟩, later⟩ =
      .ok ⟨t', none, later⟩ := by
  induction rest generalizing front attr state t with
  | nil =>
      cases run
      refine ⟨1, steps_succ (step_return rfl ?_)⟩
      simp
  | cons c rest ih =>
      rw [writeLoop_cons] at run
      obtain ⟨⟨attr', state'⟩, t₁, round, run⟩ := of_bind_ok run
      have byte : (front ++ c :: rest)[front.length]? = some c := by simp
      have next : (front.length + 1) % 2 ^ 32 = (front ++ [c]).length := by
        rw [List.length_append, List.length_cons] at short
        rw [List.length_append, List.length_singleton]
        exact Nat.mod_eq_of_lt (by omega)
      have first : step ⟨t, some ⟨front ++ c :: rest, front.length, attr, state⟩, later⟩ =
          .ok ⟨t₁, some ⟨front ++ [c] ++ rest, (front ++ [c]).length, attr', state'⟩, later⟩ := by
        rw [step_round rfl byte, Writing.round, bind_ok round, ← next, List.append_assoc]
        rfl
      obtain ⟨n, rest⟩ := ih (front ++ [c]) (by simpa using short) run
      exact ⟨n + 1, (steps_succ first).trans rest⟩

theorem writeAll_steps {writes : List (List UInt8)} {t t' : Screen}
    (run : (writeAll writes).run t = .ok ((), t')) :
    ∃ n, steps step n ⟨t, none, writes⟩ = .ok ⟨t', none, []⟩ := by
  induction writes generalizing t with
  | nil =>
      cases run
      exact ⟨0, rfl⟩
  | cons buffer writes ih =>
      obtain ⟨⟨⟩, t₁, first, rest⟩ := of_bind_ok run
      unfold writeScreen at first
      split_ifs at first with short
      · obtain ⟨n, write⟩ := writeLoop_steps [] short first writes
        obtain ⟨m, others⟩ := ih rest
        have call : step ⟨t, none, buffer :: writes⟩ =
            .ok ⟨t, some ⟨[] ++ buffer, 0, 0x0700, 0⟩, writes⟩ := rfl
        exact ⟨n + m + 1, (steps_succ call).trans (steps_add write others)⟩
      · cases first

end Console

theorem start_bounded (cells : Cells) : Screen.Bounded ⟨cells, 0⟩ := (by decide : 0 < 2000)

/-- From cell 0 on, for any writes: every cell that is written is on the screen and so is the
cursor after every byte, if and only if no backspace is shown while the cursor is at cell 0. -/
theorem cursor_on_screen_iff (cells : Cells) (writes : List (List UInt8)) :
    (∀ n, ∃ s, steps Console.step n (.start cells writes) = .ok s ∧ s.screen.Bounded) ↔
      ∀ n s, steps Console.step n (.start cells writes) = .ok s → ¬ s.AtZero :=
  steps_good_iff (fun _ => Console.step_iff) (start_bounded cells)

/-- A backspace on a fresh screen writes to the cell 65535. -/
theorem backspace_leaves_screen : ¬ ∀ n, ∃ s,
    steps Console.step n (.start Screen.fresh.cells [[8]]) = .ok s ∧ s.screen.Bounded := by
  intro all
  have careful := (steps_good_iff (fun _ => Console.step_iff) (start_bounded _)).mp all
  exact careful 1 _ rfl ⟨⟨[8], 0, 0x0700, 0⟩, 8, rfl, rfl, rfl, rfl, rfl⟩

end Infos.Drivers
