import Infos.Drivers.ConsoleCursor

/-!
# Writes in pieces

The colour and the state of an escape sequence are variables of one call of `write`. A text may
be cut where both are as at the start of a call, and nowhere else.
-/
namespace Infos.Drivers
open Infos.Lib

/-- The colour and the state with which a call begins. -/
def atStart : UInt16 × Nat := (0x0700, 0)

/-- Colour and state after a round, which depend on the bytes alone. -/
def stateAfter (p : UInt16 × Nat) (c : UInt8) : UInt16 × Nat :=
  let (attr, state) := escape p.1 p.2 c
  if state = 0 then (attr, if c = 27 then 1 else 0) else (attr, state)

/-- Colour and state where a text ends. -/
def endState (p : UInt16 × Nat) (buffer : List UInt8) : UInt16 × Nat := buffer.foldl stateAfter p

section Rounds
variable {s s' : Screen} {attr : UInt16} {state : Nat} {c : UInt8}

theorem putChar_state {r : Nat} (run : (putChar attr c).run s = .ok (r, s')) :
    r = if c = 27 then 1 else 0 := by
  unfold putChar at run
  split_ifs at run ⊢ with newline esc esc back
  · rw [newline] at esc
    exact absurd esc (by decide)
  · cases run
    rfl
  · cases run
    rfl
  · obtain ⟨_, _, _, run⟩ := of_bind_ok run
    obtain ⟨_, _, _, run⟩ := of_bind_ok run
    cases run
    rfl
  · obtain ⟨_, _, _, run⟩ := of_bind_ok run
    obtain ⟨_, _, _, run⟩ := of_bind_ok run
    cases run
    rfl

theorem writeChar_state {r : Nat} (run : (writeChar attr c).run s = .ok (r, s')) :
    r = if c = 27 then 1 else 0 := by
  obtain ⟨r', s₁, put, run⟩ := of_bind_ok run
  obtain ⟨_, _, _, run⟩ := of_bind_ok run
  cases run
  exact putChar_state put

theorem writeRound_state {r : UInt16 × Nat}
    (run : (writeRound attr state c).run s = .ok (r, s')) : r = stateAfter (attr, state) c := by
  unfold writeRound at run
  unfold stateAfter
  dsimp only at run ⊢
  split_ifs at run with plain
  · obtain ⟨r', s₁, write, run⟩ := of_bind_ok run
    cases run
    rw [if_pos plain, writeChar_state write]
  · cases run
    rw [if_neg plain]

theorem writeLoop_append (a b : List UInt8) (p : UInt16 × Nat) (s : Screen) :
    (writeLoop (a ++ b) p.1 p.2).run s =
      (do
        writeLoop a p.1 p.2
        writeLoop b (endState p a).1 (endState p a).2).run s := by
  induction a generalizing p s with
  | nil => rfl
  | cons c a ih =>
      rw [List.cons_append, writeLoop_cons, writeLoop_cons, bind_assoc]
      cases round : (writeRound p.1 p.2 c).run s with
      | error e => rw [bind_error round, bind_error round]
      | ok q =>
          obtain ⟨r, s₁⟩ := q
          rw [bind_ok round, bind_ok round]
          dsimp only
          rw [writeRound_state round]
          exact ih _ s₁

theorem staysAbove_append {a b : List UInt8} {p : UInt16 × Nat}
    (first : StaysAbove a p.1 p.2 s)
    (second : ∀ t, (writeLoop a p.1 p.2).run s = .ok ((), t) →
      StaysAbove b (endState p a).1 (endState p a).2 t) :
    StaysAbove (a ++ b) p.1 p.2 s := by
  induction a generalizing p s with
  | nil => exact second s rfl
  | cons c a ih =>
      have later : ∀ r t, (writeRound p.1 p.2 c).run s = .ok (r, t) →
          StaysAbove a r.1 r.2 t → StaysAbove (a ++ b) r.1 r.2 t := by
        intro r t round above
        refine ih above fun u run => ?_
        have same := writeRound_state round
        subst same
        refine second u ?_
        rw [writeLoop_cons, bind_ok round]
        exact run
      unfold StaysAbove at first
      rw [List.cons_append]
      unfold StaysAbove
      unfold writeRound at later
      dsimp only at later
      split_ifs at first later ⊢ with plain
      · refine ⟨first.1, fun state' t run => ?_⟩
        refine later ((escape p.1 p.2 c).1, state') t ?_ (first.2 state' t run)
        rw [bind_ok run]
        rfl
      · exact later (escape p.1 p.2 c) s rfl first

end Rounds

/-! ### A byte that shows the difference -/

section Probe
variable {s t : Screen} {c : UInt8}

/-- What `wrapScreen` makes of a screen. -/
def wrapped (s : Screen) : Screen :=
  if 2000 ≤ s.currentPos then ⟨scrollOneLine s.cells, 1920⟩ else s

/-- The screen after a character with a cell of its own. -/
def shown (s : Screen) (h : s.Bounded) (cell : UInt16) : Screen :=
  wrapped ⟨s.cells.set s.currentPos.toNat cell h, s.currentPos + 1⟩

theorem writeChar_shown (h : s.Bounded) (attr : UInt16) (plain : c ≠ 10 ∧ c ≠ 27 ∧ c ≠ 8) :
    (writeChar attr c).run s = .ok (0, shown s h (cellOf attr c)) := by
  obtain ⟨newline, esc, back⟩ := plain
  have put : (putChar attr c).run s =
      .ok (0, ⟨s.cells.set s.currentPos.toNat (cellOf attr c) h, s.currentPos + 1⟩) := by
    rw [putChar, if_neg newline, if_neg esc, if_neg back, bind_ok (setCell_run h _)]
    rfl
  rw [writeChar, bind_ok put]
  rfl

theorem next_toNat (h : s.Bounded) : (s.currentPos + 1).toNat = s.currentPos.toNat + 1 := by
  rw [UInt16.toNat_add]
  exact Nat.mod_eq_of_lt (Nat.lt_of_le_of_lt h (by decide))

theorem behind_iff (h : s.Bounded) :
    2000 ≤ s.currentPos + 1 ↔ s.currentPos.toNat = 1999 := by
  rw [UInt16.le_iff_toNat_le, next_toNat h]
  change 2000 ≤ _ ↔ _
  omega

theorem shown_ne_self (h : s.Bounded) (cell : UInt16) : shown s h cell ≠ s := by
  intro same
  have pos := congrArg (fun s => s.currentPos.toNat) same
  unfold shown wrapped at pos
  dsimp only at pos
  split_ifs at pos with behind
  · have last : (1920 : UInt16).toNat = 1999 := pos.trans ((behind_iff h).mp behind)
    exact absurd last (by decide)
  · exact absurd ((next_toNat h).symm.trans pos) (Nat.succ_ne_self _)

theorem shown_injective (h : s.Bounded) : Function.Injective (shown s h) := by
  intro x y same
  have cells := congrArg Screen.cells same
  unfold shown wrapped at cells
  dsimp only at cells
  split_ifs at cells with behind
  · have last := (behind_iff h).mp behind
    have cell := congrArg (fun v => v[1919]) cells
    simpa [scrollOneLine, last] using cell
  · have cell := congrArg (fun v => v[s.currentPos.toNat]) cells
    simpa using cell

theorem endState_cases (a : List UInt8) {p : UInt16 × Nat} (colour : p.1 = 0x0700 ∨ p.1 = 0x0100)
    (state : p.2 ≤ 2) :
    ((endState p a).1 = 0x0700 ∨ (endState p a).1 = 0x0100) ∧ (endState p a).2 ≤ 2 := by
  induction a generalizing p with
  | nil => exact ⟨colour, state⟩
  | cons c a ih =>
      refine ih ?_ ?_
      · unfold stateAfter escape
        dsimp only
        split_ifs <;> simp [colour]
      · unfold stateAfter escape
        dsimp only
        split_ifs <;> simp_all

theorem writeLoop_shown (h : t.Bounded) {attr colour : UInt16} {state : Nat}
    (outside : escape attr state c = (colour, 0)) (plain : c ≠ 10 ∧ c ≠ 27 ∧ c ≠ 8) :
    (writeLoop [c] attr state).run t = .ok ((), shown t h (cellOf colour c)) := by
  rw [writeLoop, outside]
  dsimp only
  rw [if_pos rfl, bind_ok (writeChar_shown h colour plain)]
  rfl

/-- Where a text does not end as a call begins, one byte behind it tells. -/
theorem probe_differs (h : t.Bounded) {p : UInt16 × Nat} (colour : p.1 = 0x0700 ∨ p.1 = 0x0100)
    (state : p.2 ≤ 2) (away : p ≠ atStart) :
    ∃ c, c ≠ 8 ∧ (writeLoop [c] p.1 p.2).run t ≠ (writeLoop [c] 0x0700 0).run t := by
  have blue : ∀ attr state, escape attr state 120 = (0x0100, 0) →
      (writeLoop [120] attr state).run t ≠ (writeLoop [120] 0x0700 0).run t := by
    intro attr state outside same
    have start : escape 0x0700 0 120 = (0x0700, 0) := rfl
    rw [writeLoop_shown h outside (by decide), writeLoop_shown h start (by decide)] at same
    have cell := shown_injective h (congrArg (fun r => r.2) (Except.ok.inj same))
    exact absurd cell (by decide)
  obtain ⟨attr, n⟩ := p
  match n, state with
  | 0, _ =>
      rcases colour with rfl | rfl
      · exact absurd rfl away
      · exact ⟨120, by decide, blue _ _ rfl⟩
  | 1, _ =>
      refine ⟨91, by decide, fun same => ?_⟩
      have start : escape 0x0700 0 91 = (0x0700, 0) := rfl
      have opened : (writeLoop [91] attr 1).run t = .ok ((), t) := rfl
      rw [opened, writeLoop_shown h start (by decide)] at same
      exact shown_ne_self h _ (congrArg (fun r => r.2) (Except.ok.inj same)).symm
  | 2, _ => exact ⟨120, by decide, blue _ _ rfl⟩

end Probe

section Pieces
variable {s : Screen} {a b : List UInt8}

theorem writeScreen_append (short : (a ++ b).length < 2 ^ 32) (s : Screen) :
    (writeScreen (a ++ b)).run s =
      (do
        writeScreen a
        writeLoop b (endState atStart a).1 (endState atStart a).2).run s := by
  have less : a.length < 2 ^ 32 := by
    rw [List.length_append] at short
    omega
  rw [writeScreen, writeScreen, if_pos short, if_pos less]
  exact writeLoop_append a b atStart s

theorem writeAll_single (a : List UInt8) : writeAll [a] = writeScreen a := bind_pure _

theorem writeAll_pair (a b : List UInt8) :
    writeAll [a, b] = (do
      writeScreen a
      writeScreen b) := by
  rw [writeAll, writeAll_single]

theorem pieces_eq (short : (a ++ b).length < 2 ^ 32) (ends : endState atStart a = atStart)
    (s : Screen) : (writeAll [a, b]).run s = (writeAll [a ++ b]).run s := by
  have less : b.length < 2 ^ 32 := by
    rw [List.length_append] at short
    omega
  have second : writeScreen b = writeLoop b 0x0700 0 := by rw [writeScreen, if_pos less]
  rw [writeAll_single, writeAll_pair, writeScreen_append short, ends, second]
  rfl

theorem neverBelow_pair (above : StaysAbove a 0x0700 0 s) (plain : 8 ∉ b) :
    NeverBelow [a, b] s :=
  ⟨above, fun t _ => neverBelow_of_plain (by simpa using plain) t⟩

theorem neverBelow_append (above : StaysAbove a 0x0700 0 s) (plain : 8 ∉ b) :
    NeverBelow [a ++ b] s :=
  ⟨staysAbove_append (p := atStart) above fun t _ => staysAbove_of_plain plain _ _ t,
    fun _ _ => trivial⟩

end Pieces

/-- On any screen and for any first text that stays above cell 0: all texts behind it may be
written by a call of their own if and only if the first one ends outside an escape sequence and
in the first colour. -/
theorem pieces_iff {s : Screen} {a : List UInt8} (h : s.Bounded) (short : a.length + 1 < 2 ^ 32)
    (above : StaysAbove a 0x0700 0 s) :
    (∀ b, (a ++ b).length < 2 ^ 32 → NeverBelow [a, b] s → NeverBelow [a ++ b] s →
      (writeAll [a, b]).run s = (writeAll [a ++ b]).run s) ↔ endState atStart a = atStart := by
  constructor
  · intro all
    by_contra away
    obtain ⟨t, run, bounded⟩ := writeScreen_run h (by omega) above
    obtain ⟨colour, state⟩ := endState_cases a (p := atStart) (.inl rfl) (Nat.zero_le 2)
    obtain ⟨c, plain, differs⟩ := probe_differs bounded colour state away
    have plain' : 8 ∉ [c] := by simpa using plain.symm
    have both : (a ++ [c]).length < 2 ^ 32 := by simpa using short
    have same := all [c] both (neverBelow_pair above plain') (neverBelow_append above plain')
    rw [writeAll_single, writeAll_pair, writeScreen_append both, bind_ok run, bind_ok run] at same
    exact differs same.symm
  · intro ends b short _ _
    exact pieces_eq short ends s

/-- The text may be cut behind a whole line, whatever comes next. -/
theorem pieces_iff_line : (∀ b, ([65, 10] ++ b).length < 2 ^ 32 → NeverBelow [[65, 10], b] .fresh →
      NeverBelow [[65, 10] ++ b] .fresh →
      (writeAll [[65, 10], b]).run .fresh = (writeAll [[65, 10] ++ b]).run .fresh) ↔
    endState atStart [65, 10] = atStart :=
  pieces_iff (by decide) (by decide) (staysAbove_of_plain (by decide) _ _ _)

/-- The bracket behind ESC opens a sequence in the same call and is shown in the next one. -/
theorem bracket_shown : NeverBelow [[27], [91]] .fresh ∧ NeverBelow [[27] ++ [91]] .fresh ∧
    (writeAll [[27], [91]]).run .fresh ≠ (writeAll [[27] ++ [91]]).run .fresh := by
  refine ⟨neverBelow_of_plain (by decide) _, neverBelow_of_plain (by decide) _, fun same => ?_⟩
  have bounded : Screen.fresh.Bounded := by decide
  have start : escape 0x0700 0 91 = (0x0700, 0) := rfl
  have one : (writeAll [[27] ++ [91]]).run .fresh = .ok ((), .fresh) := rfl
  have two : (writeAll [[27], [91]]).run .fresh =
      .ok ((), shown .fresh bounded (cellOf 0x0700 91)) := by
    rw [writeAll_pair]
    exact writeLoop_shown bounded start (by decide)
  rw [one, two] at same
  exact shown_ne_self bounded _ (congrArg (fun r => r.2) (Except.ok.inj same))

end Infos.Drivers
