import Infos.Lib.Buffer
import Mathlib.Data.List.TakeWhile
import Mathlib.Tactic.SplitIfs

/-!
# The shell

A line editor over the characters that `getch` delivers, and the comparison that ends the shell.
Where the characters are used up the shell waits for more.
-/
namespace Infos.User
open Infos.Lib

/-- The `strcmp` of user programs stops at the end of the shorter string. -/
def strcmp : Buffer → Buffer → Except Fault Int
  | [], _ => .error .outOfBounds
  | none :: _, _ => .error .uninitialised
  | some a :: l, r =>
      if a = 0 then .ok 0
      else
        match r with
        | [] => .error .outOfBounds
        | none :: _ => .error .uninitialised
        | some c :: r => if c = 0 then .ok 0 else if a ≠ c then .ok (-1) else strcmp l r

/-- The text `exit`. -/
def exitText : List UInt8 := [101, 120, 105, 116]

/-- `while (n < 127)`: the buffer, `n` and the characters behind the line, or `none` if there is
no end of the line yet. -/
def readLine : List UInt8 → Buffer → Nat → Except Fault (Option (Buffer × Nat × List UInt8))
  | [], commandBuffer, n => if n < 127 then .ok none else .ok (some (commandBuffer, n, []))
  | c :: keys, commandBuffer, n =>
      if n < 127 then
        if c = 0 then readLine keys commandBuffer n
        else if c = 10 then .ok (some (commandBuffer, n, keys))
        else if c = 8 then
          if n > 0 then do readLine keys (← commandBuffer.write (n - 1) 0) (n - 1)
          else readLine keys commandBuffer n
        else do readLine keys (← commandBuffer.write n c) (n + 1)
      else .ok (some (commandBuffer, n, c :: keys))

/-- `if (strcmp("exit", command_buffer) == 0) break;` and the text for `run_command` otherwise. -/
def commandOf (commandBuffer : Buffer) : Except Fault (Option (List UInt8)) := do
  if (← strcmp (exitText.map some ++ [some 0]) commandBuffer) = 0 then .ok none
  else return some (← commandBuffer.cString)

/-- `while (true)`: the texts handed to `run_command`, and whether the loop was left. -/
def mainLoop : Nat → List UInt8 → Except Fault (List (List UInt8) × Bool)
  | 0, _ => .error .outOfFuel
  | fuel + 1, keys => do
      match ← readLine keys (Buffer.new 128) 0 with
      | none => .ok ([], false)
      | some (commandBuffer, n, keys) =>
          if n = 0 then mainLoop fuel keys
          else do
            match ← commandOf (← commandBuffer.write n 0) with
            | none => .ok ([], true)
            | some command => do
                let (commands, left) ← mainLoop fuel keys
                .ok (command :: commands, left)

/-- Every line takes a character. -/
def main (keys : List UInt8) : Except Fault (List (List UInt8) × Bool) :=
  mainLoop (keys.length + 1) keys

/-! ### What was typed -/

/-- A character after a text: NULs do not count, and a backspace takes back the last one. -/
def edit (text : List UInt8) (c : UInt8) : List UInt8 :=
  if c = 0 then text else if c = 8 then text.dropLast else text ++ [c]

/-- The lines after a text that is begun: one ends with a newline or is cut at 127 characters. -/
def linesAfter : List UInt8 → List UInt8 → List (List UInt8)
  | _, [] => []
  | text, c :: keys =>
      if c = 10 then text :: linesAfter [] keys
      else if (edit text c).length = 127 then edit text c :: linesAfter [] keys
      else linesAfter (edit text c) keys

/-- The lines that are not empty. -/
def typedLines (keys : List UInt8) : List (List UInt8) :=
  (linesAfter [] keys).filter fun line => line ≠ []

/-- The lines before the first `exit`. -/
def linesBefore (keys : List UInt8) : List (List UInt8) :=
  (typedLines keys).takeWhile fun line => line ≠ exitText

/-- The lines before `exit` are run, and `exit` ends the shell. -/
def Obeys (keys : List UInt8) : Prop :=
  main keys = .ok (linesBefore keys, decide (exitText ∈ typedLines keys))

/-- One of the texts goes on where the other one ends. -/
def Near (line : List UInt8) : Prop := line <+: exitText ∨ exitText <+: line

instance (line : List UInt8) : Decidable (Near line) :=
  inferInstanceAs (Decidable (line <+: exitText ∨ exitText <+: line))

section Compare

theorem strcmp_eq {s t : List UInt8} (rest rest' : Buffer) (hs : 0 ∉ s) (ht : 0 ∉ t) :
    strcmp (s.map some ++ some 0 :: rest) (t.map some ++ some 0 :: rest') =
      .ok (if t <+: s ∨ s <+: t then 0 else -1) := by
  induction s generalizing t with
  | nil => simp [strcmp]
  | cons a s ih =>
      rw [List.mem_cons, not_or] at hs
      cases t with
      | nil => simp [strcmp, Ne.symm hs.1]
      | cons c t =>
          rw [List.mem_cons, not_or] at ht
          simp only [List.map_cons, List.cons_append, strcmp, if_neg (Ne.symm hs.1),
            if_neg (Ne.symm ht.1)]
          by_cases same : a = c
          · subst same
            rw [if_neg (not_not.mpr rfl), ih hs.2 ht.2]
            simp [List.cons_prefix_cons]
          · rw [if_pos same, if_neg]
            simp [List.cons_prefix_cons, same, Ne.symm same]

end Compare

section Lines
variable {b : Buffer} {text keys rest line : List UInt8} {c : UInt8}

/-- The first line and the characters behind it. -/
def nextLine : List UInt8 → List UInt8 → Option (List UInt8 × List UInt8)
  | _, [] => none
  | text, c :: keys =>
      if c = 10 then some (text, keys)
      else if (edit text c).length = 127 then some (edit text c, keys)
      else nextLine (edit text c) keys

theorem linesAfter_none (h : nextLine text keys = none) : linesAfter text keys = [] := by
  induction keys generalizing text with
  | nil => rfl
  | cons c keys ih =>
      unfold nextLine at h
      unfold linesAfter
      split_ifs at h ⊢
      exact ih h

theorem linesAfter_some (h : nextLine text keys = some (line, rest)) :
    linesAfter text keys = line :: linesAfter [] rest := by
  induction keys generalizing text with
  | nil => cases h
  | cons c keys ih =>
      unfold nextLine at h
      rw [linesAfter]
      split_ifs at h ⊢
      · cases h
        rfl
      · cases h
        rfl
      · exact ih h

/-- The array of the command begins with the text, which has no NUL. -/
structure Holding (b : Buffer) (text : List UInt8) : Prop where
  size : b.length = 128
  front : ∃ cells, b = text.map some ++ cells
  noNul : 0 ∉ text

theorem holding_new : Holding (Buffer.new 128) [] :=
  ⟨Buffer.length_new 128, ⟨_, rfl⟩, List.not_mem_nil⟩

theorem Holding.room (h : Holding b text) (short : text.length < 128) :
    ∃ x cells, b = text.map some ++ x :: cells := by
  obtain ⟨cells, rfl⟩ := h.front
  have size := h.size
  rw [List.length_append, List.length_map] at size
  cases cells with
  | nil => simp at size; omega
  | cons x cells => exact ⟨x, cells, rfl⟩

theorem Holding.push (h : Holding b text) (short : text.length < 127) (some : c ≠ 0) :
    ∃ b', b.write text.length c = .ok b' ∧ Holding b' (text ++ [c]) := by
  obtain ⟨x, cells, rfl⟩ := h.room (Nat.lt_succ_of_lt short)
  have cell := Buffer.write_append (text.map Option.some) cells c x
  rw [List.length_map] at cell
  refine ⟨_, cell, by simpa using h.size, ⟨cells, by simp⟩, ?_⟩
  simpa [h.noNul] using Ne.symm some

theorem Holding.pop (h : Holding b text) (some : text ≠ []) :
    ∃ b', b.write (text.length - 1) 0 = .ok b' ∧ Holding b' text.dropLast := by
  obtain ⟨cells, rfl⟩ := h.front
  obtain ⟨front, last, rfl⟩ : ∃ front last, text = front ++ [last] :=
    ⟨_, _, (List.dropLast_concat_getLast some).symm⟩
  have cell := Buffer.write_append (front.map Option.some) cells 0 (Option.some last)
  rw [List.length_map] at cell
  rw [List.dropLast_concat, List.length_append, List.length_singleton, Nat.add_sub_cancel,
    List.map_append, List.append_assoc]
  refine ⟨_, cell, by simpa using h.size, ⟨_, rfl⟩, fun mem => h.noNul ?_⟩
  exact List.mem_append_left _ mem

theorem readLine_cons (keys : List UInt8) (h : Holding b text) (short : text.length < 127)
    (more : c ≠ 10) :
    ∃ b', readLine (c :: keys) b text.length = readLine keys b' (edit text c).length ∧
      Holding b' (edit text c) := by
  rw [readLine, if_pos short]
  by_cases nul : c = 0
  · rw [if_pos nul, edit, if_pos nul]
    exact ⟨b, rfl, h⟩
  · rw [if_neg nul, if_neg more, edit, if_neg nul]
    by_cases back : c = 8
    · rw [if_pos back, if_pos back]
      by_cases some : text = []
      · subst some
        exact ⟨b, rfl, h⟩
      · obtain ⟨b', run, held⟩ := h.pop some
        rw [if_pos (List.length_pos_iff.mpr some), run]
        exact ⟨b', by rw [List.length_dropLast]; rfl, held⟩
    · obtain ⟨b', run, held⟩ := h.push short nul
      rw [if_neg back, if_neg back, run]
      exact ⟨b', by rw [List.length_append]; rfl, held⟩

theorem readLine_full (keys : List UInt8) (b : Buffer) :
    readLine keys b 127 = .ok (some (b, 127, keys)) := by
  cases keys with
  | nil => rfl
  | cons c keys => rfl

theorem edit_length (text : List UInt8) (c : UInt8) : (edit text c).length ≤ text.length + 1 := by
  unfold edit
  split_ifs
  · exact Nat.le_succ _
  · rw [List.length_dropLast]
    omega
  · rw [List.length_append]
    rfl

theorem readLine_none (h : Holding b text) (short : text.length < 127)
    (waiting : nextLine text keys = none) : readLine keys b text.length = .ok none := by
  induction keys generalizing b text with
  | nil => rw [readLine, if_pos short]
  | cons c keys ih =>
      unfold nextLine at waiting
      split_ifs at waiting with newline full
      obtain ⟨b', run, held⟩ := readLine_cons _ h short newline
      rw [run]
      have := edit_length text c
      exact ih held (by omega) waiting

theorem readLine_some (h : Holding b text) (short : text.length < 127)
    (found : nextLine text keys = some (line, rest)) :
    ∃ b', readLine keys b text.length = .ok (some (b', line.length, rest)) ∧ Holding b' line ∧
      line.length ≤ 127 ∧ rest.length < keys.length := by
  induction keys generalizing b text with
  | nil => cases found
  | cons c keys ih =>
      unfold nextLine at found
      split_ifs at found with newline full
      · cases found
        refine ⟨b, ?_, h, Nat.le_of_lt short, Nat.lt_succ_self _⟩
        rw [readLine, if_pos short, newline]
        rfl
      · cases found
        obtain ⟨b', run, held⟩ := readLine_cons _ h short newline
        refine ⟨b', ?_, held, Nat.le_of_eq full, Nat.lt_succ_self _⟩
        rw [run, full, readLine_full]
      · obtain ⟨b', run, held⟩ := readLine_cons _ h short newline
        have := edit_length text c
        obtain ⟨b'', run', held', fits, less⟩ := ih held (by omega) found
        exact ⟨b'', run.trans run', held', fits, Nat.lt_succ_of_lt less⟩

theorem exitText_noNul : 0 ∉ exitText := by decide

/-- The comparison takes a line for `exit` if it is near. -/
theorem commandOf_holding (h : Holding b line) (fits : line.length ≤ 127) :
    ∃ b', b.write line.length 0 = .ok b' ∧
      commandOf b' = .ok (if Near line then none else some line) := by
  obtain ⟨x, cells, rfl⟩ := h.room (Nat.lt_succ_of_le fits)
  have cell := Buffer.write_append (line.map some) cells 0 x
  rw [List.length_map] at cell
  refine ⟨_, cell, ?_⟩
  have compared := strcmp_eq [] cells exitText_noNul h.noNul
  have text := Buffer.cString_append cells h.noNul
  rw [commandOf, compared, text]
  by_cases near : Near line
  · rw [if_pos near]
    have prefixes : line <+: exitText ∨ exitText <+: line := near
    simp only [prefixes]
    rfl
  · rw [if_neg near]
    have prefixes : ¬ (line <+: exitText ∨ exitText <+: line) := near
    simp only [prefixes]
    rfl

theorem mainLoop_eq {fuel : Nat} (enough : keys.length < fuel) :
    mainLoop fuel keys = .ok ((typedLines keys).takeWhile fun line => ¬ Near line,
      decide (∃ line ∈ typedLines keys, Near line)) := by
  induction fuel generalizing keys with
  | zero => exact absurd enough (Nat.not_lt_zero _)
  | succ fuel ih =>
      have empty : ([] : List UInt8).length < 127 := by decide
      rw [mainLoop]
      cases next : nextLine [] keys with
      | none =>
          have waits := readLine_none holding_new empty next
          rw [List.length_nil] at waits
          rw [waits, typedLines, linesAfter_none next]
          rfl
      | some p =>
          obtain ⟨line, rest⟩ := p
          obtain ⟨b, read, held, fits, less⟩ := readLine_some holding_new empty next
          rw [List.length_nil] at read
          have later := @ih rest (by omega)
          rw [read]
          change (if line.length = 0 then mainLoop fuel rest else _) = _
          by_cases blank : line = []
          · have same : typedLines keys = typedLines rest := by
              rw [typedLines, linesAfter_some next, blank]
              rfl
            rw [if_pos (List.length_eq_zero_iff.mpr blank), later, same]
          · have lines : typedLines keys = line :: typedLines rest := by
              rw [typedLines, linesAfter_some next, List.filter_cons_of_pos (by simpa using blank)]
              rfl
            obtain ⟨b', written, command⟩ := commandOf_holding held fits
            rw [if_neg (mt List.length_eq_zero_iff.mp blank), written, lines]
            by_cases near : Near line
            · rw [if_pos near] at command
              simp [bind, Except.bind, command, near]
            · rw [if_neg near] at command
              simp [bind, Except.bind, command, near, later]

end Lines

theorem near_exit : Near exitText := .inl List.prefix_rfl

/-- The first line that is near decides where the two ways to end differ. -/
theorem ends_alike_iff (lines : List (List UInt8)) :
    ((lines.takeWhile fun line => ¬ Near line) = lines.takeWhile (fun line => line ≠ exitText) ∧
      ((∃ line ∈ lines, Near line) ↔ exitText ∈ lines)) ↔
      ∀ line ∈ lines.takeWhile (fun line => line ≠ exitText), ¬ Near line := by
  induction lines with
  | nil => simp
  | cons line lines ih =>
      by_cases exits : line = exitText
      · subst exits
        simp [near_exit]
      · by_cases near : Near line
        · simp [near, exits]
        · have runs : ((line :: lines).takeWhile fun line => ¬ Near line) =
              line :: lines.takeWhile fun line => ¬ Near line :=
            List.takeWhile_cons_of_pos (by simpa using near)
          have before : ((line :: lines).takeWhile fun line => line ≠ exitText) =
              line :: lines.takeWhile fun line => line ≠ exitText :=
            List.takeWhile_cons_of_pos (by simpa using exits)
          have left : (∃ l ∈ line :: lines, Near l) ↔ ∃ l ∈ lines, Near l := by simp [near]
          have typed : exitText ∈ line :: lines ↔ exitText ∈ lines := by simp [Ne.symm exits]
          rw [runs, before, left, typed, List.forall_mem_cons, and_iff_right near,
            List.cons_inj_right]
          exact ih

/-- The shell does what the lines say if and only if no line before the first `exit` is a
beginning of `exit` or goes on behind it. -/
theorem shell_obeys_iff (keys : List UInt8) :
    Obeys keys ↔ ∀ line ∈ linesBefore keys, ¬ Near line := by
  rw [Obeys, main, mainLoop_eq (Nat.lt_succ_self _), linesBefore, ← ends_alike_iff]
  simp

/-- The letter `e` ends the shell. -/
theorem prefix_exits : ¬ Obeys [101, 10] := by
  intro obeys
  have run : main [101, 10] = .ok ([], true) := by
    rw [main, mainLoop_eq (Nat.lt_succ_self _)]
    rfl
  rw [Obeys, run] at obeys
  exact absurd obeys (by decide)

end Infos.User
