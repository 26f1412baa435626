import Infos.Lib.Exec

/-!
# Character arrays

An array in memory with its bounds: a write outside it is a fault, and so is reading
a cell that was never written. The text at the front of an array is `text.map some`.
-/
namespace Infos.Lib

/-- The cells of an array; one that was never written is `none`. -/
abbrev Buffer := List (Option UInt8)

namespace Buffer

def new (size : Nat) : Buffer := List.replicate size none

def write (b : Buffer) (i : Nat) (c : UInt8) : Except Fault Buffer :=
  if i < b.length then .ok (b.set i (some c)) else .error .outOfBounds

def read (b : Buffer) (i : Nat) : Except Fault UInt8 :=
  match b[i]? with
  | none => .error .outOfBounds
  | some none => .error .uninitialised
  | some (some c) => .ok c

/-- The string that starts at the first cell. -/
def cString : Buffer → Except Fault (List UInt8)
  | [] => .error .outOfBounds
  | none :: _ => .error .uninitialised
  | some c :: b => if c = 0 then .ok [] else (cString b).map (c :: ·)

/-- The bytes in the first `n` cells. -/
def first : Nat → Buffer → Except Fault (List UInt8)
  | 0, _ => .ok []
  | _ + 1, [] => .error .outOfBounds
  | _ + 1, none :: _ => .error .uninitialised
  | n + 1, some c :: b => (first n b).map (c :: ·)

/-- `while (*src && *src != stop) dst[i++] = *src++;` returns `src`, `i` and the array. -/
def copyUntil (stop : UInt8) :
    List UInt8 → Nat → Buffer → Except Fault (List UInt8 × Nat × Buffer)
  | [], i, b => .ok ([], i, b)
  | c :: src, i, b =>
      if c = stop then .ok (c :: src, i, b)
      else do copyUntil stop src (i + 1) (← b.write i c)

/-- The loop from the start of the array, and then `dst[i] = 0;`. -/
def copyToken (stop : UInt8) (src : List UInt8) (b : Buffer) :
    Except Fault (List UInt8 × Nat × Buffer) := do
  let (src, i, b) ← copyUntil stop src 0 b
  let b ← b.write i 0
  .ok (src, i, b)

section Writes
variable {text rest : List (Option UInt8)} {b b' : Buffer} {i : Nat} {c : UInt8}

@[simp] theorem length_new (size : Nat) : (new size).length = size := List.length_replicate

theorem write_inside (inside : i < b.length) : b.write i c = .ok (b.set i (some c)) :=
  if_pos inside

theorem write_outside (outside : b.length ≤ i) : b.write i c = .error .outOfBounds :=
  if_neg (Nat.not_lt.mpr outside)

theorem write_append (text rest : List (Option UInt8)) (c : UInt8) (old : Option UInt8) :
    write (text ++ old :: rest) text.length c = .ok (text ++ some c :: rest) := by
  rw [write_inside (by simp)]
  simp

theorem write_drop (c : UInt8) (room : i < b.length) (front : text.length = i) :
    write (text ++ b.drop i) i c = .ok (text ++ [some c] ++ b.drop (i + 1)) := by
  subst front
  rw [List.drop_eq_getElem_cons room, write_append]
  simp

theorem read_append (text rest : List (Option UInt8)) (c : UInt8) :
    read (text ++ some c :: rest) text.length = .ok c := by
  simp [read]

theorem cString_text (s : List UInt8) (rest : List (Option UInt8)) :
    cString (s.map some ++ some 0 :: rest) = .ok (s.takeWhile (· ≠ 0)) := by
  induction s with
  | nil => rfl
  | cons c s ih =>
      by_cases zero : c = 0
      · simp [cString, zero]
      · simp [cString, zero, ih, Except.map]

theorem cString_append {s : List UInt8} (rest : List (Option UInt8)) (h : 0 ∉ s) :
    cString (s.map some ++ some 0 :: rest) = .ok s := by
  have whole : (s ++ []).takeWhile (· ≠ 0) = s ++ [] :=
    List.takeWhile_append_of_pos fun c mem => decide_eq_true fun zero => h (zero ▸ mem)
  rw [List.append_nil] at whole
  rw [cString_text, whole]

theorem first_append (s : List UInt8) (rest : Buffer) :
    first s.length (s.map some ++ rest) = .ok s := by
  induction s with
  | nil => rfl
  | cons c s ih =>
      rw [List.length_cons, List.map_cons, List.cons_append, first, ih]
      rfl

end Writes

/-! ### A text at the front -/

/-- The array with a text in its first cells. -/
def holding (b : Buffer) (text : List UInt8) : Buffer := text.map some ++ b.drop text.length

section Holding
variable {b : Buffer} {text : List UInt8} {c : UInt8}

@[simp] theorem holding_nil (b : Buffer) : b.holding [] = b := rfl

theorem length_holding (fits : text.length ≤ b.length) : (b.holding text).length = b.length := by
  simp only [holding, List.length_append, List.length_map, List.length_drop]
  omega

theorem holding_cons (room : text.length < b.length) :
    ∃ x, b.holding text = text.map some ++ x :: b.drop (text.length + 1) :=
  ⟨b[text.length], by rw [holding, List.drop_eq_getElem_cons room]⟩

theorem write_holding (c : UInt8) (room : text.length < b.length) :
    (b.holding text).write text.length c = .ok (b.holding (text ++ [c])) := by
  obtain ⟨x, split⟩ := holding_cons room
  have cell := write_append (text.map some) (b.drop (text.length + 1)) c x
  rw [split]
  simpa [holding] using cell

theorem getElem_holding : (b.holding (text ++ [c]))[text.length]? = some (some c) := by
  rw [holding, List.getElem?_append_left (by simp)]
  simp

end Holding

section Copy
variable {stop : UInt8} {src front : List UInt8} {b : Buffer} {i : Nat}

/-- The loop copies everything up to the stop, and faults exactly where that does not fit. -/
theorem copyUntil_eq (stop : UInt8) (src front : List UInt8) (b : Buffer)
    (written : front.length = i) (inside : i ≤ b.length) :
    copyUntil stop src i (front.map some ++ b.drop i) =
      let token := src.takeWhile (· ≠ stop)
      if i + token.length ≤ b.length then
        .ok (src.dropWhile (· ≠ stop), i + token.length,
          (front ++ token).map some ++ b.drop (i + token.length))
      else .error .outOfBounds := by
  induction src generalizing front i with
  | nil => simp [copyUntil, inside]
  | cons c src ih =>
      by_cases stops : c = stop
      · simp [copyUntil, stops, inside]
      · have written' : (front ++ [c]).length = i + 1 := by simp [written]
        rw [copyUntil, if_neg stops]
        rcases Nat.lt_or_ge i b.length with room | full
        · rw [write_drop c room (by simpa using written)]
          have next := ih (front ++ [c]) written' room
          rw [List.map_append, List.map_singleton] at next
          refine Eq.trans next ?_
          simp [stops, Nat.add_assoc, Nat.add_comm 1]
        · have whole : i = b.length := Nat.le_antisymm inside full
          rw [write_outside (by simp [written, whole])]
          simp [stops, whole, bind, Except.bind]

theorem copyToken_eq (stop : UInt8) (src : List UInt8) (b : Buffer) :
    copyToken stop src b =
      let token := src.takeWhile (· ≠ stop)
      if token.length < b.length then
        .ok (src.dropWhile (· ≠ stop), token.length,
          token.map some ++ some 0 :: b.drop (token.length + 1))
      else .error .outOfBounds := by
  have copied : copyUntil stop src 0 b = _ :=
    copyUntil_eq stop src [] b rfl (Nat.zero_le _)
  unfold copyToken
  rw [copied]
  simp only [Nat.zero_add, List.nil_append]
  generalize src.takeWhile (· ≠ stop) = token
  rcases Nat.lt_trichotomy token.length b.length with fits | full | large
  · have closed : write (token.map some ++ b.drop token.length) token.length 0 = _ :=
      write_drop 0 fits (by simp)
    simp [fits, fits.le, closed, bind, Except.bind]
  · have unclosed : write (token.map some) b.length 0 = .error .outOfBounds :=
      write_outside (by simp [full])
    simp [full, unclosed, bind, Except.bind]
  · simp [large.not_ge, large.not_gt, bind, Except.bind]

end Copy
end Buffer
end Infos.Lib
