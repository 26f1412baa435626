import Mathlib.Logic.Function.Basic
import Mathlib.Tactic.SplitIfs

/-!
# Rings of cells

A ring has `N` cells, a `head` that the next element leaves from and a `tail`
that the next one is stored at. The two are equal in an empty ring, so at most
`N - 1` elements can be told from none.
-/
namespace Infos.Lib.Ring
open Function

variable {α : Type} {N head tail : Nat}

def length (N head tail : Nat) : Nat := (tail + N - head) % N

/-- The elements from the head to the tail. -/
def contents (cells : Nat → α) (N head tail : Nat) : List α :=
  (List.range (length N head tail)).map fun i => cells ((head + i) % N)

@[simp] theorem length_contents (cells : Nat → α) :
    (contents cells N head tail).length = length N head tail := by
  rw [contents, List.length_map, List.length_range]

theorem length_lt (head_lt : head < N) : length N head tail < N :=
  Nat.mod_lt _ (Nat.zero_lt_of_lt head_lt)

theorem mod_once {a : Nat} (h : a < 2 * N) : a % N = if a < N then a else a - N := by
  split_ifs with once
  · exact Nat.mod_eq_of_lt once
  · rw [Nat.mod_eq_sub_mod (Nat.le_of_not_lt once)]
    apply Nat.mod_eq_of_lt
    omega

theorem length_eq (head_lt : head < N) (tail_lt : tail < N) :
    length N head tail = if head ≤ tail then tail - head else tail + N - head := by
  rw [length, mod_once (by omega)]
  split_ifs <;> omega

theorem length_eq_zero (head_lt : head < N) (tail_lt : tail < N) :
    length N head tail = 0 ↔ head = tail := by
  rw [length_eq head_lt tail_lt]
  split_ifs <;> omega

theorem length_push (head_lt : head < N) (tail_lt : tail < N) :
    length N head ((tail + 1) % N) =
      if length N head tail + 1 = N then 0 else length N head tail + 1 := by
  have next : (tail + 1) % N < N := Nat.mod_lt _ (Nat.zero_lt_of_lt head_lt)
  rw [length_eq head_lt next, length_eq head_lt tail_lt, mod_once (by omega)]
  split_ifs <;> omega

theorem length_pop (head_lt : head < N) (tail_lt : tail < N) (nonempty : head ≠ tail) :
    length N head tail = length N ((head + 1) % N) tail + 1 := by
  have next : (head + 1) % N < N := Nat.mod_lt _ (Nat.zero_lt_of_lt head_lt)
  rw [length_eq next tail_lt, length_eq head_lt tail_lt, mod_once (by omega)]
  split_ifs <;> omega

/-- The tail is the place just behind the contents. -/
theorem tail_eq (head_lt : head < N) (tail_lt : tail < N) :
    (head + length N head tail) % N = tail := by
  rw [length_eq head_lt tail_lt]
  split_ifs with order
  · rw [Nat.add_sub_cancel' order, Nat.mod_eq_of_lt tail_lt]
  · rw [Nat.add_sub_cancel' (by omega), Nat.add_mod_right, Nat.mod_eq_of_lt tail_lt]

/-- An element stored where there is room is the last one. -/
theorem contents_push (cells : Nat → α) (c : α) (head_lt : head < N) (tail_lt : tail < N)
    (room : length N head tail + 1 ≠ N) :
    contents (update cells tail c) N head ((tail + 1) % N) =
      contents cells N head tail ++ [c] := by
  unfold contents
  rw [length_push head_lt tail_lt, if_neg room, List.range_succ, List.map_append]
  congr 1
  · apply List.map_congr_left
    intro i hi
    -- the places before the tail are other places
    have before : i < length N head tail := List.mem_range.mp hi
    have bound : length N head tail < N := length_lt head_lt
    apply update_of_ne
    intro same
    rw [length_eq head_lt tail_lt] at before bound
    rw [mod_once (by omega)] at same
    split_ifs at before bound same <;> omega
  · rw [List.map_singleton, tail_eq head_lt tail_lt, update_self]

/-- An element stored in the last free cell empties the ring. -/
theorem contents_push_last (cells : Nat → α) (c : α) (head_lt : head < N) (tail_lt : tail < N)
    (last : length N head tail + 1 = N) :
    contents (update cells tail c) N head ((tail + 1) % N) = [] := by
  rw [contents, length_push head_lt tail_lt, if_pos last, List.range_zero, List.map_nil]

/-- The first element leaves from the head. -/
theorem contents_pop (cells : Nat → α) (head_lt : head < N) (tail_lt : tail < N)
    (nonempty : head ≠ tail) :
    contents cells N head tail = cells head :: contents cells N ((head + 1) % N) tail := by
  unfold contents
  rw [length_pop head_lt tail_lt nonempty, List.range_succ_eq_map, List.map_cons, List.map_map,
    Nat.add_zero, Nat.mod_eq_of_lt head_lt]
  congr 1
  apply List.map_congr_left
  intro i _
  simp only [Function.comp_apply, Nat.mod_add_mod]
  congr 2
  omega

theorem contents_empty (cells : Nat → α) (head_lt : head < N) :
    contents cells N head head = [] := by
  rw [contents, (length_eq_zero head_lt head_lt).mpr rfl, List.range_zero, List.map_nil]

end Infos.Lib.Ring
