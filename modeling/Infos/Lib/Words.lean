import Mathlib.Algebra.Group.Int.Defs
import Mathlib.Algebra.Group.Nat.Defs
import Mathlib.Data.Int.Basic

/-!
# Machine integers

Conversions between the integer types of C, on mathematical integers.
-/
namespace Infos.Lib

/-- The `int` with the same low 32 bits. -/
def toInt32 (x : Int) : Int := x.bmod (2 ^ 32)

/-- The `unsigned int` with the same low 32 bits. -/
def toUInt32 (x : Int) : Nat := (x % 2 ^ 32).toNat

/-- The `uint64_t` or `size_t` with the same low 64 bits. -/
def toUInt64 (x : Int) : Nat := (x % 2 ^ 64).toNat

theorem toUInt64_natCast {a : Nat} (h : a < 2 ^ 64) : toUInt64 (a : Int) = a := by
  rw [toUInt64]; omega

theorem toUInt32_natCast {a : Nat} (h : a < 2 ^ 32) : toUInt32 (a : Int) = a := by
  rw [toUInt32]; omega

theorem toInt32_natCast {a : Nat} (h : a < 2 ^ 31) : toInt32 (a : Int) = a := by
  rw [toInt32]; exact Int.bmod_eq_of_le (by omega) (by omega)

theorem toInt32_wrap {a : Nat} (lo : 2 ^ 31 ≤ a) (hi : a < 2 ^ 32) :
    toInt32 (a : Int) = (a : Int) - 2 ^ 32 := by
  rw [toInt32, Int.bmod_def, Int.emod_eq_of_lt (by omega) (by omega), if_neg (by omega)]
  rfl

theorem toInt32_bounds (x : Int) : -2 ^ 31 ≤ toInt32 x ∧ toInt32 x < 2 ^ 31 := by
  rw [toInt32]
  have lo := Int.le_bmod (x := x) (m := 2 ^ 32) (by decide)
  have hi := Int.bmod_lt (x := x) (m := 2 ^ 32) (by decide)
  omega

/-- By induction on the bits. -/
theorem or_le_add (x y : Nat) : x ||| y ≤ x + y := by
  induction x using Nat.strongRecOn generalizing y with
  | ind x ih =>
      rcases Nat.eq_zero_or_pos x with rfl | pos
      · rw [Nat.zero_or, Nat.zero_add]
      · have half : (x ||| y) / 2 = x / 2 ||| y / 2 := Nat.or_div_two
        have bit : (x ||| y) % 2 = 1 ↔ x % 2 = 1 ∨ y % 2 = 1 := Nat.or_mod_two_eq_one
        have le := ih (x / 2) (by omega) (y / 2)
        omega

end Infos.Lib
