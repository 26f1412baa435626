import Mathlib.Algebra.Group.Int.Defs
import Mathlib.Algebra.Group.Nat.Defs
import Mathlib.Data.List.DropRight

/-!
# Numerals

The digits of a number in a base up to 16, as bytes.
-/
namespace Infos.Lib

/-- The digits are `0` to `9` and `a` to `f`. -/
def digitByte (d : Nat) : UInt8 := (Nat.digitChar d).toNat.toUInt8

/-- Without leading zeros. -/
def numeral (base n : Nat) : List UInt8 := (Nat.toDigits base n).map fun c => c.toNat.toUInt8

def digitValue (c : UInt8) : Option Nat :=
  if 48 ≤ c ∧ c ≤ 57 then some (c.toNat - 48)
  else if 97 ≤ c ∧ c ≤ 102 then some (c.toNat - 87)
  else none

def ofNumeral (base : Nat) (l : List UInt8) : Option Nat :=
  l.foldl (fun value c => value.bind fun v =>
    (digitValue c).bind fun d => if d < base then some (base * v + d) else none) (some 0)

/-- A numeral with a sign in front if the number is negative. -/
def signedNumeral (base : Nat) (v : Int) : List UInt8 :=
  (if v < 0 then [45] else []) ++ numeral base v.natAbs

def ofSignedNumeral (base : Nat) : List UInt8 → Option Int
  | [] => none
  | c :: l => if c = 45 then (ofNumeral base l).map fun v : Nat => -(v : Int)
      else (ofNumeral base (c :: l)).map fun v : Nat => (v : Int)

section Numerals
variable {base n d k : Nat}

theorem digitByte_spec (small : d < 16) :
    digitValue (digitByte d) = some d ∧ digitByte d ≠ 32 ∧ digitByte d ≠ 45 ∧
      (digitByte d = 48 ↔ d = 0) := by
  revert d
  decide

theorem numeral_eq_if (proper : 1 < base) (n : Nat) :
    numeral base n = if n < base then [digitByte n]
      else numeral base (n / base) ++ [digitByte (n % base)] := by
  unfold numeral
  rw [Nat.toDigits_eq_if proper]
  split_ifs <;> simp [digitByte]

theorem numeral_ne_nil (base n : Nat) : numeral base n ≠ [] := by simp [numeral]

theorem numeral_zero (proper : 1 < base) : numeral base 0 = [48] := by
  rw [numeral_eq_if proper, if_pos (Nat.lt_trans Nat.one_pos proper)]
  rfl

theorem numeral_length_le (proper : 1 < base) (pos : 0 < k) (bound : n < base ^ k) :
    (numeral base n).length ≤ k := by
  rw [numeral, List.length_map]
  exact (Nat.length_toDigits_le_iff proper pos).mpr bound

/-- The first digit is 0 only for the number 0, and it is never a blank or a sign. -/
theorem numeral_head (proper : 1 < base) (small : base ≤ 16) (n : Nat) :
    ∃ c rest, numeral base n = c :: rest ∧ c ≠ 32 ∧ c ≠ 45 ∧ (c = 48 ↔ n = 0) := by
  induction n using Nat.strong_induction_on with
  | _ n ih =>
      rw [numeral_eq_if proper]
      by_cases one : n < base
      · rw [if_pos one]
        exact ⟨_, [], rfl, (digitByte_spec (one.trans_le small)).2⟩
      · rw [if_neg one]
        have some : n / base ≠ 0 := (Nat.div_pos (Nat.le_of_not_lt one) (by omega)).ne'
        have fewer : n / base < n := Nat.div_lt_self (by omega) proper
        obtain ⟨c, rest, split, blank, sign, zero⟩ := ih (n / base) fewer
        refine ⟨c, rest ++ [digitByte (n % base)], by rw [split]; rfl, blank, sign, ?_⟩
        rw [zero]
        omega

theorem ofNumeral_append_one (l : List UInt8) (c : UInt8) :
    ofNumeral base (l ++ [c]) = (ofNumeral base l).bind fun v =>
      (digitValue c).bind fun d => if d < base then some (base * v + d) else none := by
  simp [ofNumeral, List.foldl_append]

/-- Reading a numeral gives the number back. -/
theorem ofNumeral_numeral (proper : 1 < base) (small : base ≤ 16) (n : Nat) :
    ofNumeral base (numeral base n) = some n := by
  induction n using Nat.strong_induction_on with
  | _ n ih =>
      rw [numeral_eq_if proper]
      by_cases one : n < base
      · have digit := (digitByte_spec (one.trans_le small)).1
        simp [one, ofNumeral, digit]
      · have fewer : n / base < n := Nat.div_lt_self (by omega) proper
        have last : n % base < base := Nat.mod_lt n (by omega)
        have digit := (digitByte_spec (last.trans_le small)).1
        rw [if_neg one, ofNumeral_append_one, ih (n / base) fewer, digit]
        simp [last, Nat.div_add_mod]

theorem ofSignedNumeral_signedNumeral (proper : 1 < base) (small : base ≤ 16) (v : Int) :
    ofSignedNumeral base (signedNumeral base v) = some v := by
  have value := ofNumeral_numeral proper small v.natAbs
  unfold signedNumeral
  by_cases negative : v < 0
  · have back : -(v.natAbs : Int) = v := by omega
    rw [if_pos negative]
    simp only [List.cons_append, List.nil_append, ofSignedNumeral, if_true, value, Option.map_some,
      back]
  · obtain ⟨c, rest, split, _, sign, _⟩ := numeral_head proper small v.natAbs
    have back : (v.natAbs : Int) = v := by omega
    rw [split] at value
    simp only [negative, if_false, List.nil_append, split, ofSignedNumeral, sign, value]
    exact congrArg some back

end Numerals
end Infos.Lib
