import Mathlib.Algebra.Group.Int.Defs
import Mathlib.Algebra.Group.Nat.Defs
import Mathlib.Logic.Function.Basic

/-!
# Bytes of words

Memory by the 64-bit word, little-endian. A byte lives in the word at the
multiple of eight below its address.
-/
namespace Infos.Lib
open Function

abbrev Byte := BitVec 8

def byteOf (w : BitVec 64) (k : Nat) : Byte := (w >>> (8 * k)).setWidth 8

def withByte (w : BitVec 64) (k : Nat) (b : Byte) : BitVec 64 :=
  (w &&& ~~~(0xff#64 <<< (8 * k))) ||| (b.setWidth 64 <<< (8 * k))

def byteAt (mem : Nat → BitVec 64) (a : Nat) : Byte := byteOf (mem (8 * (a / 8))) (a % 8)

def setByte (mem : Nat → BitVec 64) (a : Nat) (b : Byte) : Nat → BitVec 64 :=
  update mem (8 * (a / 8)) (withByte (mem (8 * (a / 8))) (a % 8) b)

def writeBytes (mem : Nat → BitVec 64) (a : Nat) : List Byte → Nat → BitVec 64
  | [] => mem
  | b :: bs => writeBytes (setByte mem a b) (a + 1) bs

/-- The unsigned number that little-endian bytes spell. -/
def leNat : List Byte → Nat
  | [] => 0
  | b :: bs => b.toNat + 256 * leNat bs

theorem getLsbD_ff (i : Nat) : (0xff#64).getLsbD i = decide (i < 8) := by
  rcases Nat.lt_or_ge i 64 with lt | ge
  · revert i; decide
  · rw [BitVec.getLsbD_of_ge _ _ ge, eq_comm, decide_eq_false_iff_not]; omega

theorem getLsbD_byteOf (w : BitVec 64) (k i : Nat) :
    (byteOf w k).getLsbD i = (decide (i < 8) && w.getLsbD (8 * k + i)) := by
  rw [byteOf, BitVec.getLsbD_setWidth, BitVec.getLsbD_ushiftRight]

theorem getLsbD_withByte (w : BitVec 64) (k : Nat) (b : Byte) {i : Nat} (hi : i < 64) :
    (withByte w k b).getLsbD i =
      if 8 * k ≤ i ∧ i < 8 * k + 8 then b.getLsbD (i - 8 * k) else w.getLsbD i := by
  rw [withByte, BitVec.getLsbD_or, BitVec.getLsbD_and, BitVec.getLsbD_not,
    BitVec.getLsbD_shiftLeft, BitVec.getLsbD_shiftLeft, BitVec.getLsbD_setWidth, getLsbD_ff]
  by_cases below : i < 8 * k
  · simp [hi, below, Nat.not_le.mpr below]
  · by_cases above : i < 8 * k + 8
    · have here : i - 8 * k < 8 := by omega
      have low : i - 8 * k < 64 := by omega
      simp [hi, below, above, here, low, Nat.not_lt.mp below]
    · have there : ¬ i - 8 * k < 8 := by omega
      have none : b.getLsbD (i - 8 * k) = false := BitVec.getLsbD_of_ge _ _ (by omega)
      simp [hi, below, above, there, none]

theorem byteOf_withByte_self (w : BitVec 64) {k : Nat} (hk : k < 8) (b : Byte) :
    byteOf (withByte w k b) k = b := by
  apply BitVec.eq_of_getLsbD_eq
  intro i hi
  rw [getLsbD_byteOf, getLsbD_withByte w k b (by omega), if_pos (by omega), decide_eq_true hi,
    Bool.true_and, Nat.add_sub_cancel_left]

theorem byteOf_withByte_ne (w : BitVec 64) {k l : Nat} (hl : l < 8) (ne : l ≠ k) (b : Byte) :
    byteOf (withByte w k b) l = byteOf w l := by
  apply BitVec.eq_of_getLsbD_eq
  intro i hi
  rw [getLsbD_byteOf, getLsbD_byteOf, getLsbD_withByte w k b (by omega), if_neg (by omega)]

section Writes
variable {mem mem' : Nat → BitVec 64} {a x : Nat}

theorem byteAt_congr (same : mem' (8 * (x / 8)) = mem (8 * (x / 8))) :
    byteAt mem' x = byteAt mem x := by
  rw [byteAt, byteAt, same]

theorem byteAt_setByte_self (b : Byte) : byteAt (setByte mem a b) a = b := by
  rw [byteAt, setByte, update_self]
  exact byteOf_withByte_self _ (Nat.mod_lt a (by decide)) b

theorem byteAt_setByte_ne (ne : x ≠ a) (b : Byte) : byteAt (setByte mem a b) x = byteAt mem x := by
  rw [byteAt, byteAt, setByte]
  by_cases word : 8 * (x / 8) = 8 * (a / 8)
  · rw [word, update_self]
    exact byteOf_withByte_ne _ (Nat.mod_lt x (by decide)) (by omega) b
  · rw [update_of_ne word]

/-- Outside the range, a block write changes no byte. -/
theorem byteAt_writeBytes_outside (bs : List Byte) (out : x < a ∨ a + bs.length ≤ x) :
    byteAt (writeBytes mem a bs) x = byteAt mem x := by
  induction bs generalizing mem a with
  | nil => rfl
  | cons b bs ih =>
      rw [List.length_cons] at out
      rw [writeBytes, ih (by omega), byteAt_setByte_ne (by omega)]

theorem byteAt_writeBytes_inside (bs : List Byte) {j : Nat} (inside : j < bs.length) :
    byteAt (writeBytes mem a bs) (a + j) = bs[j] := by
  induction bs generalizing mem a j with
  | nil => exact absurd inside (Nat.not_lt_zero j)
  | cons b bs ih =>
      rw [writeBytes]
      cases j with
      | zero =>
          have before : a < a + 1 := Nat.lt_succ_self a
          change byteAt _ a = b
          rw [byteAt_writeBytes_outside bs (.inl before)]
          exact byteAt_setByte_self b
      | succ j =>
          rw [List.length_cons] at inside
          have shifted : a + (j + 1) = a + 1 + j := by omega
          rw [shifted, ih (by omega), List.getElem_cons_succ]

/-- A block write changes only the words it reaches into. -/
theorem writeBytes_word (bs : List Byte) {w : Nat}
    (out : ∀ j < bs.length, w ≠ 8 * ((a + j) / 8)) : writeBytes mem a bs w = mem w := by
  induction bs generalizing mem a with
  | nil => rfl
  | cons b bs ih =>
      have first : w ≠ 8 * (a / 8) := out 0 (Nat.succ_pos _)
      rw [writeBytes, ih, setByte, update_of_ne first]
      intro j hj
      have later := out (j + 1) (Nat.succ_lt_succ hj)
      rwa [show a + (j + 1) = a + 1 + j by omega] at later

end Writes
end Infos.Lib
