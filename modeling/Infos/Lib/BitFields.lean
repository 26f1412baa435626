import Mathlib.Algebra.Group.Int.Defs
import Mathlib.Algebra.Group.Nat.Defs
import Mathlib.Algebra.Order.Ring.Nat

/-!
# Bit fields

Words made of fields with given widths, the lowest first, and the slices that are cut out of a
word by position.
-/
namespace Infos.Lib.BitFields

/-- Fields as width and value; a value is cut to its width. -/
def pack : List (Nat × Nat) → Nat
  | [] => 0
  | (w, v) :: fields => v % 2 ^ w + 2 ^ w * pack fields

def width (fields : List (Nat × Nat)) : Nat := (fields.map Prod.fst).sum

/-- The `w` bits of `x` from bit `offset` on. -/
def slice (x offset w : Nat) : Nat := x / 2 ^ offset % 2 ^ w

section Pack
variable {fields front back : List (Nat × Nat)} {w v offset : Nat}

theorem width_cons (field : Nat × Nat) (fields : List (Nat × Nat)) :
    width (field :: fields) = field.1 + width fields := by
  rw [width, List.map_cons, List.sum_cons]
  rfl

theorem pack_lt (fields : List (Nat × Nat)) : pack fields < 2 ^ width fields := by
  induction fields with
  | nil => exact Nat.one_pos
  | cons field fields ih =>
      obtain ⟨w, v⟩ := field
      rw [width_cons, pack, Nat.pow_add]
      change _ < 2 ^ w * 2 ^ width fields
      have low : v % 2 ^ w < 2 ^ w := Nat.mod_lt v (Nat.two_pow_pos w)
      have high : 2 ^ w * (pack fields + 1) ≤ 2 ^ w * 2 ^ width fields :=
        Nat.mul_le_mul_left _ ih
      rw [Nat.mul_succ] at high
      omega

theorem pack_append (front back : List (Nat × Nat)) :
    pack (front ++ back) = pack front + 2 ^ width front * pack back := by
  induction front with
  | nil =>
      rw [List.nil_append, pack, width]
      simp
  | cons field front ih =>
      obtain ⟨w, v⟩ := field
      rw [List.cons_append, pack, pack, ih, width_cons, Nat.pow_add, Nat.mul_add, Nat.add_assoc,
        Nat.mul_assoc]

theorem slice_pack (front back : List (Nat × Nat)) (w v : Nat) :
    slice (pack (front ++ (w, v) :: back)) (width front) w = v % 2 ^ w := by
  rw [slice, pack_append, Nat.add_mul_div_left _ _ (Nat.two_pow_pos _),
    Nat.div_eq_of_lt (pack_lt front), Nat.zero_add, pack, Nat.add_mul_mod_self_left, Nat.mod_mod]

theorem slice_at {word : Nat} (packed : word = pack fields) (front back : List (Nat × Nat))
    (w v : Nat) (split : fields = front ++ (w, v) :: back) (place : offset = width front) :
    slice word offset w = v % 2 ^ w := by
  rw [packed, split, place]
  exact slice_pack front back w v

theorem pack_split (front back : List (Nat × Nat)) (low high v : Nat) :
    pack (front ++ (low + high, v) :: back) =
      pack (front ++ (low, v) :: (high, v / 2 ^ low) :: back) := by
  rw [pack_append, pack_append]
  congr 2
  simp only [pack]
  rw [Nat.pow_add, Nat.mod_mul, Nat.mul_add, Nat.mul_assoc, Nat.add_assoc]

end Pack
end Infos.Lib.BitFields
