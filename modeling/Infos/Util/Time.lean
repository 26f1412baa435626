import Mathlib.Algebra.Group.Nat.Defs
import Mathlib.Data.Nat.GCD.Basic

/-!
# Durations and time points

The units are ratios, which the compiler reduces and divides; the values are 64-bit numbers.
-/
namespace Infos.Util

/-- `__static_gcd` -/
def staticGcd : Nat → Nat → Nat
  | 0, 0 => 1
  | x, 0 => x
  | x, y + 1 => staticGcd (y + 1) (x % (y + 1))
  termination_by _ y => y
  decreasing_by exact Nat.mod_lt _ (Nat.succ_pos _)

theorem staticGcd_eq {x y : Nat} (some : 0 < x ∨ 0 < y) : staticGcd x y = Nat.gcd x y := by
  induction x, y using staticGcd.induct with
  | case1 => exact absurd some (by decide)
  | case2 x pos =>
      rw [Nat.gcd_zero_right, staticGcd]
      exact pos
  | case3 x y ih =>
      rw [staticGcd, ih (.inl (Nat.succ_pos y)), Nat.gcd_comm x, Nat.gcd_rec (y + 1) x,
        Nat.gcd_comm]

/-- A ratio of the units of time, all of which are positive. -/
structure Ratio where
  num : Nat
  den : Nat
  num_pos : 0 < num
  den_pos : 0 < den

theorem div_staticGcd_pos {x y : Nat} (hx : 0 < x) (hy : 0 < y) :
    0 < x / staticGcd x y ∧ 0 < y / staticGcd x y := by
  rw [staticGcd_eq (.inl hx)]
  exact ⟨Nat.div_gcd_pos_of_pos_left y hx, Nat.div_gcd_pos_of_pos_right x hy⟩

namespace Ratio

/-- `ratio<_Num, _Den>` in lowest terms. -/
def of (num den : Nat) (hn : 0 < num) (hd : 0 < den) : Ratio where
  num := num / staticGcd num den
  den := den / staticGcd num den
  num_pos := (div_staticGcd_pos hn hd).1
  den_pos := (div_staticGcd_pos hn hd).2

variable (a b : Ratio)

/-- The products of `__ratio_divide`. -/
def quotNum : Nat := a.num / staticGcd a.num b.num * (b.den / staticGcd a.den b.den)

def quotDen : Nat := b.num / staticGcd a.num b.num * (a.den / staticGcd a.den b.den)

theorem quotNum_pos : 0 < quotNum a b :=
  Nat.mul_pos (div_staticGcd_pos a.num_pos b.num_pos).1 (div_staticGcd_pos a.den_pos b.den_pos).2

theorem quotDen_pos : 0 < quotDen a b :=
  Nat.mul_pos (div_staticGcd_pos a.num_pos b.num_pos).2 (div_staticGcd_pos a.den_pos b.den_pos).1

def divide : Ratio := of (quotNum a b) (quotDen a b) (quotNum_pos a b) (quotDen_pos a b)

end Ratio

/-- A number of units. -/
structure Duration (unit : Ratio) where
  val : UInt64

structure TimepointImpl (unit : Ratio) where
  val : Duration unit

/-- `DurationCastImpl::DoCast` -/
def doCast (ratio : Ratio) (value : UInt64) : UInt64 :=
  value * ratio.num.toUInt64 / ratio.den.toUInt64

def durationCast {unit : Ratio} (target : Ratio) (v : Duration unit) : Duration target :=
  ⟨doCast (unit.divide target) v.val⟩

section Units
variable {unit other : Ratio}

instance : Add (Duration unit) := ⟨fun l r => ⟨l.val + r.val⟩⟩

/-- The duration is cast to the unit of the time point. -/
instance : HAdd (TimepointImpl unit) (Duration other) (TimepointImpl unit) :=
  ⟨fun lhs rhs => ⟨lhs.val + durationCast unit rhs⟩⟩

instance : LT (TimepointImpl unit) := ⟨fun l r => l.val.val < r.val.val⟩

instance (l r : TimepointImpl unit) : Decidable (l < r) :=
  inferInstanceAs (Decidable (l.val.val < r.val.val))

end Units

theorem million_pos : 0 < 1000000 := by decide
theorem billion_pos : 0 < 1000000000 := by decide

def microRatio : Ratio := .of 1 1000000 Nat.one_pos million_pos
def nanoRatio : Ratio := .of 1 1000000000 Nat.one_pos billion_pos

abbrev Microseconds := Duration microRatio
abbrev Nanoseconds := Duration nanoRatio
abbrev Timepoint := TimepointImpl nanoRatio

section Casts
variable (r : Ratio)

theorem staticGcd_self {x : Nat} (pos : 0 < x) : staticGcd x x = x := by
  rw [staticGcd_eq (.inl pos), Nat.gcd_self]

/-- A cast to the same unit multiplies by 1 and divides by 1. -/
theorem divide_self : (r.divide r).num = 1 ∧ (r.divide r).den = 1 := by
  have num : Ratio.quotNum r r = 1 := by
    rw [Ratio.quotNum, staticGcd_self r.num_pos, staticGcd_self r.den_pos, Nat.div_self r.num_pos,
      Nat.div_self r.den_pos]
  have den : Ratio.quotDen r r = 1 := by
    rw [Ratio.quotDen, staticGcd_self r.num_pos, staticGcd_self r.den_pos, Nat.div_self r.num_pos,
      Nat.div_self r.den_pos]
  rw [Ratio.divide, Ratio.of]
  dsimp only
  rw [num, den, staticGcd_self Nat.one_pos]
  exact ⟨rfl, rfl⟩

theorem micro_divide_nano :
    (microRatio.divide nanoRatio).num = 1000 ∧ (microRatio.divide nanoRatio).den = 1 := by
  simp [Ratio.divide, Ratio.of, Ratio.quotNum, Ratio.quotDen, microRatio, nanoRatio, staticGcd_eq]

theorem doCast_of_den {ratio : Ratio} (whole : ratio.den = 1) (value : UInt64) :
    doCast ratio value = value * ratio.num.toUInt64 := by
  rw [doCast, whole]
  exact UInt64.div_one

theorem durationCast_self (v : Duration r) : durationCast r v = v := by
  obtain ⟨num, den⟩ := divide_self r
  rw [durationCast, doCast_of_den den, num]
  exact congrArg Duration.mk (UInt64.mul_one v.val)

/-- The product wraps. -/
theorem durationCast_micro (v : Microseconds) :
    (durationCast nanoRatio v).val = v.val * 1000 := by
  obtain ⟨num, den⟩ := micro_divide_nano
  rw [durationCast, doCast_of_den den, num]
  rfl

end Casts
end Infos.Util
