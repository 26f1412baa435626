import Infos.Lib.Exec
import Infos.Util.Time

/-!
# Delays

`sys_usleep` waits until the runtime of the kernel, which others advance, has come to a target.
-/
namespace Infos.Kernel
open Infos.Lib Infos.Util

/-- The runtime at a call and what the loop observes of it afterwards. -/
structure Runtimes where
  now : Timepoint
  observed : Nat → Timepoint
  after : now.val.val ≤ (observed 0).val.val
  mono : ∀ i, (observed i).val.val ≤ (observed (i + 1)).val.val

/-- `while (sys.runtime() < target)`; the result is the number of the observation that ends it. -/
def spinLoop (observed : Nat → Timepoint) (target : Timepoint) : Nat → Nat → Except Fault Nat
  | 0, _ => .error .outOfFuel
  | fuel + 1, i => if observed i < target then spinLoop observed target fuel (i + 1) else .ok i

def spinDelay (r : Runtimes) (ns : Nanoseconds) (fuel : Nat) : Except Fault Nat :=
  let target := r.now + ns
  spinLoop r.observed target fuel 0

/-- The overload for microseconds. -/
def spinDelayMicroseconds (r : Runtimes) (us : Microseconds) (fuel : Nat) : Except Fault Nat :=
  spinDelay r (durationCast nanoRatio us) fuel

def sysUsleep (r : Runtimes) (us : UInt64) (fuel : Nat) : Except Fault Nat :=
  spinDelayMicroseconds r ⟨us⟩ fuel

/-- Whatever runtimes come after `R`, the call returns when the time is over. -/
def NeverEarly (R us : UInt64) : Prop :=
  ∀ r : Runtimes, r.now.val.val = R → ∀ fuel i, sysUsleep r us fuel = .ok i →
    R.toNat + 1000 * us.toNat ≤ (r.observed i).val.val.toNat

section Spin
variable {observed : Nat → Timepoint} {target : Timepoint} {r : Runtimes} {R us : UInt64}

theorem spinLoop_ends {fuel start i : Nat} (run : spinLoop observed target fuel start = .ok i) :
    ¬ observed i < target := by
  induction fuel generalizing start with
  | zero => cases run
  | succ fuel ih =>
      rw [spinLoop] at run
      by_cases wait : observed start < target
      · rw [if_pos wait] at run
        exact ih run
      · rw [if_neg wait] at run
        cases run
        exact wait

/-- The target is counted in wrapping nanoseconds. -/
theorem sysUsleep_eq (now : r.now.val.val = R) (fuel : Nat) :
    sysUsleep r us fuel = spinLoop r.observed ⟨⟨R + us * 1000⟩⟩ fuel 0 := by
  have target : r.now + durationCast nanoRatio (⟨us⟩ : Microseconds) = ⟨⟨R + us * 1000⟩⟩ := by
    have sum : r.now + durationCast nanoRatio (⟨us⟩ : Microseconds) =
        ⟨r.now.val + durationCast nanoRatio (durationCast nanoRatio (⟨us⟩ : Microseconds))⟩ := rfl
    rw [sum, durationCast_self]
    have value := durationCast_micro ⟨us⟩
    rw [← now]
    exact congrArg (fun v => TimepointImpl.mk (Duration.mk (r.now.val.val + v))) value
  rw [sysUsleep, spinDelayMicroseconds, spinDelay, target]

theorem target_toNat (R us : UInt64) :
    (R + us * 1000).toNat = (R.toNat + 1000 * us.toNat) % 2 ^ 64 := by
  rw [UInt64.toNat_add, UInt64.toNat_mul, Nat.mul_comm us.toNat]
  exact Nat.add_mod_mod _ _ _

end Spin

theorem le_last (x : UInt64) : x ≤ 0xffffffffffffffff := by
  have bound := x.toNat_lt
  have last : (0xffffffffffffffff : UInt64).toNat = 2 ^ 64 - 1 := rfl
  rw [UInt64.le_iff_toNat_le]
  omega

/-- The runtime is `R` and then `x`. -/
def heldAt (R x : UInt64) (le : R ≤ x) : Runtimes where
  now := ⟨⟨R⟩⟩
  observed _ := ⟨⟨x⟩⟩
  after := le
  mono _ := UInt64.le_refl x

theorem heldAt_last_returns (R us : UInt64) :
    sysUsleep (heldAt R 0xffffffffffffffff (le_last R)) us 1 = .ok 0 := by
  rw [sysUsleep_eq rfl, spinLoop, if_neg]
  exact UInt64.not_lt.mpr (le_last _)

/-- `sys_usleep` never returns early if and only if the time at which it is over is a 64-bit
number. -/
theorem usleep_never_early_iff (R us : UInt64) :
    NeverEarly R us ↔ R.toNat + 1000 * us.toNat < 2 ^ 64 := by
  constructor
  · intro never
    have late := never (heldAt R _ (le_last R)) rfl 1 0 (heldAt_last_returns R us)
    exact Nat.lt_of_le_of_lt late (UInt64.toNat_lt _)
  · intro fits r now fuel i run
    rw [sysUsleep_eq now] at run
    have reached := UInt64.le_iff_toNat_le.mp (UInt64.not_lt.mp (spinLoop_ends run))
    rwa [target_toNat, Nat.mod_eq_of_lt fits] at reached

/-- A delay of 2^61 microseconds takes no time at all. -/
theorem usleep_returns_at_once : ¬ NeverEarly 0 0x2000000000000000 := by
  intro never
  have run : sysUsleep (heldAt 0 0 (UInt64.le_refl 0)) 0x2000000000000000 1 = .ok 0 := by
    rw [sysUsleep_eq rfl]
    rfl
  exact absurd (never _ rfl 1 0 run) (by decide)

end Infos.Kernel
