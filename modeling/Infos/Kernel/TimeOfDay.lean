import Mathlib.Algebra.Order.BigOperators.Group.List
import Mathlib.Data.Nat.ModEq

/-!
# The kernel's time of day

`update_runtime` takes the nanoseconds of a tick and moves the time of day
forward by the whole seconds that have gathered.
-/
namespace Infos.Kernel

/-- The fields are of type `unsigned short`. -/
structure TimeOfDay where
  hours : Nat
  minutes : Nat
  seconds : Nat
  deriving DecidableEq, Repr

/-- The part of the kernel that keeps the time; both counters are `uint64_t` nanoseconds. -/
structure Clock where
  runtime : Nat
  ticksSinceLastTodUpdate : Nat
  tod : TimeOfDay
  deriving DecidableEq, Repr

def nanosecondsPerSecond : Nat := 10 ^ 9

def incrementTod (tod : TimeOfDay) : TimeOfDay :=
  let seconds := (tod.seconds + 1) % 2 ^ 16
  if seconds > 59 then
    let minutes := (tod.minutes + 1) % 2 ^ 16
    if minutes > 59 then
      let hours := (tod.hours + 1) % 2 ^ 16
      if hours > 23 then ⟨0, 0, 0⟩ else ⟨hours, 0, 0⟩
    else ⟨tod.hours, minutes, 0⟩
  else ⟨tod.hours, tod.minutes, seconds⟩

/-- The loop of `update_runtime`: a second is taken off only while there is more than one. -/
def takeSeconds (k : Clock) : Clock :=
  if k.ticksSinceLastTodUpdate > nanosecondsPerSecond then
    takeSeconds
      { k with
        ticksSinceLastTodUpdate := k.ticksSinceLastTodUpdate - nanosecondsPerSecond
        tod := incrementTod k.tod }
  else k
termination_by k.ticksSinceLastTodUpdate
decreasing_by
  have : 0 < nanosecondsPerSecond := by decide
  omega

def Clock.advance (k : Clock) (ticks : Nat) : Clock :=
  { k with
    runtime := (k.runtime + ticks) % 2 ^ 64
    ticksSinceLastTodUpdate := (k.ticksSinceLastTodUpdate + ticks) % 2 ^ 64 }

def Clock.updateRuntime (k : Clock) (ticks : Nat) : Clock := takeSeconds (k.advance ticks)

def TimeOfDay.Valid (t : TimeOfDay) : Prop := t.hours < 24 ∧ t.minutes < 60 ∧ t.seconds < 60

instance (t : TimeOfDay) : Decidable t.Valid :=
  inferInstanceAs (Decidable (t.hours < 24 ∧ t.minutes < 60 ∧ t.seconds < 60))

/-- Seconds since midnight. -/
def TimeOfDay.count (t : TimeOfDay) : Nat := 3600 * t.hours + 60 * t.minutes + t.seconds

section Step
variable {t : TimeOfDay} {k : Clock}

theorem incrementTod_spec (valid : t.Valid) :
    (incrementTod t).Valid ∧ (incrementTod t).count = (t.count + 1) % 86400 := by
  obtain ⟨hours, minutes, seconds⟩ := valid
  unfold incrementTod TimeOfDay.Valid TimeOfDay.count
  dsimp only
  split_ifs <;> dsimp only <;> omega

/-- How many seconds the loop takes off: one is always left when there is any. -/
def taken (ticks : Nat) : Nat := (ticks - 1) / nanosecondsPerSecond

theorem taken_step {ticks : Nat} (more : ticks > nanosecondsPerSecond) :
    taken ticks = taken (ticks - nanosecondsPerSecond) + 1 := by
  unfold taken nanosecondsPerSecond at *
  omega

theorem taken_done {ticks : Nat} (done : ¬ ticks > nanosecondsPerSecond) : taken ticks = 0 := by
  unfold taken nanosecondsPerSecond at *
  omega

theorem takeSeconds_spec (valid : k.tod.Valid) :
    (takeSeconds k).runtime = k.runtime ∧
      (takeSeconds k).ticksSinceLastTodUpdate =
        k.ticksSinceLastTodUpdate - nanosecondsPerSecond * taken k.ticksSinceLastTodUpdate ∧
      (takeSeconds k).tod.Valid ∧
      (takeSeconds k).tod.count = (k.tod.count + taken k.ticksSinceLastTodUpdate) % 86400 := by
  induction k using takeSeconds.induct with
  | case1 k more ih =>
      obtain ⟨valid', count⟩ := incrementTod_spec valid
      obtain ⟨runtime, ticks, valid'', count'⟩ := ih valid'
      rw [takeSeconds, if_pos more]
      refine ⟨runtime, ?_, valid'', ?_⟩
      · rw [ticks, taken_step more, Nat.mul_succ, Nat.sub_sub, Nat.add_comm]
      · rw [count', count, Nat.mod_add_mod, taken_step more, Nat.add_assoc, Nat.add_comm 1]
  | case2 k done =>
      rw [takeSeconds, if_neg done, taken_done done]
      refine ⟨rfl, rfl, valid, ?_⟩
      obtain ⟨hours, minutes, seconds⟩ := valid
      unfold TimeOfDay.count
      omega

end Step

/-! ### Runs -/

/-- Where a clock stands after `n` nanoseconds, starting as `start` with no remainder. -/
structure After (start : Clock) (n : Nat) (k : Clock) : Prop where
  runtime : k.runtime = start.runtime + n
  ticks : k.ticksSinceLastTodUpdate = n - nanosecondsPerSecond * taken n
  valid : k.tod.Valid
  count : k.tod.count = (start.tod.count + taken n) % 86400

/-- What a clock should show after `n` nanoseconds. -/
structure Follows (start : Clock) (n : Nat) (k : Clock) : Prop where
  runtime : k.runtime = start.runtime + n
  valid : k.tod.Valid
  count : k.tod.count = (start.tod.count + n / nanosecondsPerSecond) % 86400
  remainder : k.ticksSinceLastTodUpdate = n % nanosecondsPerSecond

section Run
variable {start k : Clock} {n d : Nat} {ds : List Nat}

theorem After.zero (valid : start.tod.Valid) (fresh : start.ticksSinceLastTodUpdate = 0) :
    After start 0 start := by
  refine ⟨rfl, fresh, valid, ?_⟩
  obtain ⟨hours, minutes, seconds⟩ := valid
  unfold TimeOfDay.count taken nanosecondsPerSecond
  omega

theorem taken_add (n d : Nat) :
    taken (n - nanosecondsPerSecond * taken n + d) + taken n = taken (n + d) := by
  unfold taken nanosecondsPerSecond
  omega

theorem After.step (h : After start n k) (bound : start.runtime + (n + d) < 2 ^ 64) :
    After start (n + d) (k.updateRuntime d) := by
  obtain ⟨runtime, ticks, valid, count⟩ := takeSeconds_spec (k := k.advance d) h.valid
  have least : nanosecondsPerSecond * taken n ≤ n := by
    unfold taken nanosecondsPerSecond
    omega
  have total : (k.advance d).runtime = start.runtime + (n + d) := by
    change (k.runtime + d) % 2 ^ 64 = _
    rw [h.runtime, Nat.add_assoc, Nat.mod_eq_of_lt bound]
  have whole : (k.advance d).ticksSinceLastTodUpdate = n - nanosecondsPerSecond * taken n + d := by
    change (k.ticksSinceLastTodUpdate + d) % 2 ^ 64 = _
    rw [h.ticks, Nat.mod_eq_of_lt (by omega)]
  rw [whole] at ticks count
  refine ⟨runtime.trans total, ticks.trans ?_, valid, count.trans ?_⟩
  · have step := taken_add n d
    unfold taken nanosecondsPerSecond at *
    omega
  · change (k.tod.count + _) % 86400 = _
    rw [h.count, Nat.mod_add_mod, Nat.add_assoc, Nat.add_comm (taken n), taken_add]

theorem After.run (h : After start n k) (ds : List Nat)
    (bound : start.runtime + (n + ds.sum) < 2 ^ 64) :
    After start (n + ds.sum) (ds.foldl Clock.updateRuntime k) := by
  induction ds generalizing n k with
  | nil => exact h
  | cons d ds ih =>
      rw [List.sum_cons] at bound
      rw [List.sum_cons, ← Nat.add_assoc]
      exact ih (h.step (by omega)) (by omega)

theorem TimeOfDay.eq_of_count {t u : TimeOfDay} (ht : t.Valid) (hu : u.Valid)
    (same : t.count = u.count) : t = u := by
  obtain ⟨th, tm, ts⟩ := t
  obtain ⟨uh, um, us⟩ := u
  unfold TimeOfDay.Valid TimeOfDay.count at *
  simp only [TimeOfDay.mk.injEq] at *
  omega

theorem After.unique {k' : Clock} (h : After start n k) (h' : After start n k') : k = k' := by
  obtain ⟨runtime, ticks, valid, count⟩ := h
  obtain ⟨runtime', ticks', valid', count'⟩ := h'
  have tod := TimeOfDay.eq_of_count valid valid' (count.trans count'.symm)
  cases k
  cases k'
  simp only [Clock.mk.injEq] at *
  exact ⟨runtime.trans runtime'.symm, ticks.trans ticks'.symm, tod⟩

theorem After.follows_iff (h : After start n k) :
    Follows start n k ↔ n = 0 ∨ ¬ nanosecondsPerSecond ∣ n := by
  constructor
  · intro follows
    have ticks := follows.remainder
    rw [h.ticks] at ticks
    by_contra multiple
    unfold taken nanosecondsPerSecond at *
    omega
  · intro between
    have all : taken n = n / nanosecondsPerSecond := by
      unfold taken nanosecondsPerSecond at *
      omega
    refine ⟨h.runtime, h.valid, all ▸ h.count, ?_⟩
    rw [h.ticks, all, Nat.mod_eq_sub_mul_div]

end Run

/-- After the ticks `ds` the clock shows the time that has passed, and shows it however that time
is split into ticks. -/
def Keeps (start : Clock) (ds : List Nat) : Prop :=
  Follows start ds.sum (ds.foldl Clock.updateRuntime start) ∧
    ∀ ds' : List Nat, ds'.sum = ds.sum →
      ds'.foldl Clock.updateRuntime start = ds.foldl Clock.updateRuntime start

/-- The clock is a second late exactly after a positive whole number of seconds. -/
theorem tod_keeps_iff (start : Clock) (valid : start.tod.Valid)
    (fresh : start.ticksSinceLastTodUpdate = 0) (ds : List Nat)
    (bound : start.runtime + ds.sum < 2 ^ 64) :
    Keeps start ds ↔ ds.sum = 0 ∨ ¬ nanosecondsPerSecond ∣ ds.sum := by
  have reached : ∀ ds' : List Nat, ds'.sum = ds.sum →
      After start ds.sum (ds'.foldl Clock.updateRuntime start) := by
    intro ds' same
    have := (After.zero valid fresh).run ds' (by omega)
    rw [Nat.zero_add, same] at this
    exact this
  have here := reached ds rfl
  constructor
  · rintro ⟨follows, -⟩
    exact here.follows_iff.mp follows
  · intro between
    exact ⟨here.follows_iff.mpr between, fun ds' same => (reached ds' same).unique here⟩

def Clock.midnight : Clock := ⟨0, 0, ⟨0, 0, 0⟩⟩

theorem tod_keeps_iff_two_ticks : Keeps Clock.midnight [600000000, 600000000] :=
  (tod_keeps_iff Clock.midnight (by decide) rfl [600000000, 600000000] (by decide)).mpr
    (.inr (by decide))

/-- One tick of a second leaves the time of day where it was. -/
theorem tod_second_late : ¬ Keeps Clock.midnight [1000000000] := by
  rintro ⟨follows, -⟩
  have origin : After Clock.midnight 0 Clock.midnight := After.zero (by decide) rfl
  have here := origin.run [1000000000] (by decide)
  rw [Nat.zero_add] at here
  exact absurd (here.follows_iff.mp follows) (by decide)

end Infos.Kernel
