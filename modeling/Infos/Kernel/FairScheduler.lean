import Infos.Kernel.SchedRuns
import Infos.Lib.Words

/-!
# The completely fair scheduler

Its pick with the counter of the run queue, and how far the runtimes of the queued
entities drift apart under timer ticks and yields.
-/
namespace Infos.Kernel.CompletelyFair
open Infos.Lib Function

/-- `Scheduler::schedule` with this algorithm installed. -/
def schedule : Exec State Unit := do
  let s ← get
  if s.active = false then pure ()
  else do
    let next := (← pickNextEntity .cfs).getD s.idleEntity
    if some next ≠ s.current then switchTo next
    updateExecStartTime

theorem schedule_eq {s : State} (installed : s.algorithm = some .cfs) :
    schedule.run s = Kernel.schedule.run s := by
  unfold schedule Kernel.schedule
  rw [bind_ok (run_get_eq s), bind_ok (run_get_eq s), installed]

/-! ### The pick -/

/-- The first entity of a queue that no other one is below. -/
def EarliestMinimal (cpuRuntime : EntityId → UInt64) (queue : List EntityId) (e : EntityId) :
    Prop :=
  ∃ front back, queue = front ++ e :: back ∧ (∀ x ∈ front, cpuRuntime e < cpuRuntime x) ∧
    ∀ x ∈ back, cpuRuntime e ≤ cpuRuntime x

section Pick
variable {cpuRuntime : EntityId → UInt64} {queue : List EntityId} {s : State} {e b : EntityId}

theorem minRuntimeEntity_best (b : EntityId) (queue : List EntityId) :
    (minRuntimeEntity cpuRuntime queue (some (b, cpuRuntime b)) = some b ∧
      ∀ x ∈ queue, cpuRuntime b ≤ cpuRuntime x) ∨
    ∃ e, minRuntimeEntity cpuRuntime queue (some (b, cpuRuntime b)) = some e ∧
      cpuRuntime e < cpuRuntime b ∧ EarliestMinimal cpuRuntime queue e := by
  induction queue generalizing b with
  | nil => exact .inl ⟨rfl, nofun⟩
  | cons x rest ih =>
      unfold minRuntimeEntity
      by_cases less : cpuRuntime x < cpuRuntime b
      · rw [if_pos less]
        right
        rcases ih x with ⟨run, least⟩ | ⟨e, run, below, front, back, rfl, ahead, behind⟩
        · exact ⟨x, run, less, [], rest, rfl, nofun, least⟩
        · refine ⟨e, run, UInt64.lt_trans below less, x :: front, back, rfl, ?_, behind⟩
          intro y mem
          rcases List.mem_cons.mp mem with rfl | mem
          · exact below
          · exact ahead y mem
      · rw [if_neg less]
        have le : cpuRuntime b ≤ cpuRuntime x := UInt64.not_lt.mp less
        rcases ih b with ⟨run, least⟩ | ⟨e, run, below, front, back, rfl, ahead, behind⟩
        · left
          refine ⟨run, ?_⟩
          intro y mem
          rcases List.mem_cons.mp mem with rfl | mem
          · exact le
          · exact least y mem
        · right
          refine ⟨e, run, below, x :: front, back, rfl, ?_, behind⟩
          intro y mem
          rcases List.mem_cons.mp mem with rfl | mem
          · exact UInt64.lt_of_lt_of_le below le
          · exact ahead y mem

theorem minRuntimeEntity_earliest (nonempty : queue ≠ []) :
    ∃ e, minRuntimeEntity cpuRuntime queue none = some e ∧
      EarliestMinimal cpuRuntime queue e := by
  obtain ⟨x, rest, rfl⟩ := List.exists_cons_of_ne_nil nonempty
  unfold minRuntimeEntity
  rcases minRuntimeEntity_best x rest with
    ⟨run, least⟩ | ⟨e, run, below, front, back, rfl, ahead, behind⟩
  · exact ⟨x, run, [], rest, rfl, List.forall_mem_nil _, least⟩
  · refine ⟨e, run, x :: front, back, rfl, ?_, behind⟩
    intro y mem
    rcases List.mem_cons.mp mem with rfl | mem
    · exact below
    · exact ahead y mem

theorem EarliestMinimal.mem (h : EarliestMinimal cpuRuntime queue e) : e ∈ queue := by
  obtain ⟨front, back, rfl, -⟩ := h
  simp

theorem EarliestMinimal.le (h : EarliestMinimal cpuRuntime queue e) {x : EntityId}
    (mem : x ∈ queue) : cpuRuntime e ≤ cpuRuntime x := by
  obtain ⟨front, back, rfl, ahead, behind⟩ := h
  rcases List.mem_append.mp mem with mem | mem
  · exact UInt64.le_of_lt (ahead x mem)
  · rcases List.mem_cons.mp mem with rfl | mem
    · exact UInt64.le_refl _
    · exact behind x mem

/-- With a counter of two or more the pick is the earliest entity of minimal runtime. -/
theorem pick_earliest (many : 2 ≤ s.count) :
    ∃ e, (pickNextEntity .cfs).run s = .ok (some e, s) ∧
      EarliestMinimal (fun e => (s.entities e).cpuRuntime) s.runqueue e := by
  have nonempty : s.runqueue ≠ [] := by
    intro empty
    rw [count_nil empty] at many
    exact absurd many (by decide)
  obtain ⟨e, scan, earliest⟩ : ∃ e,
      minRuntimeEntity (fun e => (s.entities e).cpuRuntime) s.runqueue none = some e ∧
        EarliestMinimal (fun e => (s.entities e).cpuRuntime) s.runqueue e :=
    minRuntimeEntity_earliest nonempty
  refine ⟨e, ?_, earliest⟩
  unfold pickNextEntity
  rw [bind_ok (run_get_eq s), if_neg (by omega), if_neg (by omega), scan]
  rfl

end Pick

/-! ### Ticks and yields -/

inductive Step where
  | updateRuntime
  | updateAccounting
  | schedule
  deriving DecidableEq

inductive Action where
  /-- The timer's interrupt. -/
  | tick
  | yield

def Action.steps : Action → List Step
  | .tick => [.updateRuntime, .updateAccounting, .schedule]
  | .yield => [.schedule]

def Step.run (ticks : UInt64) : Step → Exec State Unit
  | .updateRuntime => Kernel.updateRuntime ticks
  | .updateAccounting => Kernel.updateAccounting
  | .schedule => CompletelyFair.schedule

def runSteps (ticks : UInt64) : List Step → Exec State Unit
  | [] => pure ()
  | step :: steps => do
      step.run ticks
      runSteps ticks steps

/-- `P` holds at every point that the steps lead to. -/
def AtEveryPoint (ticks : UInt64) (P : State → Prop) : List Step → State → Prop
  | [], s => P s
  | step :: steps, s =>
      P s ∧ ∀ s', (step.run ticks).run s = .ok ((), s') → AtEveryPoint ticks P steps s'

/-- The runtime of the entity that is charged next stays below `2 ^ 64`. -/
def Charges (s : State) : Prop :=
  ∀ e, s.current = some e → (s.entities e).cpuRuntime.toNat +
    (Timepoint.sub s.runtime (s.entities e).execStartTime).toNat < 2 ^ 64

/-- No accounting on the way overflows. -/
def Exact (ticks : UInt64) : List Step → State → Prop
  | [], _ => True
  | step :: steps, s =>
      (step = .updateAccounting → Charges s) ∧
        ∀ s', (step.run ticks).run s = .ok ((), s') → Exact ticks steps s'

/-- Runtimes of queued entities are at most `d` apart. -/
def Spread (s : State) (d : Nat) : Prop :=
  ∀ a ∈ s.runqueue, ∀ b ∈ s.runqueue,
    (s.entities a).cpuRuntime.toNat ≤ (s.entities b).cpuRuntime.toNat + d

/-- The pick is the entity it should be. -/
def PicksEarliest (s : State) : Prop :=
  ∃ e, (pickNextEntity .cfs).run s = .ok (some e, s) ∧
    EarliestMinimal (fun e => (s.entities e).cpuRuntime) s.runqueue e

/-- The scheduler is active, and the queue has entities enough, at most `d` apart. -/
structure Fair (d : Nat) (s : State) : Prop where
  active : s.active = true
  many : 2 ≤ s.count
  spread : Spread s d

/-- The current entity is a queued one that no other is below, and was started `since` ticks ago. -/
structure Charged (since : UInt64) (s : State) : Prop where
  charged : ∃ e ∈ s.runqueue, s.current = some e ∧
    (s.entities e).execStartTime + since = s.runtime ∧
    ∀ x ∈ s.runqueue, (s.entities e).cpuRuntime ≤ (s.entities x).cpuRuntime

section Runs
variable {s s' : State} {d : Nat} {ticks : UInt64}

/-- The state after a schedule that picks `e`. -/
def scheduledTo (s : State) (e : EntityId) (thread : Option EntityId) : State :=
  let started := { s.entities e with execStartTime := s.runtime }
  { s with current := some e, currentThread := thread, entities := update s.entities e started }

theorem schedule_cases (active : s.active = true) (many : 2 ≤ s.count)
    (run : schedule.run s = .ok ((), s')) :
    ∃ e thread, EarliestMinimal (fun e => (s.entities e).cpuRuntime) s.runqueue e ∧
      s' = scheduledTo s e thread := by
  obtain ⟨e, pick, earliest⟩ := pick_earliest many
  unfold schedule at run
  rw [bind_ok (run_get_eq s), if_neg (by rw [active]; decide), bind_ok pick] at run
  dsimp only [Option.getD_some] at run
  by_cases same : some e = s.current
  · rw [if_neg (not_not.mpr same)] at run
    change updateExecStartTime.run s = _ at run
    rw [updateExecStartTime_run same.symm] at run
    cases run
    refine ⟨e, s.currentThread, earliest, ?_⟩
    unfold scheduledTo
    dsimp only
    rw [← same]
  · rw [if_pos same] at run
    obtain ⟨_, s₁, switched, started⟩ := of_bind_ok run
    rw [switchTo_run (switchTo_runnable switched) fun h => same h.symm] at switched
    cases switched
    rw [updateExecStartTime_run rfl] at started
    cases started
    exact ⟨e, some e, earliest, rfl⟩

theorem schedule_returns (active : s.active = true) (many : 2 ≤ s.count)
    (runnable : ∀ e ∈ s.runqueue, s.stateOf e = .runnable) :
    ∃ s', schedule.run s = .ok ((), s') := by
  obtain ⟨e, pick, earliest⟩ := pick_earliest many
  unfold schedule
  rw [bind_ok (run_get_eq s), if_neg (by rw [active]; decide), bind_ok pick]
  dsimp only [Option.getD_some]
  by_cases same : some e = s.current
  · rw [if_neg (not_not.mpr same)]
    exact ⟨_, updateExecStartTime_run same.symm⟩
  · rw [if_pos same]
    have switched := switchTo_run (runnable e earliest.mem) fun h => same h.symm
    rw [bind_ok switched]
    exact ⟨_, updateExecStartTime_run rfl⟩

theorem scheduledTo_cpuRuntime (e x : EntityId) (thread : Option EntityId) :
    ((scheduledTo s e thread).entities x).cpuRuntime = (s.entities x).cpuRuntime := by
  unfold scheduledTo
  dsimp only
  by_cases same : x = e
  · rw [same, update_self]
  · rw [update_of_ne same]

theorem scheduledTo_stateOf (e x : EntityId) (thread : Option EntityId) :
    (scheduledTo s e thread).stateOf x = s.stateOf x := by
  unfold scheduledTo State.stateOf
  dsimp only
  by_cases same : x = e
  · rw [same, update_self]
  · rw [update_of_ne same]

theorem schedule_charged (active : s.active = true) (many : 2 ≤ s.count)
    (run : schedule.run s = .ok ((), s')) : Charged 0 s' := by
  obtain ⟨e, thread, earliest, rfl⟩ := schedule_cases active many run
  refine ⟨e, earliest.mem, rfl, ?_, ?_⟩
  · unfold scheduledTo
    dsimp only
    rw [update_self, UInt64.add_zero]
  · intro x mem
    rw [scheduledTo_cpuRuntime, scheduledTo_cpuRuntime]
    exact earliest.le mem

theorem Fair.schedule (h : Fair d s) (run : schedule.run s = .ok ((), s')) : Fair d s' := by
  obtain ⟨e, thread, -, rfl⟩ := schedule_cases h.active h.many run
  refine ⟨h.active, h.many, ?_⟩
  intro a ha b hb
  rw [scheduledTo_cpuRuntime, scheduledTo_cpuRuntime]
  exact h.spread a ha b hb

theorem Fair.updateRuntime (h : Fair d s) (charged : Charged 0 s)
    (run : (Kernel.updateRuntime ticks).run s = .ok ((), s')) : Fair d s' ∧ Charged ticks s' := by
  cases run
  obtain ⟨e, mem, current, start, least⟩ := charged
  refine ⟨⟨h.active, h.many, h.spread⟩, e, mem, current, ?_, least⟩
  rw [UInt64.add_zero] at start
  dsimp only
  rw [start]

theorem Fair.updateAccounting (h : Fair d s) (charged : Charged ticks s) (le : ticks.toNat ≤ d)
    (exact : Charges s) (run : Kernel.updateAccounting.run s = .ok ((), s')) : Fair d s' := by
  obtain ⟨e, mem, current, start, least⟩ := charged
  have delta : Timepoint.sub s.runtime (s.entities e).execStartTime = ticks := by
    rw [Timepoint.sub, Duration.sub, ← start, UInt64.add_comm]
    exact UInt64.add_sub_cancel _ _
  have bound := exact e current
  rw [delta] at bound
  rw [updateAccounting_charge current, delta] at run
  cases run
  refine ⟨h.active, h.many, ?_⟩
  have more : ((s.entities e).cpuRuntime + ticks).toNat =
      (s.entities e).cpuRuntime.toNat + ticks.toNat := by
    rw [UInt64.toNat_add]
    exact Nat.mod_eq_of_lt bound
  intro a ha b hb
  have spread := h.spread a ha b hb
  have leastB := UInt64.le_iff_toNat_le.mp (least b hb)
  dsimp only
  by_cases first : a = e
  · rw [first, update_self]
    dsimp only
    rw [more]
    by_cases second : b = e
    · rw [second, update_self]
      dsimp only
      rw [more]
      omega
    · rw [update_of_ne second]
      omega
  · rw [update_of_ne first]
    by_cases second : b = e
    · rw [second, update_self]
      dsimp only
      rw [more]
      rw [second] at spread
      omega
    · rw [update_of_ne second]
      exact spread

theorem Fair.point (h : Fair d s) : Spread s d ∧ PicksEarliest s :=
  ⟨h.spread, pick_earliest h.many⟩

/-- From a schedule on, the bound holds at every point of any ticks and yields. -/
theorem Fair.actions (h : Fair d s) (charged : Charged 0 s) (le : ticks.toNat ≤ d)
    (actions : List Action) (exact : Exact ticks (actions.flatMap Action.steps) s) :
    AtEveryPoint ticks (fun s' => Spread s' d ∧ PicksEarliest s')
      (actions.flatMap Action.steps) s := by
  induction actions generalizing s with
  | nil => exact h.point
  | cons action actions ih =>
      rw [List.flatMap_cons] at exact ⊢
      cases action with
      | tick =>
          refine ⟨h.point, ?_⟩
          intro s₁ run₁
          obtain ⟨h₁, charged₁⟩ := h.updateRuntime charged run₁
          have exact₁ := exact.2 s₁ run₁
          refine ⟨h₁.point, ?_⟩
          intro s₂ run₂
          have h₂ := h₁.updateAccounting charged₁ le (exact₁.1 rfl) run₂
          have exact₂ := exact₁.2 s₂ run₂
          refine ⟨h₂.point, ?_⟩
          intro s₃ run₃
          have charged₃ := schedule_charged h₂.active h₂.many run₃
          exact ih (h₂.schedule run₃) charged₃ (exact₂.2 s₃ run₃)
      | yield =>
          refine ⟨h.point, ?_⟩
          intro s₁ run₁
          have charged₁ := schedule_charged h.active h.many run₁
          exact ih (h.schedule run₁) charged₁ (exact.2 s₁ run₁)

/-- What lets every step return. -/
structure Ready (s : State) : Prop where
  active : s.active = true
  many : 2 ≤ s.count
  runnable : ∀ e ∈ s.runqueue, s.stateOf e = .runnable

theorem Ready.step (h : Ready s) (ticks : UInt64) (step : Step) :
    ∃ s', (step.run ticks).run s = .ok ((), s') ∧ Ready s' := by
  cases step with
  | updateRuntime => exact ⟨_, rfl, h.active, h.many, h.runnable⟩
  | updateAccounting =>
      cases current : s.current with
      | none =>
          refine ⟨s, ?_, h⟩
          unfold Step.run Kernel.updateAccounting
          rw [bind_ok (run_get_eq s), current]
          rfl
      | some e =>
          refine ⟨_, updateAccounting_charge current, h.active, h.many, ?_⟩
          intro x mem
          have same := h.runnable x mem
          unfold State.stateOf at same ⊢
          dsimp only
          by_cases charged : x = e
          · rw [charged, update_self]
            rw [charged] at same
            exact same
          · rw [update_of_ne charged]
            exact same
  | schedule =>
      obtain ⟨s', run⟩ := schedule_returns h.active h.many h.runnable
      refine ⟨s', run, ?_⟩
      obtain ⟨e, thread, -, rfl⟩ := schedule_cases h.active h.many run
      refine ⟨h.active, h.many, ?_⟩
      intro x mem
      rw [scheduledTo_stateOf]
      exact h.runnable x mem

theorem Ready.steps (h : Ready s) (steps : List Step) :
    ∃ s', (runSteps ticks steps).run s = .ok ((), s') := by
  induction steps generalizing s with
  | nil => exact ⟨s, rfl⟩
  | cons step steps ih =>
      obtain ⟨s₁, run, h₁⟩ := h.step ticks step
      obtain ⟨s', rest⟩ := ih h₁
      exact ⟨s', by rw [runSteps, bind_ok run, rest]⟩

end Runs

/-- After a schedule, runtimes that are `d` apart stay within the larger of `d` and the tick,
along all ticks and yields, and the pick is always the earliest entity of minimal runtime. -/
theorem runtimes_stay_together {s₀ s : State} (active : s₀.active = true) (many : 2 ≤ s₀.count)
    (scheduled : schedule.run s₀ = .ok ((), s)) (ticks : UInt64) (d : Nat) (spread : Spread s d)
    (actions : List Action) (exact : Exact ticks (actions.flatMap Action.steps) s) :
    AtEveryPoint ticks (fun s' => Spread s' (max d ticks.toNat) ∧ PicksEarliest s')
      (actions.flatMap Action.steps) s ∧
    ((∀ e ∈ s.runqueue, s.stateOf e = .runnable) →
      ∃ s', (runSteps ticks (actions.flatMap Action.steps)).run s = .ok ((), s')) := by
  have charged := schedule_charged active many scheduled
  obtain ⟨e, thread, -, rfl⟩ := schedule_cases active many scheduled
  constructor
  · have fair : Fair (max d ticks.toNat) (scheduledTo s₀ e thread) := by
      refine ⟨active, many, ?_⟩
      intro a ha b hb
      have := spread a ha b hb
      omega
    exact fair.actions charged (le_max_right _ _) actions exact
  · intro runnable
    have ready : Ready (scheduledTo s₀ e thread) := ⟨active, many, runnable⟩
    exact ready.steps _

/-- Three entities that have run for 5, 0 and 7. -/
def threeEntities : State :=
  { State.boot with
    active := true
    algorithm := some .cfs
    runqueue := [1, 2, 3]
    entities := fun e => ⟨if e = 1 then 5 else if e = 3 then 7 else 0, 0, .runnable⟩ }

theorem threeEntities_together :
    AtEveryPoint 10 (fun s' => Spread s' 10 ∧ PicksEarliest s')
      [.updateRuntime, .updateAccounting, .schedule, .schedule]
      (scheduledTo threeEntities 2 (some 2)) ∧
    ((∀ e ∈ [1, 2, 3], (scheduledTo threeEntities 2 (some 2)).stateOf e = .runnable) →
      ∃ s', (runSteps 10 [.updateRuntime, .updateAccounting, .schedule, .schedule]).run
        (scheduledTo threeEntities 2 (some 2)) = .ok ((), s')) := by
  have active : threeEntities.active = true := rfl
  have many : 2 ≤ threeEntities.count := by decide
  have scheduled : schedule.run threeEntities =
    .ok ((), scheduledTo threeEntities 2 (some 2)) := rfl
  refine runtimes_stay_together active many scheduled 10 7 ?_ [.tick, .yield] ?_
  · unfold Spread
    decide
  · refine ⟨nofun, ?_⟩
    intro s₁ run₁
    cases run₁
    refine ⟨?_, fun s₂ _ => ⟨nofun, fun s₃ _ => ⟨nofun, fun _ _ => trivial⟩⟩⟩
    intro _ e current
    cases current
    decide

/-- Where the counter is zero, a queue with entities in it is taken for an empty one. -/
theorem pickNextEntity_wrapped {s : State} (wrapped : s.count = 0) :
    (pickNextEntity .cfs).run s = .ok (none, s) := by
  unfold pickNextEntity
  rw [bind_ok (run_get_eq s), if_pos wrapped]
  rfl

theorem schedule_wrapped {s : State} (wrapped : s.count = 0) (active : s.active = true)
    (runnable : s.stateOf s.idleEntity = .runnable) (other : s.current ≠ some s.idleEntity) :
    schedule.run s = .ok ((), scheduledTo s s.idleEntity (some s.idleEntity)) := by
  unfold schedule
  rw [bind_ok (run_get_eq s), if_neg (by rw [active]; decide),
    bind_ok (pickNextEntity_wrapped wrapped)]
  dsimp only [Option.getD_none]
  rw [if_pos other.symm, bind_ok (switchTo_run runnable other)]
  exact updateExecStartTime_run rfl

/-- `n` entities, and the idle one. -/
def crowdedQueue (n : Nat) : State :=
  { State.boot with
    active := true
    algorithm := some .cfs
    idleEntity := n
    runqueue := List.range n
    entities := fun _ => ⟨0, 0, .runnable⟩ }

theorem crowdedQueue_not_picked {n : Nat} (wrapped : n % 2 ^ 32 = 0) :
    ∃ s, schedule.run (crowdedQueue n) = .ok ((), s) ∧
      s.runqueue = (crowdedQueue n).runqueue ∧ ¬ PicksEarliest s := by
  have zero : (crowdedQueue n).count = 0 := by
    rw [State.count, crowdedQueue, List.length_range, wrapped]
  have nobody : (crowdedQueue n).current ≠ some n := by
    intro same
    cases same
  refine ⟨_, schedule_wrapped zero rfl rfl nobody, rfl, ?_⟩
  rintro ⟨e, pick, -⟩
  have none := pickNextEntity_wrapped (s := scheduledTo (crowdedQueue n) n (some n)) zero
  have same := none.symm.trans pick
  cases same

/-- With as many entities as make the counter zero again, none of them is picked. -/
theorem fullQueue_not_picked :
    2 ≤ (crowdedQueue (2 ^ 32)).runqueue.length ∧ (crowdedQueue (2 ^ 32)).active = true ∧
      ∃ s, schedule.run (crowdedQueue (2 ^ 32)) = .ok ((), s) ∧
        s.runqueue = (crowdedQueue (2 ^ 32)).runqueue ∧ ¬ PicksEarliest s := by
  refine ⟨?_, rfl, crowdedQueue_not_picked (Nat.mod_self _)⟩
  rw [crowdedQueue, List.length_range]
  decide

end Infos.Kernel.CompletelyFair
