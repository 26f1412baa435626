import Infos.Kernel.SchedRuns
import Infos.Lib.Triple
import Mathlib.Algebra.BigOperators.Finprod

/-!
# The accounting of processor time

The scheduler over any scheduling algorithm, and where the time goes that passes
from one timer tick to the next.
-/
namespace Infos.Kernel.Accounting
open Infos.Lib Function

/-- The virtual functions of `SchedulingAlgorithm`, over what an object of the class keeps. They
may look at the whole kernel and change what is their own. -/
structure Algorithm (ρ : Type) where
  addToRunqueue : EntityId → State → ρ → Except Fault ρ
  removeFromRunqueue : EntityId → State → ρ → Except Fault ρ
  pickNextEntity : State → ρ → Except Fault (Option EntityId × ρ)

/-- `algorithm` is what the installed algorithm keeps, if one is installed; it stands for the
fields `algorithm` and `runqueue` of the kernel, which nothing here reads. -/
structure System (ρ : Type) where
  kernel : State
  algorithm : Option ρ

section Functions
variable {ρ : Type} (A : Algorithm ρ)

def onKernel {α : Type} (x : Exec State α) : Exec (System ρ) α :=
  zoom System.kernel (fun s kernel => { s with kernel }) x

/-- A call of the installed algorithm. -/
def onAlgorithm {α : Type} (f : State → ρ → Except Fault (α × ρ)) : Exec (System ρ) α := do
  let s ← get
  match s.algorithm with
  | none => throw .nullDeref
  | some own => do
      let (a, own) ← lift (f s.kernel own)
      set { s with algorithm := some own }
      pure a

def addToRunqueue (e : EntityId) : Exec (System ρ) Unit :=
  onAlgorithm fun k own => (A.addToRunqueue e k own).map ((), ·)

def removeFromRunqueue (e : EntityId) : Exec (System ρ) Unit :=
  onAlgorithm fun k own => (A.removeFromRunqueue e k own).map ((), ·)

def pickNextEntity : Exec (System ρ) (Option EntityId) := onAlgorithm A.pickNextEntity

def schedule : Exec (System ρ) Unit := do
  let s ← get
  if s.kernel.active = false then pure ()
  else if s.algorithm.isNone then pure ()
  else do
    let next := (← pickNextEntity A).getD s.kernel.idleEntity
    if some next ≠ s.kernel.current then onKernel (switchTo next)
    onKernel updateExecStartTime

def updateRunqueue (e : EntityId) (old new : SchedulingEntityState) : Exec (System ρ) Unit :=
  match new with
  | .runnable => if old = .stopped ∨ old = .sleeping then addToRunqueue A e else pure ()
  | .stopped => if old = .runnable ∨ old = .running then removeFromRunqueue A e else pure ()
  | .sleeping => if old = .runnable ∨ old = .running then removeFromRunqueue A e else pure ()
  | .running => assertThat (old == .runnable)

def wakeLoop (wakeUp : EntityId → Exec (System ρ) Unit) (ev : EventId) :
    List EntityId → Exec (System ρ) Unit
  | [] => pure ()
  | waiter :: rest => do
      wakeUp waiter
      if (← get).kernel.waiters ev = [] then throw .useAfterFree else wakeLoop wakeUp ev rest

def wake (wakeUp : EntityId → Exec (System ρ) Unit) (ev : EventId) : Exec (System ρ) Unit := do
  wakeLoop wakeUp ev ((← get).kernel.waiters ev)
  onKernel (modify fun k => { k with waiters := update k.waiters ev [] })

/-- `fuel` bounds the depth of nested wake-ups. -/
def setEntityState : Nat → EntityId → SchedulingEntityState → Exec (System ρ) Unit
  | 0, _, _ => throw .outOfFuel
  | fuel + 1, e, state => do
      assertThat (← get).algorithm.isSome
      let old := (← get).kernel.stateOf e
      if old = state then pure ()
      else do
        updateRunqueue A e old state
        onKernel (recordState e state)
        wake (fun waiter => setEntityState fuel waiter .runnable) (.entity e)

/-- `Scheduler::init` for an algorithm that was found and keeps `own`. -/
def init (fuel : Nat) (idle : EntityId) (own : ρ) : Exec (System ρ) Unit := do
  modify fun s => ⟨{ s.kernel with idleEntity := idle }, some own⟩
  setEntityState A fuel idle .runnable
  let _ ← onKernel (activate idle none)
  removeFromRunqueue A idle

/-- The timer's interrupt. -/
def timerIrqHandler (ticks : UInt64) : Exec (System ρ) Unit := do
  onKernel (updateRuntime ticks)
  onKernel updateAccounting
  schedule A

end Functions

/-! ### Runs -/

inductive Action (ρ : Type) where
  | init (fuel : Nat) (idle : EntityId) (own : ρ)
  /-- The scheduler goes live. -/
  | run
  | tick (ticks : UInt64)
  | yield
  | setEntityState (fuel : Nat) (e : EntityId) (state : SchedulingEntityState)
  /-- Threads are woken by an event. -/
  | trigger (fuel : Nat) (ev : EventId)
  /-- A thread waits for an event. -/
  | sleep (fuel : Nat) (ev : EventId) (e : EntityId)

section Runs
variable {ρ : Type} (A : Algorithm ρ)

def Action.exec : Action ρ → Exec (System ρ) Unit
  | .init fuel idle own => Accounting.init A fuel idle own
  | .run => onKernel Kernel.run
  | .tick ticks => timerIrqHandler A ticks
  | .yield => schedule A
  | .setEntityState fuel e state => Accounting.setEntityState A fuel e state
  | .trigger fuel ev => wake (fun e => Accounting.setEntityState A fuel e .runnable) ev
  | .sleep fuel ev e => do
      onKernel (modify fun k => { k with waiters := update k.waiters ev (k.waiters ev ++ [e]) })
      Accounting.setEntityState A fuel e .sleeping

/-- A `schedule` here gets past its two checks. -/
def System.Effective (s : System ρ) : Prop := s.kernel.active = true ∧ s.algorithm.isSome = true

instance (s : System ρ) : Decidable s.Effective :=
  inferInstanceAs (Decidable (s.kernel.active = true ∧ s.algorithm.isSome = true))

/-- The runtime at an effective `schedule` of the action. -/
def Action.scheduledAt (s : System ρ) : Action ρ → Option UInt64
  | .tick ticks => if s.Effective then some (s.kernel.runtime + ticks) else none
  | .yield => if s.Effective then some s.kernel.runtime else none
  | _ => none

/-- The runtime does not overflow. -/
def Action.Fits (s : System ρ) : Action ρ → Prop
  | .tick ticks => s.kernel.runtime.toNat + ticks.toNat < 2 ^ 64
  | _ => True

instance (s : System ρ) : (a : Action ρ) → Decidable (a.Fits s)
  | .tick ticks => inferInstanceAs (Decidable (s.kernel.runtime.toNat + ticks.toNat < 2 ^ 64))
  | .init .. | .run | .yield | .setEntityState .. | .trigger .. | .sleep .. => isTrue trivial

/-- What actions from boot on lead to; `first` is the runtime at the first effective schedule. -/
inductive Run : Option UInt64 → System ρ → Prop
  | boot : Run none ⟨.boot, none⟩
  | act {first : Option UInt64} {s s' : System ρ} (a : Action ρ) :
      Run first s → a.Fits s → (a.exec A).run s = .ok ((), s') →
      Run (first.or (a.scheduledAt s)) s'

end Runs

/-- The processor time of all entities, the idle one included. -/
noncomputable def cpuTime (k : State) : Nat := ∑ᶠ e, (k.entities e).cpuRuntime.toNat

def elapsed (first : Option UInt64) (k : State) : Nat :=
  match first with
  | none => 0
  | some start => k.runtime.toNat - start.toNat

/-! ### What is left alone -/

/-- Two states with the same accounts. -/
structure SameAccounts (k k' : State) : Prop where
  cpuRuntime : ∀ e, (k'.entities e).cpuRuntime = (k.entities e).cpuRuntime
  execStartTime : ∀ e, (k'.entities e).execStartTime = (k.entities e).execStartTime
  current : k'.current = k.current
  runtime : k'.runtime = k.runtime

theorem SameAccounts.refl (k : State) : SameAccounts k k :=
  ⟨fun _ => rfl, fun _ => rfl, rfl, rfl⟩

theorem SameAccounts.trans {k k' k'' : State} (h : SameAccounts k k') (h' : SameAccounts k' k'') :
    SameAccounts k k'' where
  cpuRuntime e := (h'.cpuRuntime e).trans (h.cpuRuntime e)
  execStartTime e := (h'.execStartTime e).trans (h.execStartTime e)
  current := h'.current.trans h.current
  runtime := h'.runtime.trans h.runtime

section Frame
variable {ρ α : Type} {A : Algorithm ρ}

/-- The accounts of a system. -/
def Unbooked (s s' : System ρ) : Prop := SameAccounts s.kernel s'.kernel

instance : Std.Refl (Unbooked (ρ := ρ)) := ⟨fun s => .refl s.kernel⟩

instance : IsTrans (System ρ) Unbooked := ⟨fun _ _ _ h h' => h.trans h'⟩

theorem onKernel_run {x : Exec State α} {s : System ρ} {a : α} {k : State}
    (ran : x.run s.kernel = .ok (a, k)) :
    (onKernel x).run s = .ok (a, { s with kernel := k }) :=
  zoom_run ran

theorem onKernel_unbooked {x : Exec State α} (h : Respects SameAccounts x) :
    Respects Unbooked (onKernel x : Exec (System ρ) α) := by
  intro s a s' run
  obtain ⟨k, ran, rfl⟩ := of_zoom_ok run
  exact h s.kernel a k ran

/-- An algorithm has no access to the accounts. -/
theorem onAlgorithm_kernel {f : State → ρ → Except Fault (α × ρ)} {s s' : System ρ} {a : α}
    (run : (onAlgorithm f).run s = .ok (a, s')) : s'.kernel = s.kernel := by
  unfold onAlgorithm at run
  rw [bind_ok (run_get_eq s)] at run
  cases installed : s.algorithm with
  | none =>
      rw [installed] at run
      cases run
  | some own =>
      rw [installed] at run
      obtain ⟨r, s₁, called, rest⟩ := of_bind_ok run
      cases answer : f s.kernel own with
      | error e =>
          rw [answer] at called
          cases called
      | ok b =>
          rw [answer] at called
          cases called
          cases rest
          rfl

theorem onAlgorithm_unbooked (f : State → ρ → Except Fault (α × ρ)) :
    Respects Unbooked (onAlgorithm f) := by
  intro s a s' run
  unfold Unbooked
  rw [onAlgorithm_kernel run]
  exact .refl s.kernel

theorem recordState_accounts (e : EntityId) (state : SchedulingEntityState) :
    Respects SameAccounts (recordState e state) := by
  refine Respects.modify fun k => ⟨fun x => ?_, fun x => ?_, rfl, rfl⟩
  · by_cases same : x = e <;> simp [same]
  · by_cases same : x = e <;> simp [same]

theorem updateRunqueue_unbooked (e : EntityId) (old new : SchedulingEntityState) :
    Respects Unbooked (updateRunqueue A e old new) := by
  cases new with
  | stopped => exact .ite (onAlgorithm_unbooked _) (.ret ())
  | sleeping => exact .ite (onAlgorithm_unbooked _) (.ret ())
  | runnable => exact .ite (onAlgorithm_unbooked _) (.ret ())
  | running => exact .assertThat _

theorem wakeLoop_unbooked {wakeUp : EntityId → Exec (System ρ) Unit} (ev : EventId)
    (each : ∀ e, Respects Unbooked (wakeUp e)) (waiters : List EntityId) :
    Respects Unbooked (wakeLoop wakeUp ev waiters) := by
  induction waiters with
  | nil => exact .ret ()
  | cons waiter rest ih =>
      exact .bind (each waiter) fun _ => .bind .getState fun _ => .ite (.throw _) ih

theorem wake_unbooked {wakeUp : EntityId → Exec (System ρ) Unit} (ev : EventId)
    (each : ∀ e, Respects Unbooked (wakeUp e)) : Respects Unbooked (wake wakeUp ev) := by
  refine .bind .getState fun s => .bind (wakeLoop_unbooked ev each _) fun _ => ?_
  exact onKernel_unbooked (.modify fun k => ⟨fun _ => rfl, fun _ => rfl, rfl, rfl⟩)

theorem setEntityState_unbooked (fuel : Nat) (e : EntityId) (state : SchedulingEntityState) :
    Respects Unbooked (setEntityState A fuel e state) := by
  induction fuel generalizing e state with
  | zero => exact .throw _
  | succ fuel ih =>
      refine .bind .getState fun s => .bind (.assertThat _) fun _ => .bind .getState fun s' => ?_
      refine .ite (.ret ()) (.bind (updateRunqueue_unbooked e _ _) fun _ => ?_)
      refine .bind (onKernel_unbooked (recordState_accounts e state)) fun _ => ?_
      exact wake_unbooked _ fun waiter => ih waiter .runnable

theorem activate_accounts (e : EntityId) (prev : Option EntityId) :
    Respects SameAccounts (activate e prev) := by
  have : Std.Refl SameAccounts := ⟨.refl⟩
  have : IsTrans State SameAccounts := ⟨fun _ _ _ h h' => h.trans h'⟩
  refine .bind .getState fun s => .bind (.assertThat _) fun _ => .ite (.ret true) ?_
  refine .bind (.modify fun k => ?_) fun _ => .ret true
  exact ⟨fun _ => rfl, fun _ => rfl, rfl, rfl⟩

theorem init_unbooked (fuel : Nat) (idle : EntityId) (own : ρ) :
    Respects Unbooked (init A fuel idle own) := by
  refine .bind (.modify fun s => ⟨fun _ => rfl, fun _ => rfl, rfl, rfl⟩) fun _ => ?_
  refine .bind (setEntityState_unbooked fuel idle .runnable) fun _ => ?_
  refine .bind (onKernel_unbooked (activate_accounts idle none)) fun _ => ?_
  exact onAlgorithm_unbooked _

end Frame

/-! ### A schedule -/

/-- A schedule charges nobody. -/
structure SameTimes (k k' : State) : Prop where
  cpuRuntime : ∀ e, (k'.entities e).cpuRuntime = (k.entities e).cpuRuntime
  runtime : k'.runtime = k.runtime

instance : Std.Refl SameTimes := ⟨fun _ => ⟨fun _ => rfl, rfl⟩⟩

instance : IsTrans State SameTimes :=
  ⟨fun _ _ _ h h' =>
    ⟨fun e => (h'.cpuRuntime e).trans (h.cpuRuntime e), h'.runtime.trans h.runtime⟩⟩

/-- The current entity was started just now. -/
def Started (k : State) : Prop :=
  ∃ e, k.current = some e ∧ (k.entities e).execStartTime = k.runtime

section Schedule
variable {ρ : Type} {A : Algorithm ρ} {k k' : State} {s s' : System ρ}

theorem activate_times (e : EntityId) (prev : Option EntityId) :
    Respects SameTimes (activate e prev) := by
  intro k a k' run
  have same := activate_accounts e prev k a k' run
  exact ⟨same.cpuRuntime, same.runtime⟩

theorem switchTo_times (next : EntityId) : Respects SameTimes (switchTo next) := by
  have setCurrent_times : ∀ e, Respects SameTimes (setCurrent e) :=
    fun e => .modify fun k => ⟨fun _ => rfl, rfl⟩
  refine .bind .getState fun k => .bind (activate_times next _) fun _ => ?_
  refine .ite (setCurrent_times next) (.bind .getState fun k => .bind .getState fun k' => ?_)
  exact .bind (activate_times _ _) fun _ => .ite (setCurrent_times _) (.throw _)

theorem updateExecStartTime_started (run : updateExecStartTime.run k = .ok ((), k')) :
    SameTimes k k' ∧ Started k' := by
  unfold updateExecStartTime at run
  rw [bind_ok (run_get_eq k)] at run
  cases current : k.current with
  | none =>
      rw [current] at run
      cases run
  | some e =>
      rw [current] at run
      cases run
      refine ⟨⟨fun x => ?_, rfl⟩, e, current, by simp⟩
      by_cases same : x = e <;> simp [same]

theorem schedule_idle (off : ¬ s.Effective) (run : (schedule A).run s = .ok ((), s')) :
    s' = s := by
  unfold schedule at run
  rw [bind_ok (run_get_eq s)] at run
  split_ifs at run with inactive missing
  · cases run
    rfl
  · cases run
    rfl
  · have active : s.kernel.active = true := by simpa using inactive
    have installed : s.algorithm.isSome = true := by simpa [Option.isSome_iff_ne_none] using missing
    exact absurd ⟨active, installed⟩ off

theorem schedule_started (live : s.Effective) (run : (schedule A).run s = .ok ((), s')) :
    SameTimes s.kernel s'.kernel ∧ Started s'.kernel := by
  obtain ⟨active, installed⟩ := live
  unfold schedule at run
  rw [bind_ok (run_get_eq s), if_neg (by simp [active]),
    if_neg (by simpa [Option.isSome_iff_ne_none] using installed)] at run
  obtain ⟨pick, s₁, picked, run⟩ := of_bind_ok run
  have restart : ∀ {s₂ : System ρ}, SameTimes s.kernel s₂.kernel →
      (onKernel updateExecStartTime).run s₂ = .ok ((), s') →
      SameTimes s.kernel s'.kernel ∧ Started s'.kernel := by
    intro s₂ before run
    obtain ⟨k, started, rfl⟩ := of_zoom_ok run
    obtain ⟨same, now⟩ := updateExecStartTime_started started
    exact ⟨IsTrans.trans _ _ _ before same, now⟩
  dsimp only at run
  split_ifs at run
  · obtain ⟨_, s₂, switched, run⟩ := of_bind_ok run
    obtain ⟨k, changed, rfl⟩ := of_zoom_ok switched
    refine restart ?_ run
    rw [← onAlgorithm_kernel picked]
    exact switchTo_times _ _ _ _ changed
  · refine restart ?_ run
    rw [onAlgorithm_kernel picked]
    exact Std.Refl.refl _

end Schedule

/-! ### Conservation -/

section Totals
variable {ι : Type} [DecidableEq ι] {f : ι → Nat}

/-- One value that grows makes the total grow by as much. -/
theorem finsum_update_add (finite : (support f).Finite) (i : ι) (d : Nat) :
    (support (update f i (f i + d))).Finite ∧
      ∑ᶠ j, update f i (f i + d) j = (∑ᶠ j, f j) + d := by
  have split : update f i (f i + d) = fun j => f j + (Pi.single i d : ι → Nat) j := by
    funext j
    by_cases same : j = i
    · subst same
      simp
    · simp [same]
  have single : (support (Pi.single i d : ι → Nat)).Finite :=
    (Set.finite_singleton i).subset (Pi.support_single_subset)
  have one : ∑ᶠ j, (Pi.single i d : ι → Nat) j = d := by
    rw [finsum_eq_single _ i fun j other => by simp [other], Pi.single_eq_same]
  rw [split]
  exact ⟨(finite.union single).subset (support_add _ _),
    (finsum_add_distrib finite single).trans (by rw [one])⟩

end Totals

/-- An accounting step in this state adds the time since the current entity was started, and
neither that difference nor the sum wraps. -/
def ChargesExactly (k : State) : Prop :=
  ∀ e, k.current = some e → (k.entities e).execStartTime ≤ k.runtime ∧
    ((k.entities e).cpuRuntime +
        Timepoint.sub k.runtime (k.entities e).execStartTime).toNat =
      (k.entities e).cpuRuntime.toNat + (k.runtime.toNat - (k.entities e).execStartTime.toNat)

/-- What holds between actions: whoever is current was charged up to now. -/
structure Balanced (first : Option UInt64) (k : State) : Prop where
  finite : (support fun e => (k.entities e).cpuRuntime.toNat).Finite
  total : cpuTime k = elapsed first k
  past : ∀ start, first = some start → start ≤ k.runtime
  current : k.current.isSome = first.isSome
  started : ∀ e, k.current = some e → (k.entities e).execStartTime = k.runtime

section Conservation
variable {ρ : Type} {A : Algorithm ρ} {first : Option UInt64} {k k' : State} {s s' : System ρ}
  {ticks : UInt64}

theorem cpuTime_congr (same : ∀ e, (k'.entities e).cpuRuntime = (k.entities e).cpuRuntime) :
    cpuTime k' = cpuTime k := by
  unfold cpuTime
  simp only [same]

theorem elapsed_congr (same : k'.runtime = k.runtime) : elapsed first k' = elapsed first k := by
  unfold elapsed
  rw [same]

theorem Balanced.boot : Balanced none State.boot where
  finite := by simp [State.boot]
  total := by simp [cpuTime, elapsed, State.boot]
  past := nofun
  current := rfl
  started := nofun

theorem Balanced.accounts (h : Balanced first k) (same : SameAccounts k k') :
    Balanced first k' where
  finite := by
    simp only [same.cpuRuntime]
    exact h.finite
  total := by rw [cpuTime_congr same.cpuRuntime, elapsed_congr same.runtime, h.total]
  past := by
    rw [same.runtime]
    exact h.past
  current := by rw [same.current, h.current]
  started e current := by
    rw [same.execStartTime, same.runtime]
    exact h.started e (same.current ▸ current)

/-- An effective schedule hands over to an entity that was started now. -/
theorem Balanced.started_now (h : Balanced first k) (same : SameTimes k k') (now : Started k') :
    Balanced (first.or (some k.runtime)) k' where
  finite := by
    simp only [same.cpuRuntime]
    exact h.finite
  total := by
    rw [cpuTime_congr same.cpuRuntime, elapsed_congr same.runtime, h.total]
    cases first with
    | none => simp [elapsed]
    | some start => rfl
  past start known := by
    rw [same.runtime]
    cases first with
    | none =>
        cases known
        exact UInt64.le_refl _
    | some start => exact h.past _ known
  current := by
    obtain ⟨e, current, -⟩ := now
    cases first <;> simp [current]
  started e current := by
    obtain ⟨e', current', start⟩ := now
    cases current.symm.trans current'
    exact start

theorem Balanced.cpuRuntime_le (h : Balanced first k) (e : EntityId) :
    (k.entities e).cpuRuntime.toNat ≤ k.runtime.toNat := by
  have single : (k.entities e).cpuRuntime.toNat ≤ cpuTime k :=
    single_le_finsum e h.finite fun _ => Nat.zero_le _
  rw [h.total] at single
  refine single.trans ?_
  cases first with
  | none => exact Nat.zero_le _
  | some start => exact Nat.sub_le _ _

/-- After `updateRuntime` the current entity is charged exactly the ticks. -/
theorem Balanced.delta (h : Balanced first k) {e : EntityId} (current : k.current = some e) :
    Timepoint.sub (k.runtime + ticks) (k.entities e).execStartTime = ticks := by
  rw [h.started e current, Timepoint.sub, Duration.sub, UInt64.add_comm]
  exact UInt64.add_sub_cancel _ _

theorem toNat_add_of_lt {a b : UInt64} (fits : a.toNat + b.toNat < 2 ^ 64) :
    (a + b).toNat = a.toNat + b.toNat := by
  rw [UInt64.toNat_add]
  exact Nat.mod_eq_of_lt fits

theorem Balanced.chargesExactly (h : Balanced first k)
    (fits : k.runtime.toNat + ticks.toNat < 2 ^ 64) :
    ChargesExactly { k with runtime := k.runtime + ticks } := by
  intro e current
  have small := h.cpuRuntime_le e
  have later := toNat_add_of_lt fits
  have charged : ((k.entities e).cpuRuntime + ticks).toNat =
      (k.entities e).cpuRuntime.toNat + ticks.toNat := toNat_add_of_lt (by omega)
  dsimp only
  rw [h.delta current, h.started e current, UInt64.le_iff_toNat_le]
  omega

/-- The accounting of a tick. -/
theorem Balanced.charge (h : Balanced first k) (fits : k.runtime.toNat + ticks.toNat < 2 ^ 64)
    (run : updateAccounting.run { k with runtime := k.runtime + ticks } = .ok ((), k')) :
    Balanced first k' ∧ k'.runtime = k.runtime + ticks ∧ k'.active = k.active := by
  have later := toNat_add_of_lt fits
  have past : ∀ start, first = some start → start ≤ k.runtime + ticks := by
    intro start known
    have before := UInt64.le_iff_toNat_le.mp (h.past start known)
    rw [UInt64.le_iff_toNat_le, later]
    omega
  cases current : k.current with
  | none =>
      have unknown : first = none := by simpa [current] using h.current.symm
      have idle : updateAccounting.run { k with runtime := k.runtime + ticks } =
          (pure () : Exec State Unit).run { k with runtime := k.runtime + ticks } := by
        unfold updateAccounting
        rw [bind_ok (run_get_eq _)]
        dsimp only
        rw [current]
      cases idle.symm.trans run
      subst unknown
      exact ⟨⟨h.finite, h.total, past, h.current, by simp [current]⟩, rfl, rfl⟩
  | some e =>
      obtain ⟨start, known⟩ : ∃ start, first = some start := by
        rw [← Option.isSome_iff_exists, ← h.current, current]
        rfl
      have charge := updateAccounting_charge (s := { k with runtime := k.runtime + ticks }) current
      dsimp only at charge
      rw [h.delta current] at charge
      cases charge.symm.trans run
      have small := h.cpuRuntime_le e
      have charged : ((k.entities e).cpuRuntime + ticks).toNat =
          (k.entities e).cpuRuntime.toNat + ticks.toNat := toNat_add_of_lt (by omega)
      have grown : (fun x => ((update k.entities e { k.entities e with
            cpuRuntime := (k.entities e).cpuRuntime + ticks
            execStartTime := k.runtime + ticks }) x).cpuRuntime.toNat) =
          update (fun x => (k.entities x).cpuRuntime.toNat) e
            ((k.entities e).cpuRuntime.toNat + ticks.toNat) := by
        funext x
        by_cases same : x = e <;> simp [same, charged]
      obtain ⟨finite, total⟩ := finsum_update_add h.finite e ticks.toNat
      refine ⟨⟨?_, ?_, past, h.current, ?_⟩, rfl, rfl⟩
      · dsimp only
        rw [grown]
        exact finite
      · unfold cpuTime
        dsimp only
        rw [grown, total]
        have total := h.total
        have before := UInt64.le_iff_toNat_le.mp (h.past start known)
        rw [known, elapsed] at total ⊢
        dsimp only at total ⊢
        rw [cpuTime] at total
        rw [total, later]
        omega
      · intro x here
        cases current.symm.trans here
        simp

theorem Balanced.tick (h : Balanced first s.kernel)
    (fits : s.kernel.runtime.toNat + ticks.toNat < 2 ^ 64)
    (run : (timerIrqHandler A ticks).run s = .ok ((), s')) :
    Balanced (first.or (if s.Effective then some (s.kernel.runtime + ticks) else none))
      s'.kernel := by
  obtain ⟨_, s₁, moved, run⟩ := of_bind_ok run
  obtain ⟨k₁, advanced, rfl⟩ := of_zoom_ok moved
  cases advanced
  obtain ⟨_, s₂, accounted, run⟩ := of_bind_ok run
  obtain ⟨k₂, charged, rfl⟩ := of_zoom_ok accounted
  obtain ⟨balanced, runtime, active⟩ := h.charge fits charged
  have same : System.Effective ⟨k₂, s.algorithm⟩ ↔ s.Effective := by
    unfold System.Effective
    rw [active]
  by_cases live : s.Effective
  · obtain ⟨times, now⟩ := schedule_started (same.mpr live) run
    rw [if_pos live, ← runtime]
    exact balanced.started_now times now
  · cases schedule_idle (live ∘ same.mp) run
    rw [if_neg live, Option.or_none]
    exact balanced

theorem Balanced.act (h : Balanced first s.kernel) (a : Action ρ) (fits : a.Fits s)
    (run : (a.exec A).run s = .ok ((), s')) :
    Balanced (first.or (a.scheduledAt s)) s'.kernel := by
  have unbooked : Respects Unbooked (a.exec A) → a.scheduledAt s = none →
      Balanced (first.or (a.scheduledAt s)) s'.kernel := by
    intro kept none
    rw [none, Option.or_none]
    exact h.accounts (kept s () s' run)
  cases a with
  | init fuel idle own => exact unbooked (init_unbooked fuel idle own) rfl
  | run =>
      refine unbooked (onKernel_unbooked (.modify fun k => ?_)) rfl
      exact ⟨fun _ => rfl, fun _ => rfl, rfl, rfl⟩
  | tick ticks => exact h.tick fits run
  | yield =>
      unfold Action.scheduledAt
      by_cases live : s.Effective
      · obtain ⟨times, now⟩ := schedule_started live run
        rw [if_pos live]
        exact h.started_now times now
      · cases schedule_idle live run
        rw [if_neg live, Option.or_none]
        exact h
  | setEntityState fuel e state => exact unbooked (setEntityState_unbooked fuel e state) rfl
  | trigger fuel ev =>
      exact unbooked (wake_unbooked ev fun e => setEntityState_unbooked fuel e .runnable) rfl
  | sleep fuel ev e =>
      refine unbooked (.bind (onKernel_unbooked (.modify fun k => ?_)) fun _ => ?_) rfl
      · exact ⟨fun _ => rfl, fun _ => rfl, rfl, rfl⟩
      · exact setEntityState_unbooked fuel e .sleeping

theorem Run.balanced (run : Run A first s) : Balanced first s.kernel := by
  induction run with
  | boot => exact .boot
  | act a _ fits ran ih => exact ih.act a fits ran

end Conservation

/-- Under any algorithm and after any actions, the entities have used exactly the time since the
first effective schedule, and the accounting of a further tick adds no wrapped difference. -/
theorem cpu_time_conserved {ρ : Type} (A : Algorithm ρ) {first : Option UInt64} {s : System ρ}
    (run : Run A first s) :
    (support fun e => (s.kernel.entities e).cpuRuntime.toNat).Finite ∧
      cpuTime s.kernel = elapsed first s.kernel ∧
      ∀ ticks k, s.kernel.runtime.toNat + ticks.toNat < 2 ^ 64 →
        (updateRuntime ticks).run s.kernel = .ok ((), k) → ChargesExactly k := by
  refine ⟨run.balanced.finite, run.balanced.total, ?_⟩
  intro ticks k fits moved
  cases moved
  exact run.balanced.chargesExactly fits

/-! ### The algorithms of the kernel -/

/-- One of the three algorithms as an object with a run queue of its own. -/
def object (a : SchedulingAlgorithm) : Algorithm (List EntityId) where
  addToRunqueue e k queue :=
    ((Kernel.addToRunqueue e).run { k with runqueue := queue }).map fun r => r.2.runqueue
  removeFromRunqueue e k queue :=
    ((Kernel.removeFromRunqueue e).run { k with runqueue := queue }).map fun r => r.2.runqueue
  pickNextEntity k queue :=
    ((Kernel.pickNextEntity a).run { k with runqueue := queue }).map fun r => (r.1, r.2.runqueue)

/-- The scheduler with such an object is the one with the algorithm built in. -/
theorem schedule_object {a : SchedulingAlgorithm} {s s' : State} (installed : s.algorithm = some a)
    (run : Kernel.schedule.run s = .ok ((), s')) :
    (schedule (object a)).run ⟨s, some s.runqueue⟩ =
      .ok ((), ⟨{ s' with runqueue := s.runqueue }, some s'.runqueue⟩) := by
  unfold Kernel.schedule at run
  unfold schedule
  rw [bind_ok (run_get_eq s), installed] at run
  rw [bind_ok (run_get_eq _)]
  dsimp only at run ⊢
  by_cases off : s.active = false
  · rw [if_pos off] at run ⊢
    cases run
    rfl
  · rw [if_neg off] at run ⊢
    obtain ⟨pick, queue, picked, -⟩ := Kernel.pickNextEntity_run a s
    have answered : (pickNextEntity (object a)).run ⟨s, some s.runqueue⟩ =
        .ok (pick, ⟨s, some queue⟩) := by
      unfold pickNextEntity onAlgorithm object
      rw [bind_ok (run_get_eq _)]
      dsimp only
      rw [picked]
      rfl
    rw [if_neg (by simp), bind_ok answered]
    rw [bind_ok picked] at run
    by_cases same : some (pick.getD s.idleEntity) = s.current
    · rw [if_neg (not_not.mpr same)] at run ⊢
      change updateExecStartTime.run _ = _ at run
      rw [updateExecStartTime_run (s := { s with runqueue := queue }) same.symm] at run
      cases run
      exact onKernel_run (updateExecStartTime_run (s := s) same.symm)
    · rw [if_pos same] at run ⊢
      obtain ⟨_, s₁, switched, started⟩ := of_bind_ok run
      have runnable : s.stateOf (pick.getD s.idleEntity) = .runnable :=
        switchTo_runnable (s := { s with runqueue := queue }) switched
      have other : s.current ≠ some (pick.getD s.idleEntity) := fun e => same e.symm
      cases (switchTo_run (s := { s with runqueue := queue }) runnable other).symm.trans switched
      rw [updateExecStartTime_run rfl] at started
      cases started
      rw [bind_ok (onKernel_run (s := ⟨s, some queue⟩) (switchTo_run runnable other))]
      exact onKernel_run (updateExecStartTime_run rfl)

/-- Whether the actions all return, without an overflow, and end with `p`. -/
def leadsTo {ρ : Type} (A : Algorithm ρ) (p : Option UInt64 → System ρ → Bool) :
    List (Action ρ) → Option UInt64 → System ρ → Bool
  | [], first, s => p first s
  | a :: actions, first, s =>
      match (a.exec A).run s with
      | .error _ => false
      | .ok (_, s') => decide (a.Fits s) && leadsTo A p actions (first.or (a.scheduledAt s)) s'

theorem of_leadsTo {ρ : Type} {A : Algorithm ρ} {p : Option UInt64 → System ρ → Bool}
    (actions : List (Action ρ)) {first : Option UInt64} {s : System ρ} (run : Run A first s)
    (ends : leadsTo A p actions first s = true) :
    ∃ first' s', Run A first' s' ∧ p first' s' = true := by
  induction actions generalizing first s with
  | nil => exact ⟨first, s, run, ends⟩
  | cons a actions ih =>
      unfold leadsTo at ends
      cases ran : (a.exec A).run s with
      | error e => simp [ran] at ends
      | ok r =>
          rw [ran] at ends
          obtain ⟨fits, rest⟩ := Bool.and_eq_true_iff.mp ends
          exact ih (.act a run (of_decide_eq_true fits) ran) rest

/-- Thread 1 and the idle thread 0 under `fifo`: the thread is charged for two of three ticks. -/
theorem cpu_time_conserved_fifo : ∃ s : System (List EntityId),
    Run (object .fifo) (some 10) s ∧ cpuTime s.kernel = 20 ∧
      (s.kernel.entities 1).cpuRuntime = 20 := by
  obtain ⟨first, s, run, ends⟩ := of_leadsTo (A := object .fifo)
    (p := fun first s =>
      first = some 10 ∧ s.kernel.runtime = 30 ∧ (s.kernel.entities 1).cpuRuntime = 20)
    [.init 1 0 [], .run, .setEntityState 1 1 .runnable, .tick 10, .yield, .tick 10,
      .setEntityState 1 1 .sleeping, .tick 10] .boot (by decide +kernel)
  obtain ⟨rfl, runtime, charged⟩ := of_decide_eq_true ends
  refine ⟨s, run, ?_, charged⟩
  rw [(cpu_time_conserved (object .fifo) run).2.1, elapsed, runtime]
  rfl

end Infos.Kernel.Accounting
