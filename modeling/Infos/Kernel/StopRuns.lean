import Infos.Kernel.SchedRuns
import Infos.Lib.Triple

/-!
# Stopped threads and wake queues

Stopping a thread leaves it in the wake queues it waits in, and `wake_up` does
not look whether its thread is stopped. A run keeps stopped threads stopped
exactly when no operation empties a queue that leads to one.
-/
namespace Infos.Kernel
open Infos.Lib Function Set

inductive ThreadOp where
  | start (t : EntityId)
  | stop (t : EntityId)
  | wait (ev : EventId)
  | trigger (ev : EventId)
  | schedule

def ThreadOp.exec (fuel : Nat) : ThreadOp → Exec State Unit
  | .start t => Thread.start fuel t
  | .stop t => Thread.stop fuel t
  | .wait ev => Event.wait fuel ev
  | .trigger ev => Event.trigger fuel ev
  | .schedule => Kernel.schedule

/-- Only a running thread waits. -/
def ThreadOp.Valid (s : State) : ThreadOp → Prop
  | .wait _ => ∃ t, s.currentThread = some t ∧ s.stateOf t = .runnable
  | _ => True

/-- `steps` are the operations of a run from `s₀` with the states around them. -/
inductive Run (s₀ : State) : List (State × ThreadOp × State) → State → Prop
  | nil : Run s₀ [] s₀
  | snoc {steps : List (State × ThreadOp × State)} {s s' : State} {op : ThreadOp} {fuel : Nat} :
      Run s₀ steps s → op.Valid s → (op.exec fuel).run s = .ok ((), s') →
      Run s₀ (steps ++ [(s, op, s')]) s'

theorem Run.step {s₀ s s' : State} {steps : List (State × ThreadOp × State)}
    (run : Run s₀ steps s) (fuel : Nat) (op : ThreadOp) (valid : op.Valid s)
    (exec : (op.exec fuel).run s = .ok ((), s')) : Run s₀ (steps ++ [(s, op, s')]) s' :=
  .snoc run valid exec

/-- A stopped thread enters the run queue only when it is started. -/
def StaysStopped (step : State × ThreadOp × State) : Prop :=
  ∀ t, step.1.stateOf t = .stopped → t ∈ step.2.2.runqueue → step.2.1 = .start t

/-- The event whose wake queue an operation empties. -/
def ThreadOp.event (s : State) : ThreadOp → Option EventId
  | .start t => if s.stateOf t = .runnable then none else some (.entity t)
  | .stop t => if s.stateOf t = .stopped then none else some (.entity t)
  | .wait _ => s.currentThread.map .entity
  | .trigger ev => some ev
  | .schedule => none

/-- No stopped thread, but for one being started, waits for the event that the operation
triggers, directly or through sleeping threads that do. -/
def NoStoppedWaiter (s : State) (op : ThreadOp) : Prop :=
  ∀ ev, op.event s = some ev → ∀ t, s.Cascade (s.roots ev) t → s.stateOf t = .stopped →
    op = .start t

/-- The same entities queued, in the same states. -/
structure State.SameStates (s₀ s : State) : Prop where
  queue : s.runqueue.Perm s₀.runqueue
  states : ∀ e, s.stateOf e = s₀.stateOf e
  algorithm : s.algorithm = s₀.algorithm

section Schedule
variable {s₀ s : State}

theorem State.SameStates.refl (s : State) : s.SameStates s := ⟨List.Perm.refl _, fun _ => rfl, rfl⟩

theorem State.SameStates.queued (same : s₀.SameStates s) (h : Queued s₀) : Queued s where
  algorithm := same.algorithm ▸ h.algorithm
  notRunning := fun e => same.states e ▸ h.notRunning e
  nodup := same.queue.nodup_iff.mpr h.nodup
  runnable := fun e he => (same.states e).trans (h.runnable e (same.queue.mem_iff.mp he))

theorem pickNextEntity_same (algorithm : SchedulingAlgorithm) :
    Triple s₀.SameStates (pickNextEntity algorithm) fun _ => s₀.SameStates := by
  intro s pick s' h run
  obtain ⟨_, queue, run', perm, _⟩ := pickNextEntity_run algorithm s
  cases run'.symm.trans run
  exact ⟨perm.trans h.queue, h.states, h.algorithm⟩

theorem activate_same (e : EntityId) (prev : Option EntityId) :
    Triple s₀.SameStates (activate e prev) fun _ => s₀.SameStates := by
  unfold activate
  refine Triple.bind Triple.getState ?_
  intro s
  refine Triple.bind (Triple.assertThat _ fun _ h _ => h) ?_
  intro _
  refine Triple.ite ?_ ?_
  · exact fun _ => Triple.ret true fun _ h => h
  · rintro _ s _ s' h run
    cases run
    exact ⟨h.queue, h.states, h.algorithm⟩

theorem setCurrent_same (e : EntityId) :
    Triple s₀.SameStates (setCurrent e) fun _ => s₀.SameStates := by
  intro s _ s' h run
  cases run
  exact ⟨h.queue, h.states, h.algorithm⟩

theorem switchTo_same (e : EntityId) :
    Triple s₀.SameStates (switchTo e) fun _ => s₀.SameStates := by
  unfold switchTo
  refine Triple.bind Triple.getState ?_
  intro s
  refine Triple.bind (activate_same _ _) ?_
  intro activated
  refine Triple.ite ?_ ?_
  · exact fun _ => setCurrent_same e
  · intro _
    refine Triple.bind Triple.getState ?_
    intro s
    refine Triple.bind Triple.getState ?_
    intro s'
    refine Triple.bind (activate_same _ _) ?_
    intro activated
    refine Triple.ite ?_ ?_
    · exact fun _ => setCurrent_same _
    · exact fun _ => Triple.throw _

theorem updateExecStartTime_same :
    Triple s₀.SameStates updateExecStartTime fun _ => s₀.SameStates := by
  unfold updateExecStartTime
  refine Triple.bind Triple.getState ?_
  intro s
  split
  next => exact Triple.throw _
  next e =>
    intro s _ s' h run
    cases run
    refine ⟨h.queue, fun x => ?_, h.algorithm⟩
    rw [← h.states]
    unfold State.stateOf
    dsimp only
    rw [update_apply]
    split
    next same => rw [same]
    next => rfl

theorem schedule_same : Triple s₀.SameStates schedule fun _ => s₀.SameStates := by
  unfold schedule
  refine Triple.bind Triple.getState ?_
  intro s
  refine Triple.ite ?_ ?_
  · exact fun _ => Triple.ret () fun _ h => h
  · intro _
    split
    next => exact Triple.ret () fun _ h => h
    next algorithm _ =>
      refine Triple.bind (pickNextEntity_same algorithm) ?_
      intro pick
      refine Triple.ite ?_ ?_
      · intro _
        refine Triple.bind (switchTo_same _) ?_
        intro _
        exact updateExecStartTime_same
      · exact fun _ => updateExecStartTime_same

end Schedule

section Steps
variable {s s' : State} {e t : EntityId} {ev : EventId} {new : SchedulingEntityState} {fuel : Nat}
  {ws : List EntityId}

theorem setEntityState_ok (ready : s.Ready) (running : new ≠ .running)
    (run : (setEntityState fuel e new).run s = .ok ((), s')) :
    s.stateOf e = new ∧ s' = s ∨ s.stateOf e ≠ new ∧
      ∃ ws, Woke (s.changed e new) (s.roots (.entity e)) ws ∧ e ∉ ws ∧
        s' = ((s.changed e new).woken ws).drained (.entity e) := by
  cases fuel with
  | zero => cases run
  | succ fuel =>
      by_cases same : s.stateOf e = new
      · rw [setEntityState_same ready same] at run
        cases run
        exact .inl ⟨same, rfl⟩
      · have all := setEntityState_run fuel ready running same
        rw [run] at all
        cases all with
        | ok woke kept => exact .inr ⟨same, _, woke, kept e rfl, rfl⟩

theorem trigger_ok (ready : s.Ready) (run : (Event.trigger fuel ev).run s = .ok ((), s')) :
    ∃ ws, Woke s (s.roots ev) ws ∧ s' = (s.woken ws).drained ev := by
  have all := trigger_run fuel ev ready
  rw [run] at all
  cases all with
  | ok woke _ => exact ⟨_, woke, rfl⟩

/-- A change of `e`'s own state does not matter to the cascade of those that wait for it. -/
theorem cascade_changed (other : t ≠ e)
    (apart : ¬ (s.changed e new).Cascade (s.roots (.entity e)) e) :
    (s.changed e new).Cascade (s.roots (.entity e)) t ↔ s.Cascade (s.roots (.entity e)) t := by
  have asleep : ∀ x, x ≠ e → (x ∈ (s.changed e new).asleep ↔ x ∈ s.asleep) := by
    intro x hx
    change (s.changed e new).stateOf x ≠ _ ↔ _
    rw [stateOf_changed, if_neg hx]
    rfl
  constructor
  · intro h
    apply Lib.Cascade.within h
    intro x hx
    exact (asleep x fun same => apart (same ▸ hx)).mp hx.was_asleep
  · intro h
    apply (Lib.Cascade.detour h other).mono (fun _ _ _ he => he) ?_ fun _ _ hr => hr
    intro x hx
    exact (asleep x hx.2).mpr hx.1

theorem Queued.enters_changed (h : Queued s) (differs : s.stateOf e ≠ new)
    (woke : Woke (s.changed e new) (s.roots (.entity e)) ws) (apart : e ∉ ws)
    (stopped : s.stateOf t = .stopped) :
    t ∈ (((s.changed e new).woken ws).drained (.entity e)).runqueue ↔
      t = e ∧ new = .runnable ∨ t ≠ e ∧ s.Cascade (s.roots (.entity e)) t := by
  have outside : t ∉ s.runqueue := by
    intro queued
    exact absurd (stopped.symm.trans (h.runnable t queued)) nofun
  change t ∈ (s.changed e new).runqueue ++ ws ↔ _
  rw [List.mem_append, h.mem_changed differs]
  by_cases same : t = e
  · simp [same, apart]
  · rw [woke.mem] at apart
    rw [woke.mem, cascade_changed same apart]
    simp [same, outside]

theorem change_ok (run : (Thread.change fuel e new).run s = .ok ((), s')) :
    ∃ s₁, (setEntityState fuel e new).run s = .ok ((), s₁) ∧ s₁.SameStates s' := by
  unfold Thread.change at run
  obtain ⟨_, s₁, set, run⟩ := of_bind_ok run
  refine ⟨s₁, set, ?_⟩
  rw [bind_ok (run_get_eq s₁)] at run
  split at run
  next => exact schedule_same s₁ () s' (.refl s₁) run
  next =>
    cases run
    exact .refl _

theorem Queued.enters_change (h : Queued s) (asleep : new ≠ .runnable) (running : new ≠ .running)
    (run : (Thread.change fuel e new).run s = .ok ((), s')) :
    Queued s' ∧ ∀ t, s.stateOf t = .stopped → (t ∈ s'.runqueue ↔
      s.stateOf e ≠ new ∧ t ≠ e ∧ s.Cascade (s.roots (.entity e)) t) := by
  obtain ⟨s₁, set, same⟩ := change_ok run
  rcases setEntityState_ok h.toReady running set with ⟨eq, rfl⟩ | ⟨differs, ws, woke, apart, rfl⟩
  · refine ⟨same.queued h, fun t stopped => ?_⟩
    have outside : t ∉ s₁.runqueue := by
      intro queued
      exact absurd (stopped.symm.trans (h.runnable t queued)) nofun
    rw [same.queue.mem_iff]
    simp [eq, outside]
  · refine ⟨same.queued ((h.changed running differs).woken woke).drained, fun t stopped => ?_⟩
    rw [same.queue.mem_iff, h.enters_changed differs woke apart stopped]
    simp [asleep, differs]

/-- A running thread that joins a queue is not asleep, so no cascade sees it there. -/
theorem cascade_appended (awake : s.stateOf e = .runnable) :
    (s.appended ev e).Cascade ((s.appended ev e).roots (.entity e)) t ↔
      s.Cascade (s.roots (.entity e)) t := by
  have joins : ∀ ev', ∀ v ∈ s.asleep, v ∈ (s.appended ev e).waiters ev' ↔ v ∈ s.waiters ev' := by
    intro ev' v hv
    rw [mem_waiters_appended]
    refine ⟨fun h => h.resolve_right fun new => hv (new.2 ▸ awake), .inl⟩
  constructor
  · intro h
    exact h.mono (fun u v hv => (joins (.entity u) v hv).mp) Subset.rfl
      fun r hr => (joins (.entity e) r hr).mp
  · intro h
    exact h.mono (fun u v hv => (joins (.entity u) v hv).mpr) Subset.rfl
      fun r hr => (joins (.entity e) r hr).mpr

theorem Queued.enters (h : Queued s) {op : ThreadOp} (valid : op.Valid s)
    (run : (op.exec fuel).run s = .ok ((), s')) :
    Queued s' ∧ ∀ t, s.stateOf t = .stopped → (t ∈ s'.runqueue ↔
      op = .start t ∨ ∃ ev, op.event s = some ev ∧ s.Cascade (s.roots ev) t) := by
  have outside : ∀ t, s.stateOf t = .stopped → t ∉ s.runqueue := by
    intro t stopped queued
    exact absurd (stopped.symm.trans (h.runnable t queued)) nofun
  cases op with
  | start e =>
      change (setEntityState fuel e .runnable).run s = _ at run
      rcases setEntityState_ok h.toReady (by decide) run with
        ⟨eq, rfl⟩ | ⟨differs, ws, woke, apart, rfl⟩
      · refine ⟨h, fun t stopped => ?_⟩
        have other : e ≠ t := by
          rintro rfl
          exact absurd (stopped.symm.trans eq) nofun
        simp [ThreadOp.event, eq, other, outside t stopped]
      · refine ⟨((h.changed (by decide) differs).woken woke).drained, fun t stopped => ?_⟩
        rw [h.enters_changed differs woke apart stopped]
        by_cases same : t = e
        · simp [same]
        · simp [ThreadOp.event, differs, same, Ne.symm same]
  | stop e =>
      change (Thread.change fuel e .stopped).run s = _ at run
      obtain ⟨queued, enters⟩ := h.enters_change (by decide) (by decide) run
      refine ⟨queued, fun t stopped => ?_⟩
      rw [enters t stopped]
      by_cases same : s.stateOf e = .stopped
      · simp [ThreadOp.event, same]
      · have other : t ≠ e := fun eq => same (eq ▸ stopped)
        simp [ThreadOp.event, same, other]
  | wait ev =>
      obtain ⟨c, current, running⟩ := valid
      change (Event.wait fuel ev).run s = _ at run
      have sleep : (Thread.change fuel c .sleeping).run (s.appended ev c) = .ok ((), s') := by
        unfold Event.wait at run
        rw [bind_ok (run_get_eq s), current] at run
        exact run
      obtain ⟨queued, enters⟩ := h.appended.enters_change (by decide) (by decide) sleep
      refine ⟨queued, fun t stopped => ?_⟩
      have awake : (s.appended ev c).stateOf c ≠ .sleeping := by
        intro eq
        exact absurd (running.symm.trans eq) nofun
      have other : t ≠ c := by
        rintro rfl
        exact absurd (running.symm.trans stopped) nofun
      rw [enters t stopped, cascade_appended running]
      simp [ThreadOp.event, current, awake, other]
  | trigger ev =>
      obtain ⟨ws, woke, rfl⟩ := trigger_ok h.toReady run
      refine ⟨(h.woken woke).drained, fun t stopped => ?_⟩
      change t ∈ s.runqueue ++ ws ↔ _
      rw [List.mem_append, woke.mem]
      simp [ThreadOp.event, outside t stopped]
  | schedule =>
      have same := schedule_same s () s' (.refl s) run
      refine ⟨same.queued h, fun t stopped => ?_⟩
      rw [same.queue.mem_iff]
      simp [ThreadOp.event, outside t stopped]

/-- In any run, stopped threads stay stopped until they are started if and only if no operation
empties a queue that leads to a stopped thread. -/
theorem stays_stopped_iff (s₀ s : State) (steps : List (State × ThreadOp × State))
    (initial : Queued s₀) (run : Run s₀ steps s) :
    (∀ step ∈ steps, StaysStopped step) ↔ ∀ step ∈ steps, NoStoppedWaiter step.1 step.2.1 := by
  have each : Queued s ∧ ∀ step ∈ steps,
      (StaysStopped step ↔ NoStoppedWaiter step.1 step.2.1) := by
    induction run with
    | nil => exact ⟨initial, fun _ h => absurd h List.not_mem_nil⟩
    | snoc _ valid exec ih =>
        rename_i s s' op fuel _
        obtain ⟨queued, enters⟩ := ih.1.enters valid exec
        refine ⟨queued, fun step hstep => ?_⟩
        cases List.mem_append.mp hstep with
        | inl earlier => exact ih.2 step earlier
        | inr last =>
            cases List.mem_singleton.mp last
            constructor
            · intro stays ev event t reached stopped
              exact stays t stopped ((enters t stopped).mpr (.inr ⟨ev, event, reached⟩))
            · intro none t stopped queued
              cases (enters t stopped).mp queued with
              | inl started => exact started
              | inr woken =>
                  obtain ⟨ev, event, reached⟩ := woken
                  exact none ev event t reached stopped
  exact forall₂_congr each.2

/-- Waiters that are not stopped and that nobody waits for are no danger. -/
theorem noStoppedWaiter_of_alone {op : ThreadOp} (alone : ∀ ev, op.event s = some ev →
    ∀ w ∈ s.waiters ev, s.stateOf w ≠ .stopped ∧ s.waiters (.entity w) = []) :
    NoStoppedWaiter s op := by
  intro ev event t reached stopped
  have first : ∀ x, s.Cascade (s.roots ev) x → x ∈ s.waiters ev := by
    intro x h
    induction h with
    | root hr _ => exact hr
    | next _ he _ ih =>
        rw [State.Waits, (alone ev event _ ih).2] at he
        exact absurd he List.not_mem_nil
  exact absurd stopped (alone ev event t (first t reached)).1

/-- Thread 1 waits on an event, thread 2 is stopped, and the event is triggered: only thread 1 is
woken. -/
theorem stays_stopped_iff_waited : ∃ (s₀ : State) (steps : List (State × ThreadOp × State)),
    (do let _ ← init 2 0 (some .rr); run : Exec State Unit).run State.boot = .ok ((), s₀) ∧
      steps.map (fun step => step.2.1) =
        [.start 1, .start 2, .schedule, .wait (.other 0), .stop 2, .trigger (.other 0)] ∧
      ∀ step ∈ steps, StaysStopped step := by
  obtain ⟨s₀, start, consistent, _⟩ := init_consistent 1 0 .rr
  have explicit : (init 2 0 (some .rr)).run State.boot = .ok (true, _) := rfl
  cases start.symm.trans explicit
  have queued := (consistent.returned .run trivial ⟨2, rfl⟩).1.toQueued
  have iff := stays_stopped_iff _ _ _ queued
    ((((((Run.nil.step 2 (.start 1) trivial rfl).step 2 (.start 2) trivial rfl).step
      2 .schedule trivial rfl).step 2 (.wait (.other 0)) ⟨1, rfl, rfl⟩ rfl).step
      2 (.stop 2) trivial rfl).step 2 (.trigger (.other 0)) trivial rfl)
  refine ⟨_, _, rfl, rfl, iff.mpr ?_⟩
  simp only [List.nil_append, List.cons_append, List.forall_mem_cons]
  refine ⟨?_, ?_, ?_, ?_, ?_, ?_, fun _ none => absurd none List.not_mem_nil⟩ <;>
    refine noStoppedWaiter_of_alone fun ev event w mem => ?_
  · cases (event : some (EventId.entity 1) = some ev)
    exact absurd mem List.not_mem_nil
  · cases (event : some (EventId.entity 2) = some ev)
    exact absurd mem List.not_mem_nil
  · exact nomatch event
  · cases (event : some (EventId.entity 1) = some ev)
    exact absurd mem List.not_mem_nil
  · cases (event : some (EventId.entity 2) = some ev)
    exact absurd mem List.not_mem_nil
  · cases (event : some (EventId.other 0) = some ev)
    cases List.mem_singleton.mp (mem : w ∈ [1])
    exact ⟨by decide, rfl⟩

/-- Thread 1 waits on an event, is stopped, and runs again once the event is triggered. -/
theorem stopped_thread_woken : ∃ s₀ steps s,
    (do let _ ← init 2 0 (some .rr); run : Exec State Unit).run State.boot = .ok ((), s₀) ∧
      Run s₀ steps s ∧ ∃ step ∈ steps, step.2.1 = .trigger (.other 0) ∧ ¬ StaysStopped step := by
  refine ⟨_, _, _, rfl, ((((Run.nil.step 2 (.start 1) trivial rfl).step 2 .schedule trivial rfl).step
    2 (.wait (.other 0)) ⟨1, rfl, rfl⟩ rfl).step 2 (.stop 1) trivial rfl).step
    2 (.trigger (.other 0)) trivial rfl, _, List.mem_append_right _ List.mem_cons_self, rfl, ?_⟩
  intro stays
  cases stays 1 rfl (by decide)

end Steps
end Infos.Kernel
