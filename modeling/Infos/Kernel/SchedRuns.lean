import Infos.Kernel.SchedWake
import Infos.Lib.Machine
import Mathlib.Data.List.Perm.Basic

/-!
# The run queue and the entity states agree

`Consistent` holds after `Scheduler::init` and is kept by every change of
state, wake-up and scheduling decision.
-/
namespace Infos.Kernel
open Infos.Lib Function Set

/-- Each queued entity is queued once and is runnable. -/
structure Queued (s : State) : Prop extends s.Ready where
  nodup : s.runqueue.Nodup
  runnable : ∀ e ∈ s.runqueue, s.stateOf e = .runnable

structure Consistent (s : State) : Prop extends Queued s where
  idle : s.stateOf s.idleEntity = .runnable
  queue : ∀ e, e ∈ s.runqueue ↔ e ≠ s.idleEntity ∧ s.stateOf e = .runnable
  bounded : ∃ n, s.Bounded n
  thread : s.currentThread = some (s.current.getD s.idleEntity)
  inactive : s.active = false → s.current = none

section Kept
variable {s s' : State} {e x : EntityId} {ev : EventId} {roots : Set EntityId} {ws : List EntityId}
  {new : SchedulingEntityState} {fuel n : Nat}

theorem Queued.woken (h : Queued s) (woke : Woke s roots ws) : Queued (s.woken ws) where
  toReady := h.toReady.woken
  nodup := by
    refine List.nodup_append'.mpr ⟨h.nodup, woke.nodup, fun x hx hx' => ?_⟩
    exact ((woke.mem x).mp hx').was_asleep (h.runnable x hx)
  runnable := by
    intro x hx
    rw [stateOf_woken]
    split
    next => rfl
    next old => exact h.runnable x ((List.mem_append.mp hx).resolve_right old)

theorem Queued.mem_changed (h : Queued s) (differs : s.stateOf e ≠ new) :
    x ∈ (s.changed e new).runqueue ↔ x = e ∧ new = .runnable ∨ x ≠ e ∧ x ∈ s.runqueue := by
  unfold State.changed
  dsimp only
  have queued := h.runnable x
  split_ifs with to_runnable from_runnable
  · rw [List.mem_append, List.mem_singleton]
    by_cases same : x = e
    · simp [same, to_runnable]
    · simp [same]
  · rw [h.nodup.mem_erase_iff]
    simp [to_runnable]
  · by_cases same : x = e
    · subst same
      simpa [to_runnable] using fun hx => from_runnable (queued hx)
    · simp [same]

theorem Queued.changed (h : Queued s) (running : new ≠ .running)
    (differs : s.stateOf e ≠ new) : Queued (s.changed e new) where
  toReady := h.toReady.changed running
  nodup := by
    unfold State.changed
    dsimp only
    split_ifs with to_runnable from_runnable
    · refine List.nodup_append'.mpr ⟨h.nodup, List.nodup_singleton e, fun x hx hx' => ?_⟩
      cases List.mem_singleton.mp hx'
      exact differs (to_runnable ▸ h.runnable _ hx)
    · exact h.nodup.erase e
    · exact h.nodup
  runnable := by
    intro x hx
    rw [stateOf_changed]
    cases (h.mem_changed differs).mp hx with
    | inl self => rw [if_pos self.1, self.2]
    | inr other => rw [if_neg other.1, h.runnable x other.2]

theorem Consistent.woken (h : Consistent s) (woke : Woke s roots ws) : Consistent (s.woken ws) where
  toQueued := h.toQueued.woken woke
  idle := by
    rw [stateOf_woken]
    split
    · rfl
    · exact h.idle
  queue := by
    intro x
    change x ∈ s.runqueue ++ ws ↔ x ≠ s.idleEntity ∧ _
    rw [List.mem_append, h.queue, stateOf_woken]
    by_cases hx : x ∈ ws
    · have other : x ≠ s.idleEntity := by
        rintro rfl
        exact ((woke.mem _).mp hx).was_asleep h.idle
      simp [hx, other]
    · simp [hx]
  bounded := by
    obtain ⟨n, bound⟩ := h.bounded
    exact ⟨n, bound.woken⟩
  thread := h.thread
  inactive := h.inactive

theorem State.Bounded.drained (h : s.Bounded n) : (s.drained ev).Bounded n := by
  intro ev' w hw
  unfold State.drained at hw
  dsimp only at hw
  rw [update_apply] at hw
  split at hw
  · cases hw
  · exact h ev' w hw

theorem Queued.drained (h : Queued s) : Queued (s.drained ev) :=
  ⟨⟨h.algorithm, h.notRunning⟩, h.nodup, h.runnable⟩

theorem Consistent.drained (h : Consistent s) : Consistent (s.drained ev) where
  toQueued := h.toQueued.drained
  idle := h.idle
  queue := h.queue
  bounded := by
    obtain ⟨n, bound⟩ := h.bounded
    exact ⟨n, bound.drained⟩
  thread := h.thread
  inactive := h.inactive

theorem Consistent.changed (h : Consistent s) (other : e ≠ s.idleEntity)
    (running : new ≠ .running) (differs : s.stateOf e ≠ new) : Consistent (s.changed e new) where
  toQueued := h.toQueued.changed running differs
  idle := by
    change (s.changed e new).stateOf s.idleEntity = .runnable
    rw [stateOf_changed, if_neg other.symm]
    exact h.idle
  queue := by
    intro x
    change _ ↔ x ≠ s.idleEntity ∧ _
    rw [h.mem_changed differs, stateOf_changed, h.queue]
    by_cases same : x = e
    · subst same
      simp [other]
    · simp [same]
  bounded := h.bounded
  thread := h.thread
  inactive := h.inactive

/-- A state that differs in accounting only. -/
theorem Consistent.account (h : Consistent s) {entities : EntityId → SchedulingEntity}
    {runtime : UInt64} (same : ∀ e, (entities e).state = s.stateOf e) :
    Consistent { s with entities, runtime } where
  algorithm := h.algorithm
  notRunning := fun e => (same e).trans_ne (h.notRunning e)
  nodup := h.nodup
  runnable := fun e he => (same e).trans (h.runnable e he)
  idle := (same _).trans h.idle
  queue := by
    intro e
    change _ ↔ _ ∧ (entities e).state = _
    rw [same]
    exact h.queue e
  bounded := h.bounded
  thread := h.thread
  inactive := h.inactive

/-! ### Scheduling decisions -/

theorem minRuntimeEntity_mem (cpuRuntime : EntityId → UInt64) (queue : List EntityId)
    (best : Option (EntityId × UInt64)) :
    (minRuntimeEntity cpuRuntime queue best = none ↔ queue = [] ∧ best = none) ∧
      ∀ e, minRuntimeEntity cpuRuntime queue best = some e →
        e ∈ queue ∨ ∃ r, best = some (e, r) := by
  induction queue generalizing best with
  | nil =>
      unfold minRuntimeEntity
      cases best with
      | none => exact ⟨by simp, nofun⟩
      | some b => exact ⟨by simp, fun e h => .inr ⟨b.2, by simpa [Prod.ext_iff] using h⟩⟩
  | cons x rest ih =>
      have found : ∀ {r e}, minRuntimeEntity cpuRuntime rest (some (x, r)) = some e →
          e ∈ x :: rest := by
        intro r e h
        cases (ih _).2 e h with
        | inl hr => exact List.mem_cons_of_mem x hr
        | inr hb =>
            obtain ⟨r', eq⟩ := hb
            cases eq
            exact List.mem_cons_self
      cases best with
      | none =>
          unfold minRuntimeEntity
          refine ⟨?_, fun e h => .inl (found h)⟩
          rw [(ih _).1]
          simp
      | some b =>
          obtain ⟨y, least⟩ := b
          unfold minRuntimeEntity
          split
          · refine ⟨?_, fun e h => .inl (found h)⟩
            rw [(ih _).1]
            simp
          · refine ⟨?_, fun e h => ?_⟩
            · rw [(ih _).1]
              simp
            · cases (ih _).2 e h with
              | inl hr => exact .inl (List.mem_cons_of_mem x hr)
              | inr hb => exact .inr hb

theorem count_nil (empty : s.runqueue = []) : s.count = 0 := by
  rw [State.count, empty, List.length_nil, Nat.zero_mod]

theorem first_run (some_ : s.count ≠ 0) (s' : State) :
    ∃ e, s.first.run s' = .ok (some e, s') ∧ e ∈ s.runqueue := by
  obtain ⟨front, rest, queue⟩ := List.exists_cons_of_ne_nil (mt count_nil some_)
  refine ⟨front, ?_, queue ▸ List.mem_cons_self⟩
  unfold State.first
  rw [queue]
  rfl

/-- An algorithm picks a queued entity unless it counts none, and at most reorders the queue. -/
theorem pickNextEntity_run (algorithm : SchedulingAlgorithm) (s : State) :
    ∃ pick queue, (pickNextEntity algorithm).run s = .ok (pick, { s with runqueue := queue }) ∧
      queue.Perm s.runqueue ∧ (pick = none ↔ s.count = 0) ∧
      ∀ e, pick = some e → e ∈ s.runqueue := by
  by_cases none_ : s.count = 0
  · refine ⟨none, s.runqueue, ?_, .refl _, ⟨fun _ => none_, fun _ => rfl⟩, nofun⟩
    unfold pickNextEntity
    cases algorithm <;> rw [bind_ok (run_get_eq s), if_pos none_] <;> rfl
  suffices found : ∃ e queue, (pickNextEntity algorithm).run s =
      .ok (some e, { s with runqueue := queue }) ∧ queue.Perm s.runqueue ∧ e ∈ s.runqueue by
    obtain ⟨e, queue, run, perm, mem⟩ := found
    exact ⟨some e, queue, run, perm, by simp [none_], fun x eq => Option.some.inj eq ▸ mem⟩
  unfold pickNextEntity
  cases algorithm with
  | rr =>
      obtain ⟨next, rest, queue⟩ := List.exists_cons_of_ne_nil (mt count_nil none_)
      refine ⟨next, rest ++ [next], ?_, ?_, queue ▸ List.mem_cons_self⟩
      · rw [bind_ok (run_get_eq s), if_neg none_, queue]
        rfl
      · rw [queue]
        exact List.perm_append_singleton next rest
  | fifo =>
      obtain ⟨e, first, mem⟩ := first_run none_ s
      refine ⟨e, s.runqueue, ?_, .refl _, mem⟩
      rw [bind_ok (run_get_eq s), if_neg none_, first]
  | cfs =>
      by_cases one : s.count = 1
      · obtain ⟨e, first, mem⟩ := first_run none_ s
        refine ⟨e, s.runqueue, ?_, .refl _, mem⟩
        rw [bind_ok (run_get_eq s), if_neg none_, if_pos one, first]
      · have scan := minRuntimeEntity_mem (fun e => (s.entities e).cpuRuntime) s.runqueue none
        cases least : minRuntimeEntity (fun e => (s.entities e).cpuRuntime) s.runqueue none with
        | none => exact absurd (scan.1.mp least).1 (mt count_nil none_)
        | some e =>
            refine ⟨e, s.runqueue, ?_, .refl _, ?_⟩
            · rw [bind_ok (run_get_eq s), if_neg none_, if_neg one, least]
              rfl
            · exact (scan.2 e least).resolve_right nofun

/-- The scheduler after an active `schedule` that left the run queue as `queue`. -/
def State.scheduled (s : State) (queue : List EntityId) (next : EntityId) : State :=
  { s with
    runqueue := queue
    current := some next
    currentThread := some next
    entities := update s.entities next { s.entities next with execStartTime := s.runtime } }

theorem stateOf_scheduled {queue : List EntityId} {next : EntityId} :
    (s.scheduled queue next).stateOf e = s.stateOf e := by
  unfold State.stateOf State.scheduled
  dsimp only
  rw [update_apply]
  split
  next same => rw [same]
  next => rfl

theorem activate_run {prev : Option EntityId} (runnable : s.stateOf e = .runnable)
    (other : prev ≠ some e) :
    (activate e prev).run s = .ok (true, { s with currentThread := some e }) := by
  unfold activate
  rw [bind_ok (run_get_eq s), bind_ok (assertThat_run (beq_iff_eq.mpr runnable)), if_neg other]
  rfl

theorem switchTo_run (runnable : s.stateOf e = .runnable) (other : s.current ≠ some e) :
    (switchTo e).run s = .ok ((), { s with current := some e, currentThread := some e }) := by
  unfold switchTo
  rw [bind_ok (run_get_eq s), bind_ok (activate_run runnable other)]
  rfl

theorem switchTo_runnable {u : Unit} (run : (switchTo e).run s = .ok (u, s')) :
    s.stateOf e = .runnable := by
  by_contra other
  have failed : (activate e s.current).run s = .error .assertion := by
    unfold activate
    rw [bind_ok (run_get_eq s), assertThat, if_neg (fun h => other (beq_iff_eq.mp h))]
    rfl
  unfold switchTo at run
  rw [bind_ok (run_get_eq s), bind_error failed] at run
  cases run

theorem updateExecStartTime_run (current : s.current = some e) :
    updateExecStartTime.run s = .ok ((), { s with
      entities := update s.entities e { s.entities e with execStartTime := s.runtime } }) := by
  have read : updateExecStartTime.run s = (modify fun s =>
      { s with entities := update s.entities e { s.entities e with execStartTime := s.runtime } } :
      Exec State Unit).run s := by
    unfold updateExecStartTime
    rw [bind_ok (run_get_eq s), current]
  exact read

theorem updateAccounting_charge (current : s.current = some e) :
    updateAccounting.run s = .ok ((), { s with
      entities := update s.entities e { s.entities e with
        cpuRuntime := (s.entities e).cpuRuntime +
          Timepoint.sub s.runtime (s.entities e).execStartTime
        execStartTime := s.runtime } }) := by
  have read : updateAccounting.run s = (modify fun s =>
      let old := s.entities e
      let delta := Timepoint.sub s.runtime old.execStartTime
      let new := { old with cpuRuntime := old.cpuRuntime + delta, execStartTime := s.runtime }
      { s with entities := update s.entities e new } : Exec State Unit).run s := by
    unfold updateAccounting
    rw [bind_ok (run_get_eq s), current]
  exact read

/-- An active `schedule` returns, and goes to a runnable entity. -/
theorem Consistent.schedule (h : Consistent s) (active : s.active = true) :
    ∃ queue next, schedule.run s = .ok ((), s.scheduled queue next) ∧ queue.Perm s.runqueue ∧
      s.stateOf next = .runnable ∧ (next = s.idleEntity ↔ s.count = 0) := by
  obtain ⟨algorithm, chosen⟩ := Option.isSome_iff_exists.mp h.algorithm
  obtain ⟨pick, queue, run, perm, none_iff, member⟩ := pickNextEntity_run algorithm s
  have runnable : s.stateOf (pick.getD s.idleEntity) = .runnable := by
    cases pick with
    | none => exact h.idle
    | some e => exact ((h.queue e).mp (member e rfl)).2
  have idle_iff : pick.getD s.idleEntity = s.idleEntity ↔ s.count = 0 := by
    cases pick with
    | none => exact ⟨fun _ => none_iff.mp rfl, fun _ => rfl⟩
    | some e =>
        have queued := member e rfl
        exact ⟨fun same => absurd same ((h.queue e).mp queued).1,
          fun none => absurd (none_iff.mpr none) nofun⟩
  refine ⟨queue, _, ?_, perm, runnable, idle_iff⟩
  obtain ⟨next, picked⟩ : ∃ next, pick.getD s.idleEntity = next := ⟨_, rfl⟩
  rw [picked] at runnable ⊢
  have go : Kernel.schedule.run s = (do
      if some next ≠ s.current then switchTo next
      updateExecStartTime : Exec State Unit).run { s with runqueue := queue } := by
    unfold Kernel.schedule
    rw [bind_ok (run_get_eq s), if_neg (by rw [active]; exact nofun), chosen]
    dsimp only
    rw [bind_ok run, picked, chosen]
  rw [go]
  by_cases same : s.current = some next
  · have thread : s.currentThread = some next := by
      rw [h.thread, same]
      rfl
    rw [if_neg (not_not.mpr same.symm)]
    apply (updateExecStartTime_run (s := { s with runqueue := queue }) same).trans
    unfold State.scheduled
    rw [← same, same, ← thread]
  · have switched := switchTo_run (s := { s with runqueue := queue }) runnable same
    rw [if_pos (Ne.symm same), bind_ok switched]
    exact updateExecStartTime_run rfl

theorem Consistent.scheduled (h : Consistent s) {queue : List EntityId}
    (perm : queue.Perm s.runqueue) (active : s.active = true) :
    Consistent (s.scheduled queue e) where
  algorithm := h.algorithm
  notRunning := by
    intro x
    rw [stateOf_scheduled]
    exact h.notRunning x
  idle := stateOf_scheduled.trans h.idle
  nodup := perm.nodup_iff.mpr h.nodup
  runnable := fun x hx => stateOf_scheduled.trans (h.runnable x (perm.mem_iff.mp hx))
  queue := by
    intro x
    rw [stateOf_scheduled]
    exact perm.mem_iff.trans (h.queue x)
  bounded := h.bounded
  thread := rfl
  inactive := fun off => absurd (active.symm.trans off) nofun

/-- The scheduler is still consistent, with the same idle thread. -/
def State.Keeps (s s' : State) : Prop := Consistent s' ∧ s'.idleEntity = s.idleEntity

theorem Consistent.schedule_run (h : Consistent s) :
    ∃ s', Kernel.schedule.run s = .ok ((), s') ∧ s.Keeps s' := by
  cases active : s.active with
  | true =>
      obtain ⟨queue, next, run, perm, _⟩ := h.schedule active
      exact ⟨_, run, h.scheduled perm active, rfl⟩
  | false =>
      refine ⟨s, ?_, h, rfl⟩
      unfold Kernel.schedule
      rw [bind_ok (run_get_eq s), if_pos active]
      rfl

end Kept

/-! ### Operations -/

/-- `e` waits for its own change of state, or for that of an entity which it wakes. -/
def State.WakesItself (s : State) (e : EntityId) : Prop :=
  ∃ u, s.Waits u e ∧ (u = e ∨ s.Cascade (s.roots (.entity e)) u)

/-- A run that ends in `P`, or breaks its wake-up loop as `B` says it does, or lacks fuel. -/
inductive Ends (fuel bound : Nat) (B : Prop) (P : State → Prop) :
    Except Fault (Unit × State) → Prop
  | ok {s' : State} : ¬ B → P s' → Ends fuel bound B P (.ok ((), s'))
  | useAfterFree : B → Ends fuel bound B P (.error .useAfterFree)
  | outOfFuel : fuel ≤ bound → Ends fuel bound B P (.error .outOfFuel)

section Operations
variable {s s' : State} {e : EntityId} {ev : EventId} {new : SchedulingEntityState}
  {fuel bound n : Nat} {B : Prop} {P Q : State → Prop}

theorem Ends.bind {x y : Exec State Unit} (h : Ends fuel bound B P (x.run s))
    (rest : ∀ s', P s' → ∃ s'', y.run s' = .ok ((), s'') ∧ Q s'') :
    Ends fuel bound B Q ((do x; y : Exec State Unit).run s) := by
  cases run : x.run s with
  | error err =>
      rw [run] at h
      rw [bind_error run]
      cases h with
      | useAfterFree broken => exact .useAfterFree broken
      | outOfFuel short => exact .outOfFuel short
  | ok r =>
      rw [run] at h
      rw [bind_ok run]
      cases h with
      | ok kept hP =>
          obtain ⟨s'', run', hQ⟩ := rest _ hP
          rw [run']
          exact .ok kept hQ

theorem sleepers_le (s : State) (n : Nat) : s.sleepers n ≤ n :=
  (Finset.card_filter_le _ _).trans (Finset.card_range n).le

theorem Ends.of_wake {roots : Set EntityId} {finish : State → State}
    (bounded : s.Bounded n) (below : ∀ w ∈ roots, w < n)
    (breaks : (∃ e, ev = .entity e ∧ s.Cascade roots e) ↔ B)
    (done : ∀ ws, Woke s roots ws → P (finish (s.woken ws))) {result : Except Fault (Unit × State)}
    (h : WakeOutcome fuel s roots ev finish result) : Ends fuel n B P result := by
  cases h with
  | outOfFuel short =>
      exact .outOfFuel ((short n bounded below).trans (sleepers_le s n))
  | useAfterFree eq inside => exact .useAfterFree (breaks.mp ⟨_, eq, inside⟩)
  | ok woke kept =>
      refine .ok (fun broken => ?_) (done _ woke)
      obtain ⟨e, eq, inside⟩ := breaks.mpr broken
      exact kept e eq ((woke.mem e).mpr inside)

theorem Ends.succ {result : Except Fault (Unit × State)} (h : Ends fuel bound B P result) :
    Ends (fuel + 1) (bound + 1) B P result := by
  cases h with
  | ok kept hP => exact .ok kept hP
  | useAfterFree broken => exact .useAfterFree broken
  | outOfFuel short => exact .outOfFuel (Nat.succ_le_succ short)

/-- Whether a change of state comes back to its own entity can be told before the change. -/
theorem cascade_changed_self :
    (s.changed e new).Cascade (s.roots (.entity e)) e ↔ new ≠ .runnable ∧ s.WakesItself e := by
  have own : e ∈ (s.changed e new).asleep ↔ new ≠ .runnable := by
    change (s.changed e new).stateOf e ≠ _ ↔ _
    rw [stateOf_changed, if_pos rfl]
  have others : ∀ x, x ≠ e → (x ∈ (s.changed e new).asleep ↔ x ∈ s.asleep) := by
    intro x other
    change (s.changed e new).stateOf x ≠ _ ↔ _
    rw [stateOf_changed, if_neg other]
    rfl
  constructor
  · intro h
    refine ⟨own.mp h.was_asleep, ?_⟩
    cases h with
    | root hr _ => exact ⟨e, hr, .inl rfl⟩
    | next hu he _ =>
        rename_i u _
        refine ⟨u, he, ?_⟩
        by_cases self : u = e
        · exact .inl self
        · refine .inr ((Lib.Cascade.detour hu self).mono (fun _ _ _ he => he) ?_ fun _ _ hr => hr)
          exact fun x hx => (others x hx.2).mp hx.1
  · rintro ⟨asleep, u, waits, rfl | reached⟩
    · exact .root waits (own.mpr asleep)
    · refine .next (reached.mono (fun _ _ _ he => he) ?_ fun _ _ hr => hr) waits (own.mpr asleep)
      intro x hx
      by_cases self : x = e
      · exact self ▸ own.mpr asleep
      · exact (others x self).mpr hx

theorem Consistent.setEntityState (h : Consistent s) (bounded : s.Bounded n)
    (other : e ≠ s.idleEntity) (running : new ≠ .running) :
    Ends fuel (n + 1) (s.stateOf e ≠ new ∧ new ≠ .runnable ∧ s.WakesItself e) s.Keeps
      ((setEntityState fuel e new).run s) := by
  cases fuel with
  | zero => exact .outOfFuel (Nat.zero_le _)
  | succ fuel =>
      by_cases same : s.stateOf e = new
      · rw [setEntityState_same h.toReady same]
        exact .ok (fun broken => broken.1 same) ⟨h, rfl⟩
      · apply Ends.succ
        apply Ends.of_wake (s := s.changed e new) bounded (fun w hw => bounded _ w hw) ?_ ?_
          (setEntityState_run fuel h.toReady running same)
        · have self : (s.changed e new).Cascade (s.roots (.entity e)) e ↔ _ := cascade_changed_self
          constructor
          · rintro ⟨_, eq, inside⟩
            cases eq
            exact ⟨same, self.mp inside⟩
          · exact fun broken => ⟨e, rfl, self.mpr broken.2⟩
        · intro ws woke
          exact ⟨((h.changed other running same).woken woke).drained, rfl⟩

theorem Consistent.trigger (h : Consistent s) (bounded : s.Bounded n) :
    Ends fuel n (∃ e, ev = .entity e ∧ s.Cascade (s.roots ev) e) s.Keeps
      ((Event.trigger fuel ev).run s) := by
  apply Ends.of_wake bounded (fun w hw => bounded _ w hw) .rfl ?_ (trigger_run fuel ev h.toReady)
  intro ws woke
  exact ⟨(h.woken woke).drained, rfl⟩

theorem Consistent.change (h : Consistent s) (bounded : s.Bounded n)
    (other : e ≠ s.idleEntity) (running : new ≠ .running) :
    Ends fuel (n + 1) (s.stateOf e ≠ new ∧ new ≠ .runnable ∧ s.WakesItself e) s.Keeps
      ((Thread.change fuel e new).run s) := by
  apply (h.setEntityState bounded other running).bind
  intro s' h'
  by_cases self : s'.currentThread = some e
  · obtain ⟨s'', run, h'', same⟩ := h'.1.schedule_run
    refine ⟨s'', ?_, h'', same.trans h'.2⟩
    rw [bind_ok (run_get_eq s'), if_pos self, run]
  · refine ⟨s', ?_, h'⟩
    rw [bind_ok (run_get_eq s'), if_neg self]
    rfl

/-- The scheduler after `_waiters.append(&thread)`. -/
def State.appended (s : State) (ev : EventId) (e : EntityId) : State :=
  { s with waiters := update s.waiters ev (s.waiters ev ++ [e]) }

theorem mem_waiters_appended {ev' : EventId} {w : EntityId} :
    w ∈ (s.appended ev e).waiters ev' ↔ w ∈ s.waiters ev' ∨ ev' = ev ∧ w = e := by
  unfold State.appended
  dsimp only
  rw [update_apply]
  by_cases same : ev' = ev <;> simp [same]

theorem State.Bounded.appended (h : s.Bounded n) : (s.appended ev e).Bounded (max n (e + 1)) := by
  intro ev' w hw
  cases mem_waiters_appended.mp hw with
  | inl hw => exact (h ev' w hw).trans_le (le_max_left _ _)
  | inr hw =>
      rw [hw.2]
      exact (Nat.lt_succ_self e).trans_le (le_max_right _ _)

theorem Queued.appended (h : Queued s) : Queued (s.appended ev e) :=
  ⟨⟨h.algorithm, h.notRunning⟩, h.nodup, h.runnable⟩

theorem Consistent.appended (h : Consistent s) : Consistent (s.appended ev e) where
  toQueued := h.toQueued.appended
  idle := h.idle
  queue := h.queue
  bounded := by
    obtain ⟨n, bound⟩ := h.bounded
    exact ⟨_, bound.appended⟩
  thread := h.thread
  inactive := h.inactive

end Operations

/-- Everything that changes states, queues or the current entity, and the clock. -/
inductive Op where
  | setEntityState (e : EntityId) (new : SchedulingEntityState)
  | stop (t : EntityId)
  | sleepOn (ev : EventId) (t : EntityId)
  | trigger (ev : EventId)
  | schedule
  | run
  | updateRuntime (ticks : UInt64)
  | updateAccounting

def Op.exec (fuel : Nat) : Op → Exec State Unit
  | .setEntityState e new => Kernel.setEntityState fuel e new
  | .stop t => Thread.stop fuel t
  | .sleepOn ev t => WakeQueue.sleep fuel ev t
  | .trigger ev => Event.trigger fuel ev
  | .schedule => Kernel.schedule
  | .run => Kernel.run
  | .updateRuntime ticks => Kernel.updateRuntime ticks
  | .updateAccounting => Kernel.updateAccounting

/-- The idle thread is left alone, and nothing sets `RUNNING`. -/
def Op.Valid (s : State) : Op → Prop
  | .setEntityState e new => e ≠ s.idleEntity ∧ new ≠ .running
  | .stop t => t ≠ s.idleEntity
  | .sleepOn _ t => t ≠ s.idleEntity
  | _ => True

/-- The operation wakes an entity in the middle of waking those that wait for that entity: the
nested wake-up frees the queue which the outer one is going through. -/
def Op.WakesItself (s : State) : Op → Prop
  | .setEntityState e new => s.stateOf e ≠ new ∧ new ≠ .runnable ∧ s.WakesItself e
  | .stop t => s.stateOf t ≠ .stopped ∧ s.WakesItself t
  | .sleepOn ev t => s.stateOf t ≠ .sleeping ∧ (s.appended ev t).WakesItself t
  | .trigger ev => ∃ e, ev = .entity e ∧ s.Cascade (s.roots ev) e
  | _ => False

/-- With fuel enough the operation ends in `s'`. -/
def Op.Returns (op : Op) (s s' : State) : Prop := ∃ fuel, (op.exec fuel).run s = .ok ((), s')

section Runs
variable {s s' s'' : State} {op : Op} {ops : List Op} {idle : EntityId}

theorem Op.exec_approximates {fuel fuel' : Nat} (le : fuel ≤ fuel') (op : Op) :
    Approximates (op.exec fuel) (op.exec fuel') := by
  have change : ∀ t new, Approximates (Thread.change fuel t new) (Thread.change fuel' t new) :=
    fun t new => .bind (setEntityState_approximates le t new) fun _ => .refl _
  cases op with
  | setEntityState e new => exact setEntityState_approximates le e new
  | stop t => exact change t .stopped
  | sleepOn ev t => exact .bind (.refl _) fun _ => change t .sleeping
  | trigger ev => exact wake_approximates (fun w => setEntityState_approximates le w .runnable) ev
  | schedule => exact .refl _
  | run => exact .refl _
  | updateRuntime ticks => exact .refl _
  | updateAccounting => exact .refl _

theorem Op.Returns.unique (h : op.Returns s s') (h' : op.Returns s s'') : s' = s'' := by
  obtain ⟨fuel, run⟩ := h
  obtain ⟨fuel', run'⟩ := h'
  have first := op.exec_approximates (Nat.le_max_left fuel fuel') _ _ run
  have second := op.exec_approximates (Nat.le_max_right fuel fuel') _ _ run'
  cases first.symm.trans second
  rfl

theorem updateAccounting_run (s : State) : ∃ entities,
    updateAccounting.run s = .ok ((), { s with entities }) ∧
      ∀ e, (entities e).state = s.stateOf e := by
  unfold updateAccounting
  rw [bind_ok (run_get_eq s)]
  split
  next => exact ⟨s.entities, rfl, fun _ => rfl⟩
  next e =>
      refine ⟨_, rfl, fun x => ?_⟩
      rw [update_apply]
      split
      next same => rw [same]; rfl
      next => rfl

theorem Consistent.exec (h : Consistent s) (valid : op.Valid s) :
    ∃ bound, ∀ fuel, Ends fuel bound (op.WakesItself s) s.Keeps ((op.exec fuel).run s) := by
  obtain ⟨n, bounded⟩ := h.bounded
  have asleep : ∀ {B : Prop}, (SchedulingEntityState.stopped ≠ .runnable ∧ B ↔ B) ∧
      (SchedulingEntityState.sleeping ≠ .runnable ∧ B ↔ B) := by
    intro B
    exact ⟨and_iff_right nofun, and_iff_right nofun⟩
  cases op with
  | setEntityState e new =>
      exact ⟨n + 1, fun fuel => h.setEntityState bounded valid.1 valid.2⟩
  | stop t =>
      refine ⟨n + 1, fun fuel => ?_⟩
      have change : Ends fuel (n + 1) _ s.Keeps ((Thread.change fuel t .stopped).run s) :=
        h.change bounded valid nofun
      rw [asleep.1] at change
      exact change
  | sleepOn ev t =>
      refine ⟨max n (t + 1) + 1, fun fuel => ?_⟩
      have change : Ends fuel (max n (t + 1) + 1) _ (s.appended ev t).Keeps
          ((Thread.change fuel t .sleeping).run (s.appended ev t)) :=
        h.appended.change bounded.appended valid nofun
      rw [asleep.2] at change
      exact change
  | trigger ev => exact ⟨n, fun fuel => h.trigger bounded⟩
  | schedule =>
      obtain ⟨s', run, h'⟩ := h.schedule_run
      refine ⟨0, fun fuel => ?_⟩
      change Ends fuel 0 False s.Keeps (Kernel.schedule.run s)
      rw [run]
      exact .ok id h'
  | run =>
      refine ⟨0, fun fuel => .ok id ⟨?_, rfl⟩⟩
      exact { h with inactive := nofun }
  | updateRuntime ticks => exact ⟨0, fun fuel => .ok id ⟨h.account fun _ => rfl, rfl⟩⟩
  | updateAccounting =>
      obtain ⟨entities, run, same⟩ := updateAccounting_run s
      refine ⟨0, fun fuel => ?_⟩
      change Ends fuel 0 False s.Keeps (updateAccounting.run s)
      rw [run]
      exact .ok id ⟨h.account same, rfl⟩

theorem Consistent.returned (h : Consistent s) (op : Op) (valid : op.Valid s)
    (returns : op.Returns s s') : s.Keeps s' := by
  obtain ⟨bound, ends⟩ := h.exec valid
  obtain ⟨fuel, run⟩ := returns
  have this := ends fuel
  rw [run] at this
  cases this with
  | ok _ keeps => exact keeps

/-! ### Runs -/

/-- The idle thread is not queued; another one is queued once if it is runnable and not at all
otherwise. -/
structure Matched (idle : EntityId) (s : State) : Prop where
  idleEntity : s.idleEntity = idle
  outside : idle ∉ s.runqueue
  count : ∀ e, e ≠ idle → s.runqueue.count e = if s.stateOf e = .runnable then 1 else 0

/-- No operation of the run wakes an entity under that entity's own wake-up, and no active
`schedule` meets a queue whose counter is back at zero. -/
def Careful : List Op → State → Prop
  | [], _ => True
  | op :: ops, s => ¬ op.WakesItself s ∧
      (op = .schedule → s.active = true → 2 ^ 32 ∣ s.runqueue.length → s.runqueue = []) ∧
      ∀ s', op.Returns s s' → Careful ops s'

theorem Consistent.matched (h : Consistent s) : Matched s.idleEntity s where
  idleEntity := rfl
  outside := fun queued => ((h.queue _).mp queued).1 rfl
  count := by
    intro e other
    split
    next runnable =>
        exact List.count_eq_one_of_mem h.nodup ((h.queue e).mpr ⟨other, runnable⟩)
    next asleep =>
        exact List.count_eq_zero_of_not_mem fun queued => asleep ((h.queue e).mp queued).2

theorem init_consistent (fuel : Nat) (idle : EntityId) (algorithm : SchedulingAlgorithm) :
    ∃ s, (init (fuel + 1) idle (some algorithm)).run State.boot = .ok (true, s) ∧ Consistent s ∧
      s.idleEntity = idle := by
  let s : State := { State.boot with
    algorithm := some algorithm
    idleEntity := idle
    runqueue := [idle].erase idle
    entities := update State.boot.entities idle ⟨0, 0, .runnable⟩
    waiters := update State.boot.waiters (.entity idle) []
    currentThread := some idle }
  have none : ∀ ev, s.waiters ev = [] := by
    intro ev
    change update _ _ _ _ = _
    rw [update_apply]
    exact ite_self _
  have states : ∀ e, s.stateOf e = if e = idle then .runnable else .stopped := by
    intro e
    change (update State.boot.entities idle ⟨0, 0, .runnable⟩ e).state = _
    rw [update_apply]
    split <;> rfl
  have empty : s.runqueue = [] := List.erase_cons_head idle []
  let s₁ : State := { State.boot with algorithm := some algorithm, idleEntity := idle }
  let s₂ : State := (s₁.changed idle .runnable).drained (.entity idle)
  have started : (setEntityState (fuel + 1) idle .runnable).run s₁ = .ok ((), s₂) := rfl
  have runnable : s₂.stateOf idle = .runnable := (states idle).trans (if_pos rfl)
  have activated : (activate idle Option.none).run s₂ =
      .ok (true, { s₂ with currentThread := some idle }) := activate_run runnable (by simp)
  refine ⟨s, ?_, ?_, rfl⟩
  · unfold init
    rw [bind_ok (run_modify_eq _ _)]
    dsimp only
    rw [bind_ok (run_modify_eq _ _), bind_ok started, bind_ok activated]
    rfl
  refine ⟨⟨⟨rfl, ?_⟩, ?_, ?_⟩, ?_, ?_, ?_, rfl, fun _ => rfl⟩
  · intro e
    rw [states]
    split <;> exact nofun
  · rw [empty]
    exact List.nodup_nil
  · rw [empty]
    exact fun e he => absurd he List.not_mem_nil
  · rw [states]
    exact if_pos rfl
  · intro e
    rw [empty, states]
    by_cases same : e = idle <;> simp [same, s]
  · refine ⟨0, fun ev w hw => ?_⟩
    rw [none] at hw
    cases hw

end Runs
end Infos.Kernel
