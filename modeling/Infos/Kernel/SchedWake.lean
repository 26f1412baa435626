import Infos.Kernel.Sched
import Infos.Lib.Cascade
import Mathlib.Data.Finset.Card
import Mathlib.Data.Finset.Range
import Mathlib.Data.List.Nodup

/-!
# What a wake-up does

Waking threads makes runnable, in some order, exactly the threads in the
cascade through the wake queues; only a thread in the cascade of its own event
breaks the loop.
-/
namespace Infos.Kernel
open Infos.Lib Function Set

/-- `w` waits for a state change of `u`. -/
def State.Waits (s : State) (u w : EntityId) : Prop := w ∈ s.waiters (.entity u)

def State.asleep (s : State) : Set EntityId := {e | s.stateOf e ≠ .runnable}

/-- The entities that become runnable when those of `roots` are woken. -/
def State.Cascade (s : State) (roots : Set EntityId) : EntityId → Prop :=
  Lib.Cascade s.Waits s.asleep roots

def State.roots (s : State) (ev : EventId) : Set EntityId := {w | w ∈ s.waiters ev}

/-- The scheduler after the entities `ws` were woken one after another. -/
def State.woken (s : State) (ws : List EntityId) : State :=
  { s with
    runqueue := s.runqueue ++ ws
    entities := fun e =>
      if e ∈ ws then { s.entities e with state := .runnable } else s.entities e
    waiters := fun ev =>
      match ev with
      | .entity e => if e ∈ ws then [] else s.waiters ev
      | _ => s.waiters ev }

def State.drained (s : State) (ev : EventId) : State :=
  { s with waiters := update s.waiters ev [] }

/-- The scheduler after the state of `e` changed, before anyone is told. -/
def State.changed (s : State) (e : EntityId) (new : SchedulingEntityState) : State :=
  { s with
    runqueue :=
      if new = .runnable then s.runqueue ++ [e]
      else if s.stateOf e = .runnable then s.runqueue.erase e
      else s.runqueue
    entities := update s.entities e { s.entities e with state := new } }

/-- What every change of state relies on. -/
structure State.Ready (s : State) : Prop where
  algorithm : s.algorithm.isSome = true
  notRunning : ∀ e, s.stateOf e ≠ .running

/-- `ws` lists the cascade from `roots`. -/
structure Woke (s : State) (roots : Set EntityId) (ws : List EntityId) : Prop where
  nodup : ws.Nodup
  mem : ∀ x, x ∈ ws ↔ s.Cascade roots x

/-- All waiting entities are below `n`. -/
def State.Bounded (s : State) (n : Nat) : Prop := ∀ ev, ∀ w ∈ s.waiters ev, w < n

/-- How many entities below `n` can still be woken. -/
def State.sleepers (s : State) (n : Nat) : Nat :=
  ((Finset.range n).filter fun e => s.stateOf e ≠ .runnable).card

section Woken
variable {s : State} {ws ws' : List EntityId} {roots roots' : Set EntityId} {e x : EntityId}
  {ev : EventId} {n : Nat} {new : SchedulingEntityState}

theorem stateOf_woken : (s.woken ws).stateOf x = if x ∈ ws then .runnable else s.stateOf x := by
  unfold State.stateOf State.woken
  dsimp only
  split <;> rfl

theorem stateOf_changed : (s.changed e new).stateOf x = if x = e then new else s.stateOf x := by
  unfold State.stateOf State.changed
  dsimp only
  rw [update_apply]
  split <;> rfl

theorem waiters_woken_mem (h : e ∈ ws) : (s.woken ws).waiters (.entity e) = [] := if_pos h

theorem waiters_woken (h : ∀ e, ev = .entity e → e ∉ ws) :
    (s.woken ws).waiters ev = s.waiters ev := by
  cases ev with
  | entity e => exact if_neg (h e rfl)
  | process p => rfl
  | other n => rfl

theorem mem_waiters_woken (h : x ∈ (s.woken ws).waiters ev) : x ∈ s.waiters ev := by
  by_cases inside : ∃ e, ev = .entity e ∧ e ∈ ws
  · obtain ⟨e, rfl, he⟩ := inside
    rw [waiters_woken_mem he] at h
    cases h
  · rwa [waiters_woken fun e eq he => inside ⟨e, eq, he⟩] at h

theorem woken_nil : s.woken [] = s := by
  cases s with
  | mk active algorithm current idle runqueue entities waiters thread processes runtime =>
      unfold State.woken
      congr 1
      · exact List.append_nil _
      · funext ev
        cases ev with
        | entity e => exact if_neg List.not_mem_nil
        | process p => rfl
        | other n => rfl

theorem woken_woken : (s.woken ws).woken ws' = s.woken (ws ++ ws') := by
  unfold State.woken
  congr 1
  · exact List.append_assoc _ _ _
  · funext e
    dsimp only
    by_cases h : e ∈ ws <;> by_cases h' : e ∈ ws' <;> simp [h, h']
  · funext ev
    cases ev with
    | entity e =>
        dsimp only
        by_cases h : e ∈ ws <;> by_cases h' : e ∈ ws' <;> simp [h, h']
    | process p => rfl
    | other n => rfl

theorem State.Ready.woken (h : s.Ready) : (s.woken ws).Ready where
  algorithm := h.algorithm
  notRunning := by
    intro e
    rw [stateOf_woken]
    split
    · exact nofun
    · exact h.notRunning e

theorem State.Bounded.woken (h : s.Bounded n) : (s.woken ws).Bounded n :=
  fun ev w hw => h ev w (mem_waiters_woken hw)

theorem sleepers_woken_le : (s.woken ws).sleepers n ≤ s.sleepers n := by
  apply Finset.card_le_card
  intro e he
  rw [Finset.mem_filter] at he ⊢
  refine ⟨he.1, fun awake => he.2 ?_⟩
  rw [stateOf_woken, awake]
  exact ite_self _

theorem waits_woken : (s.woken ws).Waits = fun u v => s.Waits u v ∧ u ∉ ws := by
  funext u v
  unfold State.Waits
  by_cases h : u ∈ ws
  · simp [waiters_woken_mem h, h]
  · rw [waiters_woken fun e eq => by cases eq; exact h]
    simp [h]

theorem asleep_woken : (s.woken ws).asleep = s.asleep \ {v | v ∈ ws} := by
  ext v
  change (s.woken ws).stateOf v ≠ .runnable ↔ s.stateOf v ≠ .runnable ∧ v ∉ ws
  rw [stateOf_woken]
  by_cases h : v ∈ ws <;> simp [h]

theorem Woke.nil (h : ∀ x, ¬ s.Cascade roots x) : Woke s roots [] where
  nodup := List.nodup_nil
  mem := fun x => ⟨fun hx => absurd hx List.not_mem_nil, fun hx => absurd hx (h x)⟩

theorem Woke.cascade_woken (h : Woke s roots ws) :
    s.Cascade (roots ∪ roots') x ↔ x ∈ ws ∨ (s.woken ws).Cascade roots' x := by
  have same : {v | v ∈ ws} = {v | Lib.Cascade s.Waits s.asleep roots v} := by
    ext v
    exact h.mem v
  have edges : (fun u v => s.Waits u v ∧ u ∉ ws) =
      fun u v => s.Waits u v ∧ ¬ Lib.Cascade s.Waits s.asleep roots u := by
    funext u v
    rw [h.mem u]
    rfl
  unfold State.Cascade
  rw [waits_woken, asleep_woken, same, edges, Lib.Cascade.seq, h.mem x]
  rfl

/-- Two wake-ups one after the other. -/
theorem Woke.append (h : Woke s roots ws) (h' : Woke (s.woken ws) roots' ws') :
    Woke s (roots ∪ roots') (ws ++ ws') where
  nodup := by
    refine List.nodup_append'.mpr ⟨h.nodup, h'.nodup, fun x hx hx' => ?_⟩
    have still := ((h'.mem x).mp hx').was_asleep
    rw [asleep_woken] at still
    exact still.2 hx
  mem := by
    intro x
    rw [List.mem_append, h.cascade_woken, h'.mem]

theorem State.Ready.changed (h : s.Ready) (running : new ≠ .running) :
    (s.changed e new).Ready where
  algorithm := h.algorithm
  notRunning := by
    intro x
    rw [stateOf_changed]
    split
    · exact running
    · exact h.notRunning x

theorem changed_woken_drained :
    ((s.changed e .runnable).woken ws).drained (.entity e) = s.woken (e :: ws) := by
  unfold State.changed State.woken State.drained
  congr 1
  · change (s.runqueue ++ [e]) ++ ws = s.runqueue ++ e :: ws
    rw [List.append_assoc]
    rfl
  · funext x
    dsimp only
    by_cases same : x = e
    · subst same
      rw [update_self, if_pos List.mem_cons_self]
      exact ite_self _
    · simp [same]
  · funext ev
    rw [update_apply]
    cases ev with
    | entity x =>
        by_cases same : x = e
        · subst same
          simp
        · simp [same]
    | process p => simp
    | other n => simp

/-- Making a sleeping entity runnable and then waking those that waited for it. -/
theorem Woke.visit (sleeping : s.stateOf e ≠ .runnable)
    (h : Woke (s.changed e .runnable) (s.roots (.entity e)) ws) : Woke s {e} (e :: ws) := by
  have fewer : (s.changed e .runnable).asleep = s.asleep \ {e} := by
    ext x
    change (s.changed e .runnable).stateOf x ≠ .runnable ↔ s.stateOf x ≠ .runnable ∧ x ≠ e
    rw [stateOf_changed]
    by_cases same : x = e <;> simp [same]
  have inside : ∀ x, x ∈ ws ↔
      Lib.Cascade s.Waits (s.asleep \ {e}) {v | s.Waits e v} x := by
    intro x
    rw [h.mem, State.Cascade, fewer]
    rfl
  constructor
  case nodup =>
    apply List.nodup_cons.mpr
    constructor
    · intro he
      exact ((inside e).mp he).was_asleep.2 rfl
    · exact h.nodup
  case mem =>
    intro x
    rw [List.mem_cons, inside]
    exact (Lib.Cascade.visit sleeping).symm

theorem sleepers_changed_lt (below : e < n) (sleeping : s.stateOf e ≠ .runnable) :
    (s.changed e .runnable).sleepers n < s.sleepers n := by
  apply Finset.card_lt_card
  refine Finset.ssubset_iff_subset_ne.mpr ⟨fun x hx => ?_, fun same => ?_⟩
  · rw [Finset.mem_filter, stateOf_changed] at hx
    rw [Finset.mem_filter]
    refine ⟨hx.1, fun awake => hx.2 ?_⟩
    rw [awake]
    exact ite_self _
  · have here : e ∈ (Finset.range n).filter fun e => s.stateOf e ≠ .runnable :=
      Finset.mem_filter.mpr ⟨Finset.mem_range.mpr below, sleeping⟩
    rw [← same, Finset.mem_filter, stateOf_changed, if_pos rfl] at here
    exact here.2 rfl

end Woken

section Run
variable {s : State} {e : EntityId} {ev : EventId} {fuel : Nat} {new : SchedulingEntityState}

/-- The outcomes of waking `roots`, when `ev` must not be drained meanwhile. -/
inductive WakeOutcome (fuel : Nat) (s : State) (roots : Set EntityId) (ev : EventId)
    (finish : State → State) : Except Fault (Unit × State) → Prop
  | outOfFuel : (∀ n, s.Bounded n → (∀ w ∈ roots, w < n) → fuel ≤ s.sleepers n) →
      WakeOutcome fuel s roots ev finish (.error .outOfFuel)
  | useAfterFree {e : EntityId} : ev = .entity e → s.Cascade roots e →
      WakeOutcome fuel s roots ev finish (.error .useAfterFree)
  | ok {ws : List EntityId} : Woke s roots ws → (∀ e, ev = .entity e → e ∉ ws) →
      WakeOutcome fuel s roots ev finish (.ok ((), finish (s.woken ws)))

/-- What one call of `wake_up` may do. -/
inductive WakeUpOutcome (fuel : Nat) (s : State) (w : EntityId) :
    Except Fault (Unit × State) → Prop
  | outOfFuel : (∀ n, s.Bounded n → w < n → fuel ≤ s.sleepers n) →
      WakeUpOutcome fuel s w (.error .outOfFuel)
  | ok {ws : List EntityId} : Woke s {w} ws → WakeUpOutcome fuel s w (.ok ((), s.woken ws))

theorem wakeLoop_run (ev : EventId) {wakeUp : EntityId → Exec State Unit}
    (wakes : ∀ s w, s.Ready → WakeUpOutcome fuel s w ((wakeUp w).run s)) (ready : s.Ready)
    (queue : List EntityId) (open_ : queue ≠ [] → s.waiters ev ≠ []) :
    WakeOutcome fuel s {w | w ∈ queue} ev id ((wakeLoop wakeUp ev queue).run s) := by
  induction queue generalizing s with
  | nil =>
      have none : {w : EntityId | w ∈ ([] : List EntityId)} = ∅ := by
        ext w
        exact ⟨fun h => absurd h List.not_mem_nil, fun h => absurd h (Set.notMem_empty w)⟩
      have done : (wakeLoop wakeUp ev []).run s = .ok ((), id (s.woken [])) := by
        rw [woken_nil]
        rfl
      rw [done, none]
      exact .ok (Woke.nil fun x => Lib.Cascade.empty) fun e _ => List.not_mem_nil
  | cons w rest ih =>
      have both : {x | x ∈ w :: rest} = {w} ∪ {x | x ∈ rest} := by
        ext x
        exact List.mem_cons
      have first := wakes s w ready
      unfold wakeLoop
      cases h : (wakeUp w).run s with
      | error err =>
          rw [h] at first
          cases first with
          | outOfFuel short =>
              rw [bind_error h]
              exact .outOfFuel fun n bound below => short n bound (below w List.mem_cons_self)
      | ok r =>
          rw [h] at first
          cases first with
          | ok woke =>
              rename_i ws
              rw [bind_ok h, bind_ok (run_get_eq _), both]
              by_cases freed : ∃ e, ev = .entity e ∧ e ∈ ws
              · obtain ⟨e, rfl, he⟩ := freed
                rw [if_pos (waiters_woken_mem he)]
                exact .useAfterFree rfl (woke.cascade_woken.mpr (.inl he))
              · have kept : ∀ e, ev = .entity e → e ∉ ws := fun e eq he => freed ⟨e, eq, he⟩
                have queued : (s.woken ws).waiters ev = s.waiters ev := waiters_woken kept
                have nonempty := open_ (List.cons_ne_nil w rest)
                rw [if_neg (by rw [queued]; exact nonempty)]
                have later := ih (s := s.woken ws) ready.woken fun _ => by rw [queued]; exact nonempty
                revert later
                generalize (wakeLoop wakeUp ev rest).run (s.woken ws) = result
                intro later
                cases later with
                | outOfFuel short =>
                    refine .outOfFuel fun n bound below => ?_
                    have less := short n bound.woken fun x hx => below x (.inr hx)
                    exact less.trans sleepers_woken_le
                | useAfterFree eq inside =>
                    exact .useAfterFree eq (woke.cascade_woken.mpr (.inr inside))
                | ok woke' kept' =>
                    rw [woken_woken]
                    refine .ok (woke.append woke') fun e eq he => ?_
                    cases List.mem_append.mp he with
                    | inl he => exact kept e eq he
                    | inr he => exact kept' e eq he

theorem wake_run (ev : EventId) {wakeUp : EntityId → Exec State Unit}
    (wakes : ∀ s w, s.Ready → WakeUpOutcome fuel s w ((wakeUp w).run s)) (ready : s.Ready) :
    WakeOutcome fuel s (s.roots ev) ev (fun s => s.drained ev) ((wake wakeUp ev).run s) := by
  have loop := wakeLoop_run ev wakes ready (s.waiters ev) id
  unfold wake
  rw [bind_ok (run_get_eq s)]
  cases h : (wakeLoop wakeUp ev (s.waiters ev)).run s with
  | error err =>
      rw [bind_error h]
      rw [h] at loop
      cases loop with
      | outOfFuel short => exact .outOfFuel short
      | useAfterFree eq inside => exact .useAfterFree eq inside
  | ok r =>
      rw [bind_ok h]
      rw [h] at loop
      cases loop with
      | ok woke kept => exact .ok woke kept

theorem setEntityState_same (ready : s.Ready) (same : s.stateOf e = new) :
    (setEntityState (fuel + 1) e new).run s = .ok ((), s) := by
  unfold setEntityState
  rw [bind_ok (run_get_eq s), bind_ok (assertThat_run ready.algorithm), bind_ok (run_get_eq s)]
  exact congrArg (fun x : Exec State Unit => x.run s) (if_pos same)

theorem updateRunqueue_run (ready : s.Ready) (running : new ≠ .running)
    (differs : s.stateOf e ≠ new) : (updateRunqueue e (s.stateOf e) new).run s =
      .ok ((), { s with runqueue := (s.changed e new).runqueue }) := by
  have notRunning := ready.notRunning e
  unfold updateRunqueue State.changed
  cases new with
  | running => exact absurd rfl running
  | runnable =>
      have idle : s.stateOf e = .stopped ∨ s.stateOf e = .sleeping := by
        cases h : s.stateOf e <;> simp_all
      dsimp only
      rw [if_pos idle]
      rfl
  | stopped =>
      dsimp only
      by_cases awake : s.stateOf e = .runnable
      · rw [if_pos (.inl awake), if_neg nofun, if_pos awake]
        rfl
      · rw [if_neg (not_or.mpr ⟨awake, notRunning⟩), if_neg nofun, if_neg awake]
        rfl
  | sleeping =>
      dsimp only
      by_cases awake : s.stateOf e = .runnable
      · rw [if_pos (.inl awake), if_neg nofun, if_pos awake]
        rfl
      · rw [if_neg (not_or.mpr ⟨awake, notRunning⟩), if_neg nofun, if_neg awake]
        rfl

theorem setEntityState_changed (ready : s.Ready) (running : new ≠ .running)
    (differs : s.stateOf e ≠ new) : (setEntityState (fuel + 1) e new).run s =
      (wake (fun w => setEntityState fuel w .runnable) (.entity e)).run (s.changed e new) := by
  rw [setEntityState, bind_ok (run_get_eq s), bind_ok (assertThat_run ready.algorithm),
    bind_ok (run_get_eq s)]
  dsimp only
  rw [if_neg differs, bind_ok (updateRunqueue_run ready running differs), recordState,
    bind_ok (run_modify_eq _ _)]
  rfl

/-- `wake_up` wakes the cascade of its thread, and cannot break a loop. -/
theorem wakeUp_run (fuel : Nat) : ∀ (s : State) (w : EntityId), s.Ready →
    WakeUpOutcome fuel s w ((setEntityState fuel w .runnable).run s) := by
  induction fuel with
  | zero =>
      intro s w ready
      exact .outOfFuel fun n _ _ => Nat.zero_le _
  | succ fuel ih =>
      intro s w ready
      by_cases awake : s.stateOf w = .runnable
      · rw [setEntityState_same ready awake]
        have none : ∀ x, ¬ s.Cascade {w} x := by
          intro x h
          induction h with
          | root hr hx => exact hx (hr ▸ awake)
          | next _ _ _ ih => exact ih
        have same : s = s.woken [] := woken_nil.symm
        nth_rewrite 2 [same]
        exact .ok (Woke.nil none)
      · have other : SchedulingEntityState.runnable ≠ .running := nofun
        rw [setEntityState_changed ready other awake]
        have all := wake_run (.entity w) ih (ready.changed (e := w) other)
        revert all
        generalize (wake (fun x => setEntityState fuel x .runnable) (.entity w)).run
          (s.changed w .runnable) = result
        intro all
        cases all with
        | outOfFuel short =>
            refine .outOfFuel fun n bound below => ?_
            have less := short n bound fun x hx => bound _ x hx
            have fewer := sleepers_changed_lt below awake
            omega
        | useAfterFree eq inside =>
            cases eq
            have asleep : (s.changed w .runnable).stateOf w ≠ .runnable := inside.was_asleep
            rw [stateOf_changed, if_pos rfl] at asleep
            exact absurd rfl asleep
        | ok woke _ =>
            rw [changed_woken_drained]
            exact .ok (woke.visit awake)

theorem trigger_run (fuel : Nat) (ev : EventId) (ready : s.Ready) :
    WakeOutcome fuel s (s.roots ev) ev (fun s => s.drained ev) ((Event.trigger fuel ev).run s) :=
  wake_run ev (fun s w ready => wakeUp_run fuel s w ready) ready

/-- A change of state wakes the cascade of those that wait for it. -/
theorem setEntityState_run (fuel : Nat) (ready : s.Ready) (running : new ≠ .running)
    (differs : s.stateOf e ≠ new) :
    WakeOutcome fuel (s.changed e new) (s.roots (.entity e)) (.entity e)
      (fun s => s.drained (.entity e)) ((setEntityState (fuel + 1) e new).run s) := by
  rw [setEntityState_changed ready running differs]
  exact wake_run (.entity e) (fun s w ready => wakeUp_run fuel s w ready) (ready.changed running)

end Run

/-! ### Fuel -/

section Fuel
variable {wakeUp wakeUp' : EntityId → Exec State Unit} {fuel fuel' : Nat}

theorem wakeLoop_approximates (more : ∀ w, Approximates (wakeUp w) (wakeUp' w)) (ev : EventId)
    (queue : List EntityId) :
    Approximates (wakeLoop wakeUp ev queue) (wakeLoop wakeUp' ev queue) := by
  induction queue with
  | nil => exact .refl _
  | cons w rest ih =>
      unfold wakeLoop
      exact .bind (more w) fun _ => .bind (.refl _) fun _ => .ite (.refl _) ih

theorem wake_approximates (more : ∀ w, Approximates (wakeUp w) (wakeUp' w)) (ev : EventId) :
    Approximates (wake wakeUp ev) (wake wakeUp' ev) := by
  unfold wake
  exact .bind (.refl _) fun _ => .bind (wakeLoop_approximates more ev _) fun _ => .refl _

/-- More fuel does not change what a change of state returns. -/
theorem setEntityState_approximates (le : fuel ≤ fuel') (e : EntityId)
    (new : SchedulingEntityState) :
    Approximates (setEntityState fuel e new) (setEntityState fuel' e new) := by
  induction fuel generalizing fuel' e new with
  | zero => exact fun _ _ run => nomatch run
  | succ fuel ih =>
      obtain ⟨fuel', rfl⟩ := Nat.exists_eq_add_one_of_ne_zero (Nat.ne_zero_of_lt le)
      have less : fuel ≤ fuel' := Nat.le_of_succ_le_succ le
      unfold setEntityState
      refine .bind (.refl _) fun _ => .bind (.refl _) fun _ => .bind (.refl _) fun _ => ?_
      refine .ite (.refl _) (.bind (.refl _) fun _ => .bind (.refl _) fun _ => ?_)
      exact wake_approximates (fun w => ih less w .runnable) (.entity e)

end Fuel
end Infos.Kernel
