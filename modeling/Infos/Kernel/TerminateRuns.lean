import Infos.Kernel.Process
import Infos.Kernel.StopRuns

/-!
# Terminating a process

`terminate` stops the threads one after another. It loses the processor when it
stops its own caller, and each stop may wake threads stopped before.
-/
namespace Infos.Kernel
open Infos.Lib Function Set

/-- The entities whose state changes when the event of `p` is triggered and then `ts` are
stopped, as long as none of `ts` is woken again. -/
def State.Touched (s : State) (p : Nat) (ts : List EntityId) (x : EntityId) : Prop :=
  (x ∈ ts ∧ s.stateOf x ≠ .stopped) ∨
    s.Cascade (s.roots (.process p) ∪ {w | ∃ u ∈ ts, s.stateOf u ≠ .stopped ∧ s.Waits u w}) x

/-- What a thread of `ts` waits for changes, if at all, before the thread is stopped. -/
def State.Early (s : State) (p : Nat) (ts : List EntityId) : Prop :=
  ∀ done t rest, ts = done ++ t :: rest → ∀ u, s.Waits u t → s.Touched p ts u → s.Touched p done u

/-- The threads that `terminate` stops: all, or those up to its caller. -/
def stoppedBy (caller : EntityId) : List EntityId → List EntityId
  | [] => []
  | t :: rest => if t = caller then [t] else t :: stoppedBy caller rest

/-- What has happened once the threads `ts` are stopped, seen from the state at the start. -/
structure Progress (s₀ : State) (p : Nat) (ts : List EntityId) (s : State) : Prop where
  stopped : ∀ x ∈ ts, s.stateOf x = .stopped
  woken : ∀ x, x ∉ ts → s₀.Touched p ts x → s.stateOf x = .runnable
  kept : ∀ x, x ∉ ts → ¬ s₀.Touched p ts x → s.stateOf x = s₀.stateOf x
  emptied : ∀ u, s₀.Touched p ts u → s.waiters (.entity u) = []
  queues : ∀ u, ¬ s₀.Touched p ts u → s.waiters (.entity u) = s₀.waiters (.entity u)
  early : s₀.Early p ts

section Stage
variable {s₀ s s' : State} {p : Nat} {ts ts' ws : List EntityId} {t u x : EntityId} {fuel : Nat}

theorem State.Touched.mono (h : s.Touched p ts x) (sub : ts ⊆ ts') : s.Touched p ts' x := by
  cases h with
  | inl own => exact .inl ⟨sub own.1, own.2⟩
  | inr reached =>
      refine .inr (reached.mono (fun _ _ _ he => he) Subset.rfl fun r _ hr => ?_)
      cases hr with
      | inl hr => exact .inl hr
      | inr hr =>
          obtain ⟨u, hu, active, waits⟩ := hr
          exact .inr ⟨u, sub hu, active, waits⟩

theorem State.Touched.next (h : s.Touched p ts u) (waits : s.Waits u x) (asleep : x ∈ s.asleep) :
    s.Touched p ts x := by
  cases h with
  | inl own => exact .inr (.root (.inr ⟨u, own.1, own.2, waits⟩) asleep)
  | inr reached => exact .inr (.next reached waits asleep)

theorem touched_append_stopped (stopped : s.stateOf t = .stopped) :
    s.Touched p (ts ++ [t]) x ↔ s.Touched p ts x := by
  refine ⟨fun h => ?_, fun h => h.mono (List.subset_append_left ts [t])⟩
  have active : ∀ u ∈ ts ++ [t], s.stateOf u ≠ .stopped → u ∈ ts := by
    intro u hu running
    cases List.mem_append.mp hu with
    | inl hu => exact hu
    | inr hu => exact absurd (List.mem_singleton.mp hu ▸ stopped) running
  cases h with
  | inl own => exact .inl ⟨active x own.1 own.2, own.2⟩
  | inr reached =>
      refine .inr (reached.mono (fun _ _ _ he => he) Subset.rfl fun r _ hr => ?_)
      cases hr with
      | inl hr => exact .inl hr
      | inr hr =>
          obtain ⟨u, hu, running, waits⟩ := hr
          exact .inr ⟨u, active u hu running, running, waits⟩

theorem Progress.waits (h : Progress s₀ p ts s) :
    s.Waits u x ↔ ¬ s₀.Touched p ts u ∧ s₀.Waits u x := by
  unfold State.Waits
  by_cases touched : s₀.Touched p ts u
  · simp [h.emptied u touched, touched]
  · simp [h.queues u touched, touched]

theorem append_singleton_split {done rest : List EntityId} (h : ts ++ [t] = done ++ u :: rest) :
    (u = t ∧ done = ts) ∨ ∃ rest', ts = done ++ u :: rest' := by
  rcases List.eq_nil_or_concat rest with rfl | ⟨rest', last, rfl⟩
  · obtain ⟨same, last⟩ := List.append_inj' h rfl
    cases last
    exact .inl ⟨rfl, same.symm⟩
  · rw [List.concat_eq_append, ← List.cons_append, ← List.append_assoc] at h
    exact .inr ⟨rest', (List.append_inj' h rfl).1⟩

/-- The stop of a thread that is stopped already. -/
theorem Progress.skip (h : Progress s₀ p ts s) (fresh : t ∉ ts) (stopped : s.stateOf t = .stopped) :
    Progress s₀ p (ts ++ [t]) s := by
  have untouched : ¬ s₀.Touched p ts t := by
    intro touched
    exact absurd ((h.woken t fresh touched).symm.trans stopped) nofun
  have before : s₀.stateOf t = .stopped := (h.kept t fresh untouched).symm.trans stopped
  constructor
  case stopped =>
    intro x hx
    cases List.mem_append.mp hx with
    | inl hx => exact h.stopped x hx
    | inr hx => exact List.mem_singleton.mp hx ▸ stopped
  case woken =>
    intro x hx touched
    exact h.woken x (fun hx' => hx (List.mem_append_left _ hx'))
      ((touched_append_stopped before).mp touched)
  case kept =>
    intro x hx untouched
    exact h.kept x (fun hx' => hx (List.mem_append_left _ hx'))
      fun touched => untouched ((touched_append_stopped before).mpr touched)
  case emptied =>
    intro u touched
    exact h.emptied u ((touched_append_stopped before).mp touched)
  case queues =>
    intro u untouched
    exact h.queues u fun touched => untouched ((touched_append_stopped before).mpr touched)
  case early =>
    intro done t' rest eq u waits touched
    have touched' := (touched_append_stopped before).mp touched
    rcases append_singleton_split eq with ⟨rfl, rfl⟩ | ⟨rest', eq'⟩
    · exact touched'
    · exact h.early done t' rest' eq' u waits touched'

/-- The entities woken by the stop of `t`. -/
abbrev State.Stopping (s : State) (t : EntityId) : EntityId → Prop :=
  (s.changed t .stopped).Cascade (s.roots (.entity t))

/-- The stop of `t` wakes entities not touched before, as long as it keeps off `ts` and `t`. -/
theorem Progress.stopping (h : Progress s₀ p ts s) (fresh : t ∉ ts)
    (running : s.stateOf t ≠ .stopped)
    (apart : ∀ u x, s.Stopping t x → s₀.Waits u x → s₀.Touched p (ts ++ [t]) u →
      ¬ s₀.Touched p ts u → x ∉ ts ∧ x ≠ t) (hx : s.Stopping t x) :
    (x ∉ ts ∧ x ≠ t) ∧ s₀.Touched p (ts ++ [t]) x ∧ ¬ s₀.Touched p ts x := by
  have own : ¬ s₀.Touched p ts t → s₀.Touched p (ts ++ [t]) t := by
    intro untouched
    refine .inl ⟨List.mem_append_right _ List.mem_cons_self, ?_⟩
    rw [← h.kept t fresh untouched]
    exact running
  have step : ∀ u x, s.Stopping t x → s.Waits u x →
      (¬ s₀.Touched p ts u → s₀.Touched p (ts ++ [t]) u) →
      (x ∉ ts ∧ x ≠ t) ∧ s₀.Touched p (ts ++ [t]) x ∧ ¬ s₀.Touched p ts x := by
    intro u x hx waits touches
    obtain ⟨untouched, waits₀⟩ := h.waits.mp waits
    have off := apart u x hx waits₀ (touches untouched) untouched
    have asleep : s.stateOf x ≠ .runnable := by
      have := hx.was_asleep
      change (s.changed t .stopped).stateOf x ≠ .runnable at this
      rwa [stateOf_changed, if_neg off.2] at this
    have new : ¬ s₀.Touched p ts x := fun touched => asleep (h.woken x off.1 touched)
    rw [h.kept x off.1 new] at asleep
    exact ⟨off, (touches untouched).next waits₀ asleep, new⟩
  induction hx with
  | root hr hx => exact step t _ (.root hr hx) hr own
  | next hu he hx ih => exact step _ _ (.next hu he hx) he fun _ => ih.2.1

theorem Progress.apart (h : Progress s₀ p ts s) (fresh : t ∉ ts) (running : s.stateOf t ≠ .stopped)
    (early : s₀.Early p (ts ++ [t])) (hx : s.Stopping t x) : x ∉ ts ∧ x ≠ t := by
  apply (h.stopping fresh running ?_ hx).1
  intro u x _ waits touched untouched
  constructor
  · intro inside
    obtain ⟨done, rest, rfl⟩ := List.append_of_mem inside
    have before := early done x (rest ++ [t]) (by simp) u waits touched
    exact untouched (before.mono (List.subset_append_left _ _))
  · rintro rfl
    exact untouched (early ts x [] rfl u waits touched)

/-- The scheduler after a stop of `t` that woke `ws`. -/
abbrev State.stoppedWaking (s : State) (t : EntityId) (ws : List EntityId) : State :=
  ((s.changed t .stopped).woken ws).drained (.entity t)

theorem Progress.touched_append (h : Progress s₀ p ts s) (fresh : t ∉ ts)
    (running : s.stateOf t ≠ .stopped) (apart : ∀ x, s.Stopping t x → x ∉ ts ∧ x ≠ t) :
    s₀.Touched p (ts ++ [t]) x ↔ s₀.Touched p ts x ∨ x = t ∨ s.Stopping t x := by
  have found : ∀ x, s.Stopping t x → s₀.Touched p (ts ++ [t]) x ∧ ¬ s₀.Touched p ts x :=
    fun x hx => (h.stopping fresh running (fun _ x hx _ _ _ => apart x hx) hx).2
  -- a sleeper that waits for something touched is touched, or it is woken now
  have step : ∀ u x, s₀.Touched p ts u ∨ u = t ∨ s.Stopping t u → s₀.Waits u x →
      x ∈ s₀.asleep → s₀.Touched p ts x ∨ x = t ∨ s.Stopping t x := by
    intro u x hu waits asleep
    by_cases before : s₀.Touched p ts u
    · exact .inl (before.next waits asleep)
    · have now : u = t ∨ s.Stopping t u := hu.resolve_left before
      have waits' : s.Waits u x := h.waits.mpr ⟨before, waits⟩
      by_cases self : x = t
      · exact .inr (.inl self)
      · by_cases touched : s₀.Touched p ts x
        · exact .inl touched
        · have asleep' : x ∈ (s.changed t .stopped).asleep := by
            change (s.changed t .stopped).stateOf x ≠ .runnable
            rw [stateOf_changed, if_neg self]
            by_cases inside : x ∈ ts
            · rw [h.stopped x inside]
              exact nofun
            · rw [h.kept x inside touched]
              exact asleep
          refine .inr (.inr ?_)
          cases now with
          | inl same =>
              subst same
              exact .root waits' asleep'
          | inr stopping => exact .next stopping waits' asleep'
  constructor
  · rintro (own | reached)
    · cases List.mem_append.mp own.1 with
      | inl hx => exact .inl (.inl ⟨hx, own.2⟩)
      | inr hx => exact .inr (.inl (List.mem_singleton.mp hx))
    · induction reached with
      | root hr hx =>
          cases hr with
          | inl hr => exact .inl (.inr (.root (.inl hr) hx))
          | inr hr =>
              obtain ⟨u, hu, active, waits⟩ := hr
              refine step u _ ?_ waits hx
              cases List.mem_append.mp hu with
              | inl hu => exact .inl (.inl ⟨hu, active⟩)
              | inr hu => exact .inr (.inl (List.mem_singleton.mp hu))
      | next _ he hx ih => exact step _ _ ih he hx
  · rintro (before | rfl | stopping)
    · exact before.mono (List.subset_append_left ts [t])
    · by_cases before : s₀.Touched p ts x
      · exact before.mono (List.subset_append_left ts [x])
      · refine .inl ⟨List.mem_append_right _ List.mem_cons_self, ?_⟩
        rw [← h.kept x fresh before]
        exact running
    · exact (found x stopping).1

theorem stateOf_stoppedWaking (s : State) (t : EntityId) (ws : List EntityId) (x : EntityId) :
    (s.stoppedWaking t ws).stateOf x =
      if x ∈ ws then .runnable else if x = t then .stopped else s.stateOf x := by
  change ((s.changed t .stopped).woken ws).stateOf x = _
  rw [stateOf_woken, stateOf_changed]

theorem waiters_stoppedWaking (s : State) (ws : List EntityId) (other : u ≠ t) :
    (s.stoppedWaking t ws).waiters (.entity u) =
      if u ∈ ws then [] else s.waiters (.entity u) := by
  change update _ _ _ _ = _
  rw [update_of_ne (by simpa using other)]
  rfl

theorem Progress.behind (h : Progress s₀ p ts s)
    (apart : ∀ x, s.Stopping t x → x ∉ ts ∧ x ≠ t) (now : u = t ∨ s.Stopping t u)
    (untouched : ¬ s₀.Touched p ts u) (waits : s₀.Waits u x) : x ∉ ts ∧ x ≠ t := by
  by_contra inside
  rw [not_and_or, not_not, not_not] at inside
  have waits' : s.Waits u x := h.waits.mpr ⟨untouched, waits⟩
  -- a stopped thread counts as asleep, so the stop would wake it
  have asleep : x ∈ (s.changed t .stopped).asleep := by
    change (s.changed t .stopped).stateOf x ≠ .runnable
    rw [stateOf_changed]
    split
    next => exact nofun
    next other =>
        rw [h.stopped x (inside.resolve_right other)]
        exact nofun
  have hit : s.Stopping t x := by
    rcases now with self | stopping
    · exact .root (self ▸ waits') asleep
    · exact .next stopping waits' asleep
  exact absurd inside (not_or.mpr (apart x hit))

theorem Progress.stop (h : Progress s₀ p ts s) (fresh : t ∉ ts) (running : s.stateOf t ≠ .stopped)
    (apart : ∀ x, s.Stopping t x → x ∉ ts ∧ x ≠ t)
    (woke : Woke (s.changed t .stopped) (s.roots (.entity t)) ws) :
    Progress s₀ p (ts ++ [t]) (s.stoppedWaking t ws) := by
  have touched := fun x => h.touched_append (x := x) fresh running apart
  have awake : ∀ x, ¬ s₀.Touched p (ts ++ [t]) x → x ∉ ws := fun x untouched inside =>
    untouched ((touched x).mpr (.inr (.inr ((woke.mem x).mp inside))))
  have earlier : ∀ x, x ≠ t → x ∉ ws → s₀.Touched p (ts ++ [t]) x → s₀.Touched p ts x := by
    intro x other awake reached
    rcases (touched x).mp reached with before | self | stopping
    · exact before
    · exact absurd self other
    · exact absurd ((woke.mem x).mpr stopping) awake
  constructor
  case stopped =>
    intro x hx
    have off : x ∉ ws := by
      intro inside
      have := apart x ((woke.mem x).mp inside)
      rcases List.mem_append.mp hx with hx | hx
      · exact this.1 hx
      · exact this.2 (List.mem_singleton.mp hx)
    rw [stateOf_stoppedWaking, if_neg off]
    split
    next => rfl
    next other =>
        apply h.stopped x ((List.mem_append.mp hx).resolve_right _)
        intro hx
        exact other (List.mem_singleton.mp hx)
  case woken =>
    intro x hx reached
    have off : x ∉ ts ∧ x ≠ t := by simpa using hx
    rw [stateOf_stoppedWaking]
    split
    next => rfl
    next awake =>
        rw [if_neg off.2]
        exact h.woken x off.1 (earlier x off.2 awake reached)
  case kept =>
    intro x hx untouched
    have off : x ∉ ts ∧ x ≠ t := by simpa using hx
    rw [stateOf_stoppedWaking, if_neg (awake x untouched), if_neg off.2]
    exact h.kept x off.1 fun before => untouched ((touched x).mpr (.inl before))
  case emptied =>
    intro u reached
    by_cases self : u = t
    · exact self ▸ update_self _ _ _
    · rw [waiters_stoppedWaking s ws self]
      split
      next => rfl
      next awake => exact h.emptied u (earlier u self awake reached)
  case queues =>
    intro u untouched
    have self : u ≠ t := fun same => untouched ((touched u).mpr (.inr (.inl same)))
    rw [waiters_stoppedWaking s ws self, if_neg (awake u untouched)]
    exact h.queues u fun before => untouched ((touched u).mpr (.inl before))
  case early =>
    intro done t' rest eq u waits reached
    by_cases before : s₀.Touched p ts u
    · rcases append_singleton_split eq with ⟨rfl, rfl⟩ | ⟨rest', eq'⟩
      · exact before
      · exact h.early done t' rest' eq' u waits before
    · have off := h.behind apart (((touched u).mp reached).resolve_left before) before waits
      have inside : t' ∈ ts ++ [t] := eq ▸ List.mem_append_right done List.mem_cons_self
      exact absurd inside (by simpa using off)

theorem State.Early.front (h : s.Early p (ts ++ ts')) : s.Early p ts := by
  intro done t rest eq u waits touched
  refine h done t (rest ++ ts') ?_ u waits (touched.mono (List.subset_append_left ts ts'))
  rw [eq, List.append_assoc]
  rfl

theorem Progress.congr (h : Progress s₀ p ts s) (states : ∀ x, s'.stateOf x = s.stateOf x)
    (waiters : s'.waiters = s.waiters) : Progress s₀ p ts s' where
  stopped := fun x hx => (states x).trans (h.stopped x hx)
  woken := fun x hx touched => (states x).trans (h.woken x hx touched)
  kept := fun x hx untouched => (states x).trans (h.kept x hx untouched)
  emptied := fun u touched => waiters ▸ h.emptied u touched
  queues := fun u untouched => waiters ▸ h.queues u untouched
  early := h.early

end Stage

section Loop
variable {s₀ s s' : State} {p fuel n : Nat} {ts rest : List EntityId} {caller t x : EntityId}
  {outcome : Outcome}

/-- The change of state in a stop that comes early enough. -/
theorem Progress.setStopped (h : Progress s₀ p ts s) (consistent : Consistent s) (fresh : t ∉ ts)
    (other : t ≠ s.idleEntity) (bounded : s.Bounded n) (budget : n + 1 < fuel)
    (early : s₀.Early p (ts ++ [t])) :
    ∃ s', (setEntityState fuel t .stopped).run s = .ok ((), s') ∧ Progress s₀ p (ts ++ [t]) s' ∧
      Consistent s' ∧ s'.Bounded n ∧ s'.idleEntity = s.idleEntity ∧
      s'.currentThread = s.currentThread := by
  obtain ⟨fuel, rfl⟩ := Nat.exists_eq_add_one_of_ne_zero (Nat.ne_zero_of_lt budget)
  by_cases stopped : s.stateOf t = .stopped
  · exact ⟨s, setEntityState_same consistent.toReady stopped, h.skip fresh stopped, consistent,
      bounded, rfl, rfl⟩
  · have apart : ∀ x, s.Stopping t x → x ∉ ts ∧ x ≠ t :=
      fun x hx => h.apart fresh stopped early hx
    have all := setEntityState_run fuel consistent.toReady (by decide) stopped
    cases run : (setEntityState (fuel + 1) t .stopped).run s with
    | error err =>
        rw [run] at all
        cases all with
        | outOfFuel short =>
            have few := short n bounded fun w hw => bounded _ w hw
            have most := sleepers_le (s.changed t .stopped) n
            omega
        | useAfterFree eq inside =>
            cases eq
            exact absurd rfl (apart t inside).2
    | ok r =>
        rw [run] at all
        cases all with
        | ok woke _ =>
            exact ⟨_, rfl, h.stop fresh stopped apart woke,
              ((consistent.changed other (by decide) stopped).woken woke).drained,
              State.Bounded.drained (State.Bounded.woken bounded), rfl, rfl⟩

theorem Progress.stop_early (h : Progress s₀ p ts s) (consistent : Consistent s) (fresh : t ∉ ts)
    (other : t ≠ s.idleEntity) (bounded : s.Bounded n) (budget : n + 1 < fuel)
    (current : s.currentThread = some caller) (early : s₀.Early p (ts ++ [t])) :
    ∃ s', (Thread.stop fuel t).run s = .ok ((), s') ∧ Progress s₀ p (ts ++ [t]) s' ∧
      Consistent s' ∧ s'.Bounded n ∧ s'.idleEntity = s.idleEntity ∧
      (s'.currentThread = some caller ↔ t ≠ caller) := by
  obtain ⟨s₁, set, progress, consistent₁, bounded₁, idle, thread⟩ :=
    h.setStopped consistent fresh other bounded budget early
  rw [current] at thread
  unfold Thread.stop Thread.change
  rw [bind_ok set, bind_ok (run_get_eq s₁), thread]
  by_cases self : t = caller
  · subst self
    have inside : s₁.current = some t := by
      have := consistent₁.thread.symm.trans thread
      cases now : s₁.current with
      | none =>
          rw [now] at this
          exact absurd (idle ▸ Option.some.inj this).symm other
      | some c =>
          rw [now] at this
          exact this
    have active : s₁.active = true := by
      by_contra off
      have none := consistent₁.inactive (by simpa using off)
      exact absurd (none.symm.trans inside) nofun
    obtain ⟨queue, next, run, perm, runnable, _⟩ := consistent₁.schedule active
    have away : next ≠ t := by
      rintro rfl
      have stopped := progress.stopped next (List.mem_append_right _ List.mem_cons_self)
      exact absurd (runnable.symm.trans stopped) nofun
    refine ⟨s₁.scheduled queue next, ?_, progress.congr (fun x => stateOf_scheduled) rfl,
      consistent₁.scheduled perm active, bounded₁, idle, ?_⟩
    · rw [if_pos rfl, run]
    · change some next = some t ↔ _
      simp [away]
  · refine ⟨s₁, ?_, progress, consistent₁, bounded₁, idle, ?_⟩
    · rw [if_neg fun same => self (Option.some.inj same).symm]
      rfl
    · simp [thread, self]

/-- A stop that does not come early enough wakes a thread that was stopped before. -/
theorem Progress.stop_late (h : Progress s₀ p ts s) (ready : s.Ready) (fresh : t ∉ ts)
    (late : ¬ s₀.Early p (ts ++ [t])) (run : (Thread.stop fuel t).run s = .ok ((), s')) :
    ∃ x ∈ ts, s'.stateOf x = .runnable := by
  obtain ⟨s₁, set, same⟩ := change_ok run
  rcases setEntityState_ok ready (by decide) set with ⟨stopped, _⟩ | ⟨running, ws, woke, off, rfl⟩
  · exact absurd (h.skip fresh stopped).early late
  · by_contra none
    apply late
    refine (h.stop fresh running ?_ woke).early
    intro x hx
    have inside := (woke.mem x).mpr hx
    refine ⟨fun before => none ⟨x, before, ?_⟩, fun self => off (self ▸ inside)⟩
    rw [same.states]
    change ((s.changed t .stopped).woken ws).stateOf x = _
    rw [stateOf_woken, if_pos inside]

theorem stopThreads_keeps_runnable (queued : Queued s) (outside : x ∉ rest)
    (runnable : s.stateOf x = .runnable)
    (run : (stopThreads fuel (some caller) rest).run s = .ok (outcome, s')) :
    s'.stateOf x = .runnable := by
  induction rest generalizing s with
  | nil =>
      cases run
      exact runnable
  | cons t rest ih =>
      unfold stopThreads at run
      obtain ⟨_, s₂, stop, run⟩ := of_bind_ok run
      have queued₂ : Queued s₂ := (queued.enters_change (by decide) (by decide) stop).1
      have still : s₂.stateOf x = .runnable := by
        obtain ⟨s₁, set, same⟩ := change_ok stop
        rw [same.states]
        rcases setEntityState_ok queued.toReady (by decide) set with
          ⟨_, rfl⟩ | ⟨_, ws, _, _, rfl⟩
        · exact runnable
        · change ((s.changed t .stopped).woken ws).stateOf x = _
          rw [stateOf_woken, stateOf_changed, if_neg (List.ne_of_not_mem_cons outside), runnable]
          exact ite_self _
      rw [bind_ok (run_get_eq s₂)] at run
      split at run
      next => exact ih queued₂ (List.not_mem_of_not_mem_cons outside) still run
      next =>
          cases run
          exact still

/-- The loop makes progress over all threads it stops, or it leaves a thread runnable. -/
theorem Progress.stopThreads (h : Progress s₀ p ts s) (consistent : Consistent s)
    (bounded : s.Bounded n) (budget : n + 1 < fuel) (current : s.currentThread = some caller)
    (distinct : (ts ++ rest).Nodup) (other : s.idleEntity ∉ rest) :
    (∃ outcome s', (stopThreads fuel (some caller) rest).run s = .ok (outcome, s') ∧
      Progress s₀ p (ts ++ stoppedBy caller rest) s' ∧ Consistent s') ∨
    ¬ s₀.Early p (ts ++ stoppedBy caller rest) ∧ ∀ outcome s',
      (stopThreads fuel (some caller) rest).run s = .ok (outcome, s') →
        ∃ x ∈ ts ++ rest, s'.stateOf x = .runnable := by
  induction rest generalizing ts s with
  | nil =>
      refine .inl ⟨.returned, s, rfl, ?_, consistent⟩
      rw [stoppedBy, List.append_nil]
      exact h
  | cons t rest ih =>
      have shift : ts ++ t :: rest = (ts ++ [t]) ++ rest := by simp
      have fresh : t ∉ ts := fun inside =>
        (List.nodup_append'.mp distinct).2.2 inside List.mem_cons_self
      obtain ⟨more, first⟩ : ∃ more, stoppedBy caller (t :: rest) = t :: more := by
        unfold stoppedBy
        split
        · exact ⟨[], rfl⟩
        · exact ⟨_, rfl⟩
      by_cases early : s₀.Early p (ts ++ [t])
      · obtain ⟨s₁, stop, progress, consistent₁, bounded₁, idle, stays⟩ :=
          h.stop_early consistent fresh (List.ne_of_not_mem_cons other).symm bounded budget
            current early
        unfold Kernel.stopThreads stoppedBy
        rw [bind_ok stop, bind_ok (run_get_eq s₁)]
        by_cases self : t = caller
        · rw [if_neg (mt stays.mp (not_not.mpr self)), if_pos self]
          exact .inl ⟨.descheduled, s₁, rfl, progress, consistent₁⟩
        · rw [if_pos (stays.mpr self), if_neg self]
          have shift' : ts ++ t :: stoppedBy caller rest =
            (ts ++ [t]) ++ stoppedBy caller rest := by simp
          rw [shift, shift']
          exact ih progress consistent₁ bounded₁ (stays.mpr self) (shift ▸ distinct)
            (idle ▸ List.not_mem_of_not_mem_cons other)
      · refine .inr ⟨?_, fun outcome s' run => ?_⟩
        · rw [first]
          intro all
          have split : ts ++ t :: more = (ts ++ [t]) ++ more := by simp
          exact early (split ▸ all).front
        · unfold Kernel.stopThreads at run
          obtain ⟨_, s₁, stop, run⟩ := of_bind_ok run
          obtain ⟨x, inside, runnable⟩ := h.stop_late consistent.toReady fresh early stop
          have queued₁ : Queued s₁ :=
            (consistent.toQueued.enters_change (by decide) (by decide) stop).1
          refine ⟨x, List.mem_append_left _ inside, ?_⟩
          rw [bind_ok (run_get_eq s₁)] at run
          split at run
          next =>
            refine stopThreads_keeps_runnable queued₁ (fun later => ?_) runnable run
            exact (List.nodup_append'.mp distinct).2.2 inside (List.mem_cons_of_mem t later)
          next =>
            cases run
            exact runnable

end Loop

/-- `terminate` gets to its end, for its caller, with all threads stopped and out of the queue. -/
def TerminatesAll (fuel : Nat) (p : Nat) (s : State) : Prop :=
  ∃ outcome s', (terminate fuel p).run s = .ok (outcome, s') ∧
    ∀ t ∈ (s.processes p).threads, s'.stateOf t = .stopped ∧ t ∉ s'.runqueue

/-- The threads listed after the caller are stopped and are not woken, and what a stopped thread
waits for changes, if at all, before that thread is stopped. -/
structure Undisturbed (s : State) (p : Nat) (caller : EntityId) : Prop where
  after : ∀ t ∈ (s.processes p).threads, t ∉ stoppedBy caller (s.processes p).threads →
    s.stateOf t = .stopped ∧ ¬ s.Touched p (stoppedBy caller (s.processes p).threads) t
  early : s.Early p (stoppedBy caller (s.processes p).threads)

section Terminate
variable {s s' : State} {p fuel n : Nat} {caller t : EntityId}

theorem Consistent.withProcess (h : Consistent s) (p : Nat) (process : Process) :
    Consistent (s.withProcess p process) where
  toQueued := ⟨⟨h.algorithm, h.notRunning⟩, h.nodup, h.runnable⟩
  idle := h.idle
  queue := h.queue
  bounded := h.bounded
  thread := h.thread
  inactive := h.inactive

theorem touched_nil {x : EntityId} : s.Touched p [] x ↔ s.Cascade (s.roots (.process p)) x := by
  have none : {w | ∃ u ∈ ([] : List EntityId), s.stateOf u ≠ .stopped ∧ s.Waits u w} = ∅ := by
    ext w
    simp
  unfold State.Touched
  rw [none, union_empty]
  simp

theorem Progress.start {ws : List EntityId} (woke : Woke s (s.roots (.process p)) ws) :
    Progress s p [] ((s.woken ws).drained (.process p)) := by
  have states : ∀ x, ((s.woken ws).drained (.process p)).stateOf x =
      if x ∈ ws then .runnable else s.stateOf x := fun x => stateOf_woken
  have queues : ∀ u, ((s.woken ws).drained (.process p)).waiters (.entity u) =
      if u ∈ ws then [] else s.waiters (.entity u) := by
    intro u
    change update (s.woken ws).waiters (.process p) [] (.entity u) = _
    rw [update_of_ne (by simp)]
    rfl
  have touched : ∀ x, s.Touched p [] x ↔ x ∈ ws := fun x => touched_nil.trans (woke.mem x).symm
  constructor
  case stopped =>
    intro x hx
    exact absurd hx List.not_mem_nil
  case woken =>
    intro x _ h
    rw [states, if_pos ((touched x).mp h)]
  case kept =>
    intro x _ h
    rw [states, if_neg fun inside => h ((touched x).mpr inside)]
  case emptied =>
    intro u h
    rw [queues, if_pos ((touched u).mp h)]
  case queues =>
    intro u h
    rw [queues, if_neg fun inside => h ((touched u).mpr inside)]
  case early =>
    intro done t rest eq
    exact absurd eq (by simp)

theorem Consistent.trigger_process (h : Consistent s) (p : Nat) (bounded : s.Bounded n)
    (budget : n < fuel) :
    ∃ s', (Event.trigger fuel (.process p)).run s = .ok ((), s') ∧ Progress s p [] s' ∧
      Consistent s' ∧ s'.Bounded n ∧ s'.idleEntity = s.idleEntity ∧
      s'.currentThread = s.currentThread ∧ s'.processes = s.processes := by
  have all := trigger_run fuel (.process p) h.toReady
  cases run : (Event.trigger fuel (.process p)).run s with
  | error err =>
      rw [run] at all
      cases all with
      | outOfFuel short =>
          have few := short n bounded fun w hw => bounded _ w hw
          have most := sleepers_le s n
          omega
      | useAfterFree eq _ => cases eq
  | ok r =>
      rw [run] at all
      cases all with
      | ok woke _ =>
          exact ⟨_, rfl, .start woke, (h.woken woke).drained, bounded.woken.drained, rfl, rfl, rfl⟩

/-- Termination stops all of a process exactly when nothing disturbs it. -/
theorem terminate_stops_iff (s : State) (p : Nat) (caller : EntityId) (consistent : Consistent s)
    (current : s.currentThread = some caller) (other : s.idleEntity ∉ (s.processes p).threads) :
    ∃ bound, ∀ fuel, bound < fuel → (TerminatesAll fuel p s ↔ Undisturbed s p caller) := by
  obtain ⟨n, bounded⟩ := consistent.bounded
  refine ⟨n + 1, fun fuel budget => ?_⟩
  obtain ⟨s₁, trigger, progress, consistent₁, bounded₁, idle, thread, processes⟩ :=
    (consistent.withProcess p { s.processes p with terminated := true }).trigger_process p bounded
      (by omega : n < fuel)
  have threads : (s₁.processes p).threads = (s.processes p).threads := by
    rw [processes]
    unfold State.withProcess
    dsimp only
    rw [update_self]
  have body : (terminate fuel p).run s =
      (stopThreads fuel (some caller) (s.processes p).threads).run s₁ := by
    unfold terminate
    rw [bind_ok (run_modify_eq _ _), bind_ok trigger, bind_ok (run_get_eq s₁), thread, threads]
    exact congrArg (fun c => (stopThreads fuel c (s.processes p).threads).run s₁) current
  have start : Progress s p [] s₁ :=
    ⟨progress.stopped, progress.woken, progress.kept, progress.emptied, progress.queues,
      progress.early⟩
  unfold TerminatesAll
  rw [body]
  rcases start.stopThreads consistent₁ bounded₁ budget (thread.trans current)
    (s.processes p).nodup (idle ▸ other) with ⟨outcome, s', run, stops, consistent'⟩ | ⟨late, fails⟩
  · constructor
    · rintro ⟨_, _, run', all⟩
      cases run'.symm.trans run
      refine ⟨fun t ht outside => ?_, stops.early⟩
      have stopped := (all t ht).1
      have untouched : ¬ s.Touched p (stoppedBy caller (s.processes p).threads) t := fun touched =>
        absurd ((stops.woken t outside touched).symm.trans stopped) nofun
      exact ⟨(stops.kept t outside untouched).symm.trans stopped, untouched⟩
    · intro undisturbed
      refine ⟨outcome, s', run, fun t ht => ?_⟩
      have stopped : s'.stateOf t = .stopped := by
        by_cases inside : t ∈ stoppedBy caller (s.processes p).threads
        · exact stops.stopped t inside
        · obtain ⟨before, untouched⟩ := undisturbed.after t ht inside
          exact (stops.kept t inside untouched).trans before
      exact ⟨stopped, fun queued =>
        absurd ((consistent'.runnable t queued).symm.trans stopped) nofun⟩
  · constructor
    · rintro ⟨outcome, s', run, all⟩
      obtain ⟨x, hx, runnable⟩ := fails outcome s' run
      exact absurd (runnable.symm.trans (all x hx).1) nofun
    · exact fun undisturbed => absurd undisturbed.early late

/-- The thread that `sys_exit` is called from is listed last: both threads get stopped. -/
theorem terminate_stops_iff_two_threads : ∃ s,
    (do
      let _ ← init 2 0 (some .rr)
      run
      createThread 1 .user 2
      createThread 1 .user 1
      Thread.start 2 1
      Thread.start 2 2
      schedule : Exec State Unit).run State.boot = .ok ((), s) ∧
    s.currentThread = some 1 ∧ (s.processes 1).threads = [2, 1] ∧
      ∃ bound, ∀ fuel, bound < fuel → TerminatesAll fuel 1 s := by
  obtain ⟨s₀, start, consistent, idle⟩ := init_consistent 1 0 .rr
  have explicit : (init 2 0 (some .rr)).run State.boot = .ok (true, _) := rfl
  cases start.symm.trans explicit
  have live := (consistent.returned .run trivial ⟨2, rfl⟩).1
  have made := (live.withProcess 1 ⟨false, false, [2], by decide⟩).withProcess 1
    ⟨false, false, [2, 1], by decide⟩
  have other : (1 : Nat) ≠ 0 ∧ (2 : Nat) ≠ 0 := by decide
  have first := (made.returned (.setEntityState 1 .runnable) ⟨other.1, nofun⟩ ⟨2, rfl⟩).1
  have second := (first.returned (.setEntityState 2 .runnable) ⟨other.2, nofun⟩ ⟨2, rfl⟩).1
  have running := (second.returned .schedule trivial ⟨2, rfl⟩).1
  refine ⟨_, rfl, rfl, rfl, ?_⟩
  obtain ⟨bound, iff⟩ := terminate_stops_iff _ 1 1 running rfl (by decide)
  refine ⟨bound, fun fuel enough => (iff fuel enough).mpr ⟨fun t mem outside => ?_, ?_⟩⟩
  · exact absurd mem outside
  · intro _ _ _ _ u waits
    simp [State.Waits, State.withProcess, State.boot, update_apply] at waits

/-- The main thread of a process with a second thread calls `sys_exit`: it loses the processor
before the second thread is stopped. -/
theorem terminate_leaves_thread : ∃ s s',
    (do
      let _ ← init 2 0 (some .rr)
      run
      createThread 1 .user 1
      createThread 1 .user 2
      Thread.start 2 1
      Thread.start 2 2
      schedule : Exec State Unit).run State.boot = .ok ((), s) ∧
    s.currentThread = some 1 ∧ (terminate 2 1).run s = .ok (.descheduled, s') ∧
      2 ∈ (s.processes 1).threads ∧ s'.stateOf 2 = .runnable ∧ 2 ∈ s'.runqueue := by
  refine ⟨_, _, rfl, rfl, rfl, ?_, rfl, ?_⟩
  · decide
  · decide

end Terminate
end Infos.Kernel
