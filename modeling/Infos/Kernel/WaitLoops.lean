import Infos.Kernel.Sched

/-!
# Blocking waits, statement by statement

One thread runs a loop that waits for a condition, another party makes the
condition true and triggers the event. Any order of their statements is a run.
-/
namespace Infos.Kernel.WaitLoops

/-- The loops that wait. -/
inductive Loop where
  | sysWaitProc
  | sysJoinThread
  | terminalRead
  deriving DecidableEq, Repr

/-- The system calls make their first test with interrupts disabled. -/
def Loop.disablesInterrupts : Loop → Bool
  | .sysWaitProc => true
  | .sysJoinThread => true
  | .terminalRead => false

/-- The next statement of the waiter; `append`, `sleep` and `yield` make up `Event::wait`. -/
inductive WaiterPc where
  | disableInterrupts
  | test
  | enableInterrupts
  | append
  | sleep
  | yield
  | done
  deriving DecidableEq, Repr

/-- The next statement of the setter; `wake` and `clear` make up `Event::trigger`, and `visited`
is the number of nodes that the loop over the queue has behind it. -/
inductive SetterPc where
  | set
  | wake (visited : Nat)
  | clear
  | finished
  deriving DecidableEq, Repr

/-- `condition` is what the loop tests, `queued` how often the waiter is in the wake queue. -/
structure State where
  condition : Bool
  interrupts : Bool
  queued : Nat
  waiterState : SchedulingEntityState
  waiter : WaiterPc
  setter : SetterPc
  deriving DecidableEq, Repr

def start (loop : Loop) : State where
  condition := false
  interrupts := true
  queued := 0
  waiterState := .runnable
  waiter := if loop.disablesInterrupts then .disableInterrupts else .test
  setter := .set

def waiterStep (loop : Loop) (s : State) : Option State :=
  match s.waiter with
  | .disableInterrupts => some { s with interrupts := false, waiter := .test }
  | .test =>
      -- the return to user mode restores the interrupt flag
      if s.condition then some { s with interrupts := true, waiter := .done }
      else if loop.disablesInterrupts then some { s with waiter := .enableInterrupts }
      else some { s with waiter := .append }
  | .enableInterrupts => some { s with interrupts := true, waiter := .append }
  | .append => some { s with queued := s.queued + 1, waiter := .sleep }
  | .sleep => some { s with waiterState := .sleeping, waiter := .yield }
  -- the thread goes on when it is picked, and only runnable threads are
  | .yield => if s.waiterState = .runnable then some { s with waiter := .test } else none
  | .done => none

/-- Another thread or an interrupt handler, which needs interrupts to be enabled. -/
def setterStep (s : State) : Option State :=
  if s.interrupts then
    match s.setter with
    | .set => some { s with condition := true, setter := .wake 0 }
    | .wake visited =>
        if visited < s.queued then
          some { s with waiterState := .runnable, setter := .wake (visited + 1) }
        else some { s with setter := .clear }
    | .clear => some { s with queued := 0, setter := .finished }
    | .finished => none
  else none

inductive Party where
  | waiter
  | setter
  deriving DecidableEq, Repr

def step (loop : Loop) : Party → State → Option State
  | .waiter, s => waiterStep loop s
  | .setter, s => setterStep s

/-- An interleaving: who makes each step. -/
def runSteps (loop : Loop) : List Party → State → Option State
  | [], s => some s
  | p :: ps, s => (step loop p s).bind (runSteps loop ps)

/-- The condition holds and the trigger is over, but the waiter sleeps. -/
def Lost (s : State) : Prop :=
  s.condition = true ∧ s.setter = .finished ∧ s.waiterState = .sleeping

instance (s : State) : Decidable (Lost s) :=
  inferInstanceAs (Decidable (s.condition = true ∧ s.setter = .finished ∧
    s.waiterState = .sleeping))

/-- The waiter has found the condition false and does not sleep yet. -/
def Deciding (s : State) : Prop :=
  s.waiter = .enableInterrupts ∨ s.waiter = .append ∨ s.waiter = .sleep

/-- The loop over the wake queue makes no step while the waiter is deciding. -/
def Harmless (s : State) (p : Party) : Prop :=
  ∀ visited, p = .setter → s.setter = .wake visited → ¬ Deciding s

def HarmlessRun (loop : Loop) : List Party → State → Prop
  | [], _ => True
  | p :: ps, s => Harmless s p ∧ ∀ s', step loop p s = some s' → HarmlessRun loop ps s'

/-! ### Which interleavings lose a wake-up -/

section Runs
variable {loop : Loop} {s s' : State} {p : Party} {ps : List Party}

/-- Before a wake-up can be lost: a sleeping waiter is still in front of the waking loop. -/
structure Kept (s : State) : Prop where
  condition : s.condition = true ↔ s.setter ≠ .set
  runnable : s.waiter ≠ .yield → s.waiterState = .runnable
  fresh : s.waiter = .enableInterrupts ∨ s.waiter = .append → s.queued = 0
  appended : s.waiter = .sleep → s.queued = 1
  ahead : Deciding s → s.setter = .set ∨ s.setter = .wake 0
  first : s.setter = .set → (s.waiter = .test ∨ s.waiter = .disableInterrupts) → s.queued = 0
  asleep : s.waiter = .yield →
    s.waiterState = .sleeping ∧ s.queued = 1 ∧ (s.setter = .set ∨ s.setter = .wake 0) ∨
      s.waiterState = .runnable ∧ s.condition = true

/-- The waking loop went past a waiter that was not asleep yet. -/
structure Doomed (s : State) : Prop where
  condition : s.condition = true
  interrupts : s.interrupts = true
  passed : s.setter = .wake 1 ∧ s.queued = 1 ∧ (s.waiter = .sleep ∨ s.waiter = .yield) ∨
    s.setter = .clear ∨ s.setter = .finished
  waits : Deciding s ∨ s.waiter = .yield ∧ s.waiterState = .sleeping

theorem Kept.start (loop : Loop) : Kept (start loop) := by
  cases loop <;> constructor <;> simp [WaitLoops.start, Loop.disablesInterrupts, Deciding]

theorem Kept.not_lost (h : Kept s) : ¬ Lost s := by
  rintro ⟨-, finished, sleeping⟩
  by_cases yield : s.waiter = .yield
  · rcases h.asleep yield with ⟨-, -, ahead⟩ | ⟨runnable, -⟩
    · rw [finished] at ahead
      simp at ahead
    · rw [sleeping] at runnable
      cases runnable
  · have runnable := h.runnable yield
    rw [sleeping] at runnable
    cases runnable

theorem Kept.waiterStep (h : Kept s) (run : waiterStep loop s = some s') : Kept s' := by
  obtain ⟨condition, runnable, fresh, appended, ahead, first, asleep⟩ := h
  obtain ⟨c, i, q, w, pc, setter⟩ := s
  cases pc with
  | disableInterrupts =>
      cases run
      constructor <;> simp_all [Deciding]
  | test =>
      rw [WaitLoops.waiterStep] at run
      dsimp only at run
      have early : c = false → setter = .set := by
        intro false'
        by_contra late
        have met : c = true := condition.mpr late
        rw [false'] at met
        cases met
      split_ifs at run with met disables
      · cases run
        constructor <;> simp_all [Deciding]
      · cases run
        constructor <;> simp_all [Deciding]
      · cases run
        constructor <;> simp_all [Deciding]
  | enableInterrupts =>
      cases run
      constructor <;> simp_all [Deciding]
  | append =>
      cases run
      constructor <;> simp_all [Deciding]
  | sleep =>
      cases run
      constructor <;> simp_all [Deciding]
  | yield =>
      rw [WaitLoops.waiterStep] at run
      dsimp only at run
      split_ifs at run with awake
      cases run
      constructor <;> simp_all [Deciding]
  | done => cases run

theorem Kept.setterStep (h : Kept s) (harmless : Harmless s .setter)
    (run : setterStep s = some s') : Kept s' := by
  obtain ⟨condition, runnable, fresh, appended, ahead, first, asleep⟩ := h
  obtain ⟨c, i, q, w, pc, setter⟩ := s
  rw [WaitLoops.setterStep] at run
  split_ifs at run with enabled
  cases setter with
  | set =>
      cases run
      constructor <;> simp_all [Deciding]
  | wake visited =>
      have away := harmless visited rfl rfl
      dsimp only at run
      split_ifs at run with behind
      · cases run
        constructor <;> simp_all [Deciding]
      · cases run
        constructor <;> simp_all [Deciding]
        -- a waiter that sleeps is still in front of the loop
        intro yield
        rcases asleep yield with ⟨-, one, first⟩ | awake
        · omega
        · exact awake
  | clear =>
      cases run
      constructor <;> simp_all [Deciding]
  | finished => cases run

theorem Kept.step (h : Kept s) (harmless : Harmless s p) (run : step loop p s = some s') :
    Kept s' := by
  cases p with
  | waiter => exact h.waiterStep run
  | setter => exact h.setterStep harmless run

/-- Only the waking loop can do harm, and then the waiter sleeps for good. -/
theorem Kept.doomed (h : Kept s) (harm : ¬ Harmless s p)
    (run : WaitLoops.step loop p s = some s') : Doomed s' := by
  obtain ⟨visited, rfl, waking, deciding⟩ : ∃ visited, p = .setter ∧ s.setter = .wake visited ∧
      Deciding s := by
    by_contra none
    exact harm fun visited setter waking deciding => none ⟨visited, setter, waking, deciding⟩
  obtain ⟨condition, runnable, fresh, appended, ahead, first, asleep⟩ := h
  obtain ⟨c, i, q, w, pc, setter⟩ := s
  dsimp only at waking
  subst waking
  rw [WaitLoops.step, WaitLoops.setterStep] at run
  split_ifs at run with enabled
  dsimp only at run
  split_ifs at run with behind
  · cases run
    constructor <;> simp_all [Deciding]
    rcases deciding with enable | append | sleep
    · have := fresh (.inl enable)
      omega
    · have := fresh (.inr append)
      omega
    · exact ⟨appended sleep, .inl sleep⟩
  · cases run
    constructor <;> simp_all [Deciding]

theorem Doomed.step (h : Doomed s) (run : WaitLoops.step loop p s = some s') : Doomed s' := by
  obtain ⟨condition, interrupts, passed, waits⟩ := h
  obtain ⟨c, i, q, w, pc, setter⟩ := s
  cases p with
  | waiter =>
      rw [WaitLoops.step, WaitLoops.waiterStep] at run
      cases pc with
      | disableInterrupts => simp_all [Deciding]
      | test => simp_all [Deciding]
      | enableInterrupts =>
          cases run
          constructor <;> simp_all [Deciding]
      | append =>
          cases run
          constructor <;> simp_all [Deciding]
      | sleep =>
          cases run
          constructor <;> simp_all [Deciding]
      | yield => simp_all [Deciding]
      | done => cases run
  | setter =>
      rw [WaitLoops.step, WaitLoops.setterStep, if_pos interrupts] at run
      cases setter with
      | set => simp_all
      | wake visited =>
          have past : visited = 1 ∧ q = 1 := by simp_all
          dsimp only at run
          rw [if_neg (by omega)] at run
          cases run
          constructor <;> simp_all [Deciding]
      | clear =>
          cases run
          constructor <;> simp_all [Deciding]
      | finished => cases run

theorem Doomed.run (h : Doomed s) (run : runSteps loop ps s = some s') : Doomed s' := by
  induction ps generalizing s with
  | nil =>
      cases run
      exact h
  | cons p ps ih =>
      obtain ⟨s₁, first, rest⟩ := Option.bind_eq_some_iff.mp run
      exact ih (h.step first) rest

theorem Kept.run (h : Kept s) (run : runSteps loop ps s = some s') :
    HarmlessRun loop ps s ∧ Kept s' ∨ ¬ HarmlessRun loop ps s ∧ Doomed s' := by
  induction ps generalizing s with
  | nil =>
      cases run
      exact .inl ⟨trivial, h⟩
  | cons p ps ih =>
      obtain ⟨s₁, first, rest⟩ := Option.bind_eq_some_iff.mp run
      by_cases harmless : Harmless s p
      · rcases ih (h.step harmless first) rest with ⟨all, kept⟩ | ⟨harm, doomed⟩
        · refine .inl ⟨⟨harmless, fun s₂ first' => ?_⟩, kept⟩
          cases first.symm.trans first'
          exact all
        · exact .inr ⟨fun all => harm (all.2 s₁ first), doomed⟩
      · refine .inr ⟨fun all => harmless all.1, ?_⟩
        exact (h.doomed harmless first).run rest

/-- A harmless continuation ends with the waiter asleep. -/
def CanLose (loop : Loop) (s : State) : Prop :=
  ∃ ps s', runSteps loop ps s = some s' ∧ HarmlessRun loop ps s ∧ Lost s'

theorem CanLose.after {s₁ : State} (first : WaitLoops.step loop p s = some s₁)
    (harmless : Harmless s p) (h : CanLose loop s₁) : CanLose loop s := by
  obtain ⟨ps, s', run, all, lost⟩ := h
  refine ⟨p :: ps, s', Option.bind_eq_some_iff.mpr ⟨s₁, first, run⟩, ⟨harmless, ?_⟩, lost⟩
  intro s₂ first'
  cases first.symm.trans first'
  exact all

/-- Once the waiter sleeps, the rest of the trigger does not wake it. -/
theorem Doomed.lose_asleep (h : Doomed s) (yield : s.waiter = .yield) : CanLose loop s := by
  have away : ∀ t : State, t.waiter = .yield → Harmless t .setter := by
    rintro t at_yield visited - - (enable | append | sleep)
    · cases at_yield.symm.trans enable
    · cases at_yield.symm.trans append
    · cases at_yield.symm.trans sleep
  have finished : ∀ t : State, Doomed t → t.waiter = .yield → t.setter = .finished →
      CanLose loop t := by
    intro t doomed at_yield ended
    refine ⟨[], t, rfl, trivial, doomed.condition, ended, ?_⟩
    rcases doomed.waits with deciding | ⟨-, sleeping⟩
    · rcases deciding with enable | append | sleep
      · cases at_yield.symm.trans enable
      · cases at_yield.symm.trans append
      · cases at_yield.symm.trans sleep
    · exact sleeping
  have clear : ∀ t : State, Doomed t → t.waiter = .yield → t.setter = .clear → CanLose loop t := by
    intro t doomed at_yield at_clear
    have first : WaitLoops.step loop .setter t =
        some { t with queued := 0, setter := .finished } := by
      rw [WaitLoops.step, WaitLoops.setterStep, if_pos doomed.interrupts, at_clear]
    exact .after first (away t at_yield) (finished _ (doomed.step first) at_yield rfl)
  rcases h.passed with ⟨waking, queued, -⟩ | at_clear | ended
  · have first : WaitLoops.step loop .setter s = some { s with setter := .clear } := by
      rw [WaitLoops.step, WaitLoops.setterStep, if_pos h.interrupts, waking]
      exact if_neg (by omega)
    exact .after first (away s yield) (clear _ (h.step first) yield rfl)
  · exact clear s h yield at_clear
  · exact finished s h yield ended

theorem Doomed.lose (h : Doomed s) : CanLose loop s := by
  have waiter : ∀ t : State, Harmless t .waiter := fun t visited e => nomatch e
  have sleep : ∀ t : State, Doomed t → t.waiter = .sleep → CanLose loop t := by
    intro t doomed at_sleep
    have first : WaitLoops.step loop .waiter t =
        some { t with waiterState := .sleeping, waiter := .yield } := by
      rw [WaitLoops.step, WaitLoops.waiterStep, at_sleep]
    exact .after first (waiter t) ((doomed.step first).lose_asleep rfl)
  have append : ∀ t : State, Doomed t → t.waiter = .append → CanLose loop t := by
    intro t doomed at_append
    have first : WaitLoops.step loop .waiter t =
        some { t with queued := t.queued + 1, waiter := .sleep } := by
      rw [WaitLoops.step, WaitLoops.waiterStep, at_append]
    exact .after first (waiter t) (sleep _ (doomed.step first) rfl)
  rcases h.waits with (enable | at_append | at_sleep) | ⟨yield, -⟩
  · have first : WaitLoops.step loop .waiter s =
        some { s with interrupts := true, waiter := .append } := by
      rw [WaitLoops.step, WaitLoops.waiterStep, enable]
    exact .after first (waiter s) (append _ (h.step first) rfl)
  · exact append s h at_append
  · exact sleep s h at_sleep
  · exact h.lose_asleep yield

end Runs

/-- Over every interleaving: no wake-up is lost, now or by going on harmlessly, if and only if the
loop over the wake queue made no step between a failed test and the sleep after it. -/
theorem no_lost_wakeup_iff (loop : Loop) (ps : List Party) {s : State}
    (run : runSteps loop ps (start loop) = some s) :
    HarmlessRun loop ps (start loop) ↔
      ∀ qs s', runSteps loop qs s = some s' → HarmlessRun loop qs s → ¬ Lost s' := by
  rcases (Kept.start loop).run run with ⟨harmless, kept⟩ | ⟨harm, doomed⟩
  · apply iff_of_true harmless
    intro qs s' run' harmless'
    rcases kept.run run' with ⟨-, kept'⟩ | ⟨harm, -⟩
    · exact kept'.not_lost
    · exact absurd harmless' harm
  · apply iff_of_false harm
    intro safe
    obtain ⟨qs, s', run', harmless', lost⟩ := doomed.lose
    exact safe qs s' run' harmless' lost

/-- The waiter sleeps before the condition becomes true and is woken. -/
theorem no_lost_wakeup_iff_woken : ∃ s,
    runSteps .terminalRead [.waiter, .waiter, .waiter, .setter, .setter, .setter, .setter, .waiter]
      (start .terminalRead) = some s ∧
    (HarmlessRun .terminalRead
        [.waiter, .waiter, .waiter, .setter, .setter, .setter, .setter, .waiter]
        (start .terminalRead) ↔
      ∀ qs s', runSteps .terminalRead qs s = some s' → HarmlessRun .terminalRead qs s →
        ¬ Lost s') :=
  ⟨_, rfl, no_lost_wakeup_iff .terminalRead _ rfl⟩

/-- In each loop the whole trigger can run between the failed test and the entry into the queue. -/
theorem wakeup_lost :
    (∃ ps s, runSteps .sysWaitProc ps (start .sysWaitProc) = some s ∧ Lost s) ∧
    (∃ ps s, runSteps .sysJoinThread ps (start .sysJoinThread) = some s ∧ Lost s) ∧
    ∃ ps s, runSteps .terminalRead ps (start .terminalRead) = some s ∧ Lost s :=
  ⟨⟨[.waiter, .waiter, .waiter, .setter, .setter, .setter, .waiter, .waiter], _, rfl, by decide⟩,
    ⟨[.waiter, .waiter, .waiter, .setter, .setter, .setter, .waiter, .waiter], _, rfl, by decide⟩,
    [.waiter, .setter, .setter, .setter, .waiter, .waiter], _, rfl, by decide⟩

end Infos.Kernel.WaitLoops
