import Infos.Lib.Sections

/-!
# Mutexes

`util::Mutex` among threads that run in any order. What a thread does under the lock is a list of
actions on what the threads share.
-/
namespace Infos.Util
open Infos.Lib Function

abbrev ThreadId := Nat

/-- `_owner` is written behind the loop of `lock`, and `unlock` leaves it. -/
structure Mutex where
  locked : UInt64
  owner : ThreadId

def Mutex.lockedByMe (m : Mutex) (current : ThreadId) : Bool :=
  m.locked != 0 && m.owner == current

namespace Mutex

/-- Where a thread is: in the loop of `lock`, behind it, or under the lock, with the actions that
are left. -/
inductive Phase (α : Type) where
  | outside
  | locking (body : List α)
  | taken (body : List α)
  | inside (rest : List α)

structure System (α σ : Type) where
  mutex : Mutex
  phase : ThreadId → Phase α
  shared : σ

variable {α σ : Type}

/-- What a step starts: a call of `lock`, or a section under it. -/
inductive Event (α : Type) where
  | called (t : ThreadId) (body : List α)
  | began (t : ThreadId) (body : List α)

inductive Step (act : α → σ → σ) : System α σ → List (Event α) → System α σ → Prop
  | call {s : System α σ} {t : ThreadId} {body : List α} : s.phase t = .outside →
      Step act s [.called t body] { s with phase := update s.phase t (.locking body) }
  /-- The test-and-set finds the lock taken, and the thread yields. -/
  | wait {s : System α σ} {t : ThreadId} {body : List α} : s.phase t = .locking body →
      s.mutex.locked ≠ 0 → Step act s [] { s with mutex := { s.mutex with locked := 1 } }
  | testAndSet {s : System α σ} {t : ThreadId} {body : List α} : s.phase t = .locking body →
      s.mutex.locked = 0 → Step act s [.began t body]
        { s with
          mutex := { s.mutex with locked := 1 }
          phase := update s.phase t (.taken body) }
  | setOwner {s : System α σ} {t : ThreadId} {body : List α} : s.phase t = .taken body →
      Step act s []
        { s with
          mutex := { s.mutex with owner := t }
          phase := update s.phase t (.inside body) }
  | act {s : System α σ} {t : ThreadId} {a : α} {rest : List α} : s.phase t = .inside (a :: rest) →
      Step act s []
        { s with phase := update s.phase t (.inside rest), shared := act a s.shared }
  | unlock {s : System α σ} {t : ThreadId} : s.phase t = .inside [] →
      Step act s []
        { s with
          mutex := { s.mutex with locked := 0 }
          phase := update s.phase t .outside }

structure Start (s : System α σ) : Prop where
  unlocked : s.mutex.locked = 0
  outside : ∀ t, s.phase t = .outside

inductive Runs (act : α → σ → σ) (s₀ : System α σ) : List (Event α) → System α σ → Prop
  | start : Runs act s₀ [] s₀
  | step {events more : List (Event α)} {s s' : System α σ} :
      Runs act s₀ events s → Step act s more s' → Runs act s₀ (events ++ more) s'

/-- The sections begun, in the order of the lock. -/
def began (events : List (Event α)) : List (ThreadId × List α) :=
  events.filterMap fun
    | .began t body => some (t, body)
    | .called _ _ => none

def called (events : List (Event α)) : List (ThreadId × List α) :=
  events.filterMap fun
    | .called t body => some (t, body)
    | .began _ _ => none

/-! ### Sections -/

/-- What is left of a section, from the moment the lock is taken. -/
def Phase.section : Phase α → Option (List α)
  | .taken body => some body
  | .inside rest => some rest
  | _ => none

/-- The lock without its owner. -/
def System.sections (s : System α σ) : Sections.System ThreadId α σ where
  locked := s.mutex.locked != 0
  phase := fun t => (s.phase t).section
  shared := s.shared

variable {act : α → σ → σ} {s₀ s s' : System α σ} {events more : List (Event α)} {t u : ThreadId}

theorem phase_sections (s : System α σ) (t : ThreadId) :
    s.sections.phase t = (s.phase t).section := rfl

theorem sections_update (s : System α σ) (mutex : Mutex) (t : ThreadId) (p : Phase α) (x : σ) :
    System.sections { mutex := mutex, phase := update s.phase t p, shared := x } =
      { locked := mutex.locked != 0, phase := update s.sections.phase t p.section, shared := x } := by
  rw [System.sections]
  congr 1
  funext u
  change (update s.phase t p u).section = _
  by_cases same : u = t
  · subst same
    rw [update_self, update_self]
  · rw [update_of_ne same, update_of_ne same]
    rfl

theorem sections_same (s : System α σ) {mutex : Mutex} {t : ThreadId} {p : Phase α}
    (locked : (mutex.locked != 0) = (s.mutex.locked != 0)) (same : p.section = (s.phase t).section) :
    System.sections { mutex := mutex, phase := update s.phase t p, shared := s.shared } =
      s.sections := by
  rw [sections_update, same, locked, ← phase_sections, update_eq_self]
  rfl

theorem Step.sections (h : Step act s more s') :
    Sections.Step act s.sections (began more) s'.sections ∨
      began more = [] ∧ s'.sections = s.sections := by
  cases h with
  | @call t body outside =>
      refine .inr ⟨rfl, sections_same s rfl ?_⟩
      rw [outside]
      rfl
  | @wait t body locking locked =>
      refine .inr ⟨rfl, ?_⟩
      rw [System.sections, System.sections, bne_iff_ne.mpr locked]
      rfl
  | @testAndSet t body locking unlocked =>
      refine .inl ?_
      rw [sections_update]
      refine .take ?_ ?_
      · rw [System.sections, unlocked]
        rfl
      · rw [phase_sections, locking]
        rfl
  | @setOwner t body taken =>
      refine .inr ⟨rfl, sections_same s rfl ?_⟩
      rw [taken]
      rfl
  | @act t a rest inside =>
      refine .inl ?_
      rw [sections_update]
      refine .act ?_
      rw [phase_sections, inside]
      rfl
  | @unlock t inside =>
      refine .inl ?_
      rw [sections_update]
      refine .release ?_
      rw [phase_sections, inside]
      rfl

theorem began_append (events more : List (Event α)) :
    began (events ++ more) = began events ++ began more := List.filterMap_append

theorem called_append (events more : List (Event α)) :
    called (events ++ more) = called events ++ called more := List.filterMap_append

theorem Runs.serial (start : Start s₀) (run : Runs act s₀ events s) :
    Sections.Serial act s₀.shared (began events) s.sections := by
  induction run with
  | start =>
      refine .free ?_ (fun t => ?_) rfl
      · rw [System.sections, start.unlocked]
        rfl
      · rw [phase_sections, start.outside t]
        rfl
  | step _ step ih =>
      rw [began_append]
      rcases step.sections with step | ⟨none, same⟩
      · exact ih.step step
      · rw [none, same, List.append_nil]
        exact ih

/-! ### Order and owner -/

/-- The call whose section `t` has not begun. -/
def Phase.pending (t : ThreadId) : Phase α → List (ThreadId × List α)
  | .locking body => [(t, body)]
  | _ => []

theorem pending_update (s : System α σ) (t u : ThreadId) (p : Phase α) :
    (update s.phase u p t).pending t =
      if t = u then p.pending t else (s.phase t).pending t := by
  by_cases same : t = u
  · subst same
    rw [update_self, if_pos rfl]
  · rw [update_of_ne same, if_neg same]

theorem Step.order (h : Step act s more s') (t : ThreadId) :
    (s.phase t).pending t ++ (called more).filter (·.1 = t) =
      (began more).filter (·.1 = t) ++ (s'.phase t).pending t := by
  cases h with
  | @call u body outside =>
      rw [pending_update]
      by_cases same : t = u
      · subst same
        rw [outside, if_pos rfl]
        simp [called, began, Phase.pending]
      · rw [if_neg same]
        simp [called, began, Ne.symm same]
  | wait locking locked =>
      change _ ++ [] = [] ++ _
      rw [List.append_nil, List.nil_append]
  | @testAndSet u body locking unlocked =>
      rw [pending_update]
      by_cases same : t = u
      · subst same
        rw [locking, if_pos rfl]
        simp [called, began, Phase.pending]
      · rw [if_neg same]
        simp [called, began, Ne.symm same]
  | @setOwner u body old | @act u a rest old | @unlock u old =>
      rw [pending_update]
      change _ ++ [] = [] ++ _
      rw [List.append_nil, List.nil_append]
      by_cases same : t = u
      · subst same
        rw [old, if_pos rfl]
        rfl
      · rw [if_neg same]

theorem Runs.order (start : Start s₀) (run : Runs act s₀ events s) (t : ThreadId) :
    (called events).filter (·.1 = t) = (began events).filter (·.1 = t) ++ (s.phase t).pending t := by
  induction run with
  | start =>
      rw [start.outside t]
      rfl
  | step _ step ih =>
      rw [called_append, began_append, List.filter_append, List.filter_append, ih,
        List.append_assoc, step.order t, List.append_assoc]

/-- The thread of the last of the sections, if there was one. -/
def lastHolder (first : ThreadId) (sections : List (ThreadId × List α)) : ThreadId :=
  (sections.getLast?.map Prod.fst).getD first

theorem lastHolder_append (first : ThreadId) (done : List (ThreadId × List α)) (t : ThreadId)
    (body : List α) : lastHolder first (done ++ [(t, body)]) = t := by
  rw [lastHolder, List.getLast?_concat]
  rfl

/-- `_owner` is the thread of the last section, once that thread has written it. -/
structure Owned (first : ThreadId) (sections : List (ThreadId × List α)) (s : System α σ) :
    Prop where
  settled : (∀ t body, s.phase t ≠ .taken body) → s.mutex.owner = lastHolder first sections
  fresh : ∀ t body, s.phase t = .taken body → s.mutex.owner = lastHolder first sections.dropLast

theorem Serial.not_taken {taken : List (ThreadId × List α)} {x : σ}
    (h : Sections.Serial act x taken s.sections) (unlocked : s.mutex.locked = 0) (t : ThreadId)
    (body : List α) : s.phase t ≠ .taken body := by
  intro is_taken
  have none := h.phase_none (by rw [System.sections, unlocked]; rfl) t
  rw [phase_sections, is_taken] at none
  cases none

theorem Serial.only {taken : List (ThreadId × List α)} {x : σ} {rest : List α}
    (h : Sections.Serial act x taken s.sections) (inside : (s.phase t).section = some rest)
    (ne : u ≠ t) (body : List α) : s.phase u ≠ .taken body := by
  intro is_taken
  have none := (h.holder inside).2.1 u ne
  rw [phase_sections, is_taken] at none
  cases none

theorem taken_update {p : Phase α} (is_taken : update s.phase t p u = .taken body)
    (not : ∀ body, p ≠ .taken body) : u ≠ t ∧ s.phase u = .taken body := by
  by_cases same : u = t
  · subst same
    rw [update_self] at is_taken
    exact absurd is_taken (not body)
  · rw [update_of_ne same] at is_taken
    exact ⟨same, is_taken⟩

theorem Runs.owned (start : Start s₀) (run : Runs act s₀ events s) :
    Owned s₀.mutex.owner (began events) s := by
  induction run with
  | start =>
      refine ⟨fun _ => rfl, fun t body is_taken => ?_⟩
      rw [start.outside t] at is_taken
      cases is_taken
  | @step events more s s' run step ih =>
      have serial := run.serial start
      rw [began_append]
      cases step with
      | @call t body outside =>
          rw [show began [Event.called t body] = [] from rfl, List.append_nil]
          refine ⟨fun none => ih.settled fun u b is_taken => none u b ?_, fun u b is_taken => ?_⟩
          · refine (update_of_ne ?_ ..).trans is_taken
            rintro rfl
            exact nomatch outside.symm.trans is_taken
          · exact ih.fresh u b (taken_update is_taken nofun).2
      | wait locking locked =>
          rw [show began ([] : List (Event α)) = [] from rfl, List.append_nil]
          exact ⟨ih.settled, ih.fresh⟩
      | @testAndSet t body locking unlocked =>
          have before := ih.settled (Serial.not_taken serial unlocked)
          refine ⟨fun none => absurd (update_self ..) (none t body), fun u b is_taken => ?_⟩
          rw [show began [Event.began t body] = [(t, body)] from rfl, List.dropLast_concat]
          exact before
      | @setOwner t body is_taken =>
          have inside : (s.phase t).section = some body := by
            rw [is_taken]
            rfl
          obtain ⟨_, _, past, done, begun, _⟩ := serial.holder inside
          refine ⟨fun _ => ?_, fun u b now => ?_⟩
          · rw [show began ([] : List (Event α)) = [] from rfl, List.append_nil, begun]
            exact (lastHolder_append ..).symm
          · obtain ⟨ne, before⟩ := taken_update now nofun
            exact absurd before (Serial.only serial inside ne b)
      | @act t a rest old | @unlock t old =>
          have inside := congrArg Phase.section old
          have none : ∀ u b, s.phase u ≠ .taken b := by
            intro u b is_taken
            by_cases same : u = t
            · subst same
              exact nomatch old.symm.trans is_taken
            · exact Serial.only serial inside same b is_taken
          rw [show began ([] : List (Event α)) = [] from rfl, List.append_nil]
          refine ⟨fun _ => ih.settled none, fun u b now => ?_⟩
          exact absurd (taken_update now nofun).2 (none u b)

/-- The sections under a mutex happen one behind the other, each thread's in the order of its
calls, whatever the interleaving. -/
theorem sections_serial (start : Start s₀) (run : Runs act s₀ events s) :
    Sections.Serial act s₀.shared (began events) s.sections ∧
      ∀ t, (called events).filter (·.1 = t) =
        (began events).filter (·.1 = t) ++ (s.phase t).pending t :=
  ⟨run.serial start, run.order start⟩

/-- `locked_by_me` is true of the thread under the lock, and of the one that was there last while
another has the lock but is not its owner yet. -/
theorem locked_by_me_iff (start : Start s₀) (run : Runs act s₀ events s) (t : ThreadId) :
    s.mutex.lockedByMe t = true ↔ (∃ rest, s.phase t = .inside rest) ∨
      (∃ u body, s.phase u = .taken body) ∧
        lastHolder s₀.mutex.owner (began events).dropLast = t := by
  have serial := run.serial start
  have owned := run.owned start
  rw [Mutex.lockedByMe, Bool.and_eq_true, beq_iff_eq]
  constructor
  · rintro ⟨locked, owner⟩
    by_cases fresh : ∃ u body, s.phase u = .taken body
    · obtain ⟨u, body, is_taken⟩ := fresh
      exact .inr ⟨⟨u, body, is_taken⟩, (owned.fresh u body is_taken).symm.trans owner⟩
    · have none : ∀ u body, s.phase u ≠ .taken body :=
        fun u body is_taken => fresh ⟨u, body, is_taken⟩
      cases serial with
      | free unlocked _ _ => exact nomatch unlocked.symm.trans locked
      | held u past rest done _ phase others begun _ =>
          have mine : t = u := by
            rw [← owner, owned.settled none, begun]
            exact lastHolder_append ..
          subst mine
          rw [phase_sections] at phase
          cases at_t : s.phase t with
          | taken body => exact absurd at_t (none t body)
          | inside rest => exact .inl ⟨rest, rfl⟩
          | outside | locking body =>
              rw [at_t] at phase
              cases phase
  · rintro (⟨rest, inside⟩ | ⟨⟨u, body, is_taken⟩, last⟩)
    · have here := congrArg Phase.section inside
      obtain ⟨locked, _, past, done, begun, _⟩ := serial.holder here
      refine ⟨locked, ?_⟩
      rw [owned.settled fun u b is_taken => ?_, begun]
      · exact lastHolder_append ..
      · by_cases same : u = t
        · subst same
          exact nomatch inside.symm.trans is_taken
        · exact Serial.only serial here same b is_taken
    · have here := congrArg Phase.section is_taken
      exact ⟨(serial.holder here).1, (owned.fresh u body is_taken).trans last⟩

/-- What the threads share is what they have written, and no thread is there yet. -/
def fresh : System Nat (List Nat) where
  mutex := { locked := 0, owner := 7 }
  phase := fun _ => .outside
  shared := []

theorem fresh_start : Start fresh := ⟨rfl, fun _ => rfl⟩

def write (n : Nat) (written : List Nat) : List Nat := written ++ [n]

/-- Thread 1 has waited for thread 0 to write twice under the lock, and has just taken it. -/
theorem handover_runs : ∃ s, Runs write fresh
    [.called 0 [4, 5], .called 1 [6], .began 0 [4, 5], .began 1 [6]] s ∧
      s.phase 0 = .outside ∧ s.phase 1 = .taken [6] ∧ s.shared = [4, 5] := by
  have called₀ : Runs write fresh [.called 0 [4, 5]] _ := Runs.start.step (.call rfl)
  have called₁ : Runs write fresh [.called 0 [4, 5], .called 1 [6]] _ := called₀.step (.call rfl)
  have began₀ := called₁.step (.testAndSet (t := 0) rfl rfl)
  have waited₁ := began₀.step (.wait (t := 1) rfl (by decide))
  have inside₀ := waited₁.step (.setOwner (t := 0) rfl)
  have wrote₀ := inside₀.step (.act (t := 0) rfl)
  have waited₁ := wrote₀.step (.wait (t := 1) rfl (by decide))
  have left₀ := (waited₁.step (.act (t := 0) rfl)).step (.unlock (t := 0) rfl)
  have began₁ := left₀.step (.testAndSet (t := 1) rfl rfl)
  exact ⟨_, began₁, rfl, rfl, rfl⟩

theorem sections_serial_handover : ∃ s, Sections.Serial write [] [(0, [4, 5]), (1, [6])]
    (System.sections s) ∧ s.phase 1 = .taken [6] ∧ s.shared = [4, 5] := by
  obtain ⟨s, run, _, last⟩ := handover_runs
  exact ⟨s, (sections_serial fresh_start run).1, last⟩

/-- The thread that has left the lock is taken for its owner. -/
theorem locked_by_me_iff_stale : ∃ s : System Nat (List Nat), s.phase 0 = .outside ∧
    s.mutex.lockedByMe 0 = true := by
  obtain ⟨s, run, outside, last, _⟩ := handover_runs
  exact ⟨s, outside, (locked_by_me_iff fresh_start run 0).mpr (.inr ⟨⟨1, [6], last⟩, rfl⟩)⟩

end Mutex
end Infos.Util
