import Infos.Kernel.Sched
import Infos.Util.List
import Mathlib.Data.List.Nodup

/-!
# The round-robin algorithm

A pick takes the front of the run queue and puts it at the end. The calls are
those of the scheduler: each runs with interrupts off.
-/
namespace Infos.Kernel.RoundRobin
open Infos.Lib Infos.Util

section Model
variable {ε : Type} [DecidableEq ε]

def addToRunqueue (runqueue : CountedList ε) (entity : ε) : CountedList ε := runqueue.append entity

def removeFromRunqueue (runqueue : CountedList ε) (entity : ε) : CountedList ε :=
  runqueue.remove entity

omit [DecidableEq ε] in
def pickNextEntity (runqueue : CountedList ε) : Except Fault (Option ε × CountedList ε) :=
  if runqueue.empty then .ok (none, runqueue)
  else do
    let (next, rest) ← runqueue.dequeue
    .ok (some next, rest.append next)

inductive Call (ε : Type) where
  | add (entity : ε)
  | remove (entity : ε)
  | pick
  deriving DecidableEq

/-- The results of the picks, in order, and the queue that is left. -/
def run : List (Call ε) → CountedList ε → Except Fault (List (Option ε) × CountedList ε)
  | [], q => .ok ([], q)
  | .add e :: calls, q => run calls (addToRunqueue q e)
  | .remove e :: calls, q => run calls (removeFromRunqueue q e)
  | .pick :: calls, q => do
      let (next, q) ← pickNextEntity q
      let (picked, q) ← run calls q
      .ok (next :: picked, q)

/-- Entities are added only while they are not queued. -/
def Admissible : List (Call ε) → CountedList ε → Prop
  | [], _ => True
  | .add e :: calls, q => e ∉ q.elems ∧ Admissible calls (addToRunqueue q e)
  | .remove e :: calls, q => Admissible calls (removeFromRunqueue q e)
  | .pick :: calls, q => ∀ next q', pickNextEntity q = .ok (next, q') → Admissible calls q'

/-- No pick meets a queue so long that its counter has come back to zero. -/
def Countable : List (Call ε) → CountedList ε → Prop
  | [], _ => True
  | .add e :: calls, q => Countable calls (addToRunqueue q e)
  | .remove e :: calls, q => Countable calls (removeFromRunqueue q e)
  | .pick :: calls, q =>
      (2 ^ 32 ∣ q.elems.length → q.elems = []) ∧
        ∀ next q', pickNextEntity q = .ok (next, q') → Countable calls q'

end Model

section Calls
variable {ε : Type} [DecidableEq ε] {q : CountedList ε} {x e : ε} {ahead behind : List ε}
  {calls : List (Call ε)}

omit [DecidableEq ε] in
theorem pickNextEntity_front (counted : q.Counted) (front : q.elems = x :: behind)
    (few : ¬ 2 ^ 32 ∣ q.elems.length) :
    ∃ q', pickNextEntity q = .ok (some x, q') ∧ q'.elems = behind ++ [x] ∧ q'.Counted := by
  obtain ⟨l, taken, elems, counted'⟩ := counted.dequeue_append front
  refine ⟨l.append x, ?_, elems, counted'⟩
  rw [pickNextEntity, if_neg fun empty => few (counted.empty_iff.mp empty), taken]
  rfl

omit [DecidableEq ε] in
theorem pickNextEntity_wrapped (counted : q.Counted) (many : 2 ^ 32 ∣ q.elems.length) :
    pickNextEntity q = .ok (none, q) := by
  rw [pickNextEntity, if_pos (counted.empty_iff.mpr many)]

omit [DecidableEq ε] in
/-- A pick always returns; it turns the queue or leaves it. -/
theorem pickNextEntity_ok (counted : q.Counted) :
    ∃ next q', pickNextEntity q = .ok (next, q') ∧ q'.Counted ∧ q'.elems.Perm q.elems := by
  by_cases many : 2 ^ 32 ∣ q.elems.length
  · exact ⟨none, q, pickNextEntity_wrapped counted many, counted, .refl _⟩
  · cases front : q.elems with
    | nil => exact absurd (front ▸ Nat.dvd_zero _) many
    | cons x behind =>
        obtain ⟨q', run, elems, counted'⟩ := pickNextEntity_front counted front many
        exact ⟨some x, q', run, counted', elems ▸ List.perm_append_singleton x behind⟩

theorem run_pick {q₁ q' : CountedList ε} {next : Option ε} {picked : List (Option ε)}
    (pick : pickNextEntity q = .ok (next, q₁)) (rest : run calls q₁ = .ok (picked, q')) :
    run (.pick :: calls) q = .ok (next :: picked, q') := by
  rw [run, pick]
  change (do let (picked, q) ← run calls q₁; Except.ok (next :: picked, q)) = _
  rw [rest]
  rfl

theorem run_ok (calls : List (Call ε)) (counted : q.Counted) :
    ∃ picked q', run calls q = .ok (picked, q') := by
  induction calls generalizing q with
  | nil => exact ⟨[], q, rfl⟩
  | cons call calls ih =>
      cases call with
      | add e => exact ih counted.append
      | remove e => exact ih counted.remove
      | pick =>
          obtain ⟨next, q₁, pick, counted₁, -⟩ := pickNextEntity_ok counted
          obtain ⟨picked, q', rest⟩ := ih counted₁
          exact ⟨next :: picked, q', run_pick pick rest⟩

theorem run_nodup {picked : List (Option ε)} {q' : CountedList ε} (counted : q.Counted)
    (distinct : q.elems.Nodup) (admissible : Admissible calls q)
    (ran : run calls q = .ok (picked, q')) : q'.Counted ∧ q'.elems.Nodup := by
  induction calls generalizing q picked with
  | nil =>
      cases ran
      exact ⟨counted, distinct⟩
  | cons call calls ih =>
      cases call with
      | add e =>
          refine ih counted.append ?_ admissible.2 ran
          exact List.nodup_append.mpr ⟨distinct, List.nodup_singleton e, fun a mem b single =>
            (List.mem_singleton.mp single) ▸ fun same => admissible.1 (same ▸ mem)⟩
      | remove e =>
          refine ih counted.remove ?_ admissible ran
          unfold CountedList.remove
          split_ifs
          · exact distinct.erase e
          · exact distinct
      | pick =>
          obtain ⟨next, q₁, pick, counted₁, perm⟩ := pickNextEntity_ok counted
          obtain ⟨rest, q₂, ran'⟩ := run_ok calls counted₁
          cases (run_pick pick ran').symm.trans ran
          exact ih counted₁ (perm.nodup_iff.mpr distinct) (admissible next q₁ pick) ran'

theorem remove_ahead {e' : ε} (other : e' ≠ e) (split : q.elems = ahead ++ e :: behind) :
    ∃ ahead' behind', (q.remove e').elems = ahead' ++ e :: behind' ∧
      ahead'.length ≤ ahead.length := by
  unfold CountedList.remove
  split_ifs with mem
  · by_cases before : e' ∈ ahead
    · refine ⟨ahead.erase e', behind, ?_, List.length_erase_le⟩
      dsimp only
      rw [split, List.erase_append_left _ before]
    · refine ⟨ahead, behind.erase e', ?_, le_rfl⟩
      dsimp only
      rw [split, List.erase_append_right _ before, List.erase_cons_tail (by simpa using other.symm)]
  · exact ⟨ahead, behind, split, le_rfl⟩

/-- Every pick that does not return the entity leaves one fewer ahead of it. -/
theorem picked_within (counted : q.Counted) (countable : Countable calls q)
    (split : q.elems = ahead ++ e :: behind) (kept : .remove e ∉ calls)
    (enough : ahead.length < calls.count .pick) :
    ∃ picked q', run calls q = .ok (picked, q') ∧ some e ∈ picked.take (ahead.length + 1) := by
  induction calls generalizing q ahead behind with
  | nil => exact absurd enough (Nat.not_lt_zero _)
  | cons call calls ih =>
      have kept' : .remove e ∉ calls := fun mem => kept (List.mem_cons_of_mem call mem)
      cases call with
      | add e' =>
          have split' : (q.append e').elems = ahead ++ e :: (behind ++ [e']) := by
            rw [CountedList.append, split, List.append_assoc, List.cons_append]
          have notPick : Call.add e' ≠ .pick := nofun
          rw [List.count_cons_of_ne notPick] at enough
          exact ih counted.append countable split' kept' enough
      | remove e' =>
          have other : e' ≠ e := fun same => kept (same ▸ List.mem_cons_self)
          obtain ⟨ahead', behind', split', fewer⟩ := remove_ahead other split
          have notPick : Call.remove e' ≠ .pick := nofun
          rw [List.count_cons_of_ne notPick] at enough
          obtain ⟨picked, q', ran, mem⟩ :=
            ih counted.remove countable split' kept' (by omega)
          exact ⟨picked, q', ran, List.take_subset_take_left _ (by omega) mem⟩
      | pick =>
          rw [List.count_cons_self] at enough
          have few : ¬ 2 ^ 32 ∣ q.elems.length := fun many => by
            have := countable.1 many
            rw [split] at this
            simp at this
          cases ahead with
          | nil =>
              obtain ⟨q₁, pick, -, counted₁⟩ := pickNextEntity_front counted split few
              obtain ⟨picked, q', ran⟩ := run_ok calls counted₁
              exact ⟨some e :: picked, q', run_pick pick ran, List.mem_cons_self⟩
          | cons a ahead =>
              rw [List.cons_append] at split
              obtain ⟨q₁, pick, elems, counted₁⟩ := pickNextEntity_front counted split few
              rw [List.append_assoc, List.cons_append] at elems
              obtain ⟨picked, q', ran, mem⟩ := ih counted₁ (countable.2 _ q₁ pick) elems kept'
                (Nat.lt_of_succ_lt_succ enough)
              exact ⟨some a :: picked, q', run_pick pick ran, List.mem_cons_of_mem _ mem⟩

theorem picks_turn (behind : List ε) (counted : q.Counted) (few : ¬ 2 ^ 32 ∣ q.elems.length)
    (split : q.elems = ahead ++ behind) :
    ∃ q', run (List.replicate ahead.length .pick) q = .ok (ahead.map some, q') ∧
      q'.elems = behind ++ ahead := by
  induction ahead generalizing q behind with
  | nil => exact ⟨q, rfl, by simpa using split⟩
  | cons a ahead ih =>
      rw [List.cons_append] at split
      obtain ⟨q₁, pick, elems, counted₁⟩ := pickNextEntity_front counted split few
      have sameLength : q₁.elems.length = q.elems.length := by
        rw [elems, split, List.length_append, List.length_cons, List.length_cons, List.length_nil]
      rw [List.append_assoc] at elems
      obtain ⟨q', ran, elems'⟩ := ih _ counted₁ (sameLength ▸ few) elems
      refine ⟨q', ?_, by rw [elems', List.append_assoc, List.singleton_append]⟩
      rw [List.length_cons, List.replicate_succ]
      exact run_pick pick ran

end Calls

/-- In every queue that calls lead to: an entity with `p` others ahead of it is among the next
`p + 1` picks, whatever is added or removed beside it, and one round of picks returns the queued
entities in their order, each once, and restores the queue. -/
theorem picks_fair {ε : Type} [DecidableEq ε] (history : List (Call ε)) {past : List (Option ε)}
    {q : CountedList ε} (admissible : Admissible history .nil)
    (reached : run history .nil = .ok (past, q)) :
    (∀ ahead e behind calls, q.elems = ahead ++ e :: behind → Admissible calls q →
      Countable calls q → .remove e ∉ calls → ahead.length < calls.count .pick →
      ∃ picked q', run calls q = .ok (picked, q') ∧ some e ∈ picked.take (ahead.length + 1)) ∧
    (Countable (List.replicate q.elems.length .pick) q →
      q.elems.Nodup ∧ ∃ q', run (List.replicate q.elems.length .pick) q =
        .ok (q.elems.map some, q') ∧ q'.elems = q.elems) := by
  obtain ⟨counted, distinct⟩ :=
    run_nodup CountedList.nil_counted List.nodup_nil admissible reached
  refine ⟨fun ahead e behind calls split _ countable kept enough =>
    picked_within counted countable split kept enough, fun countable => ⟨distinct, ?_⟩⟩
  cases front : q.elems with
  | nil => exact ⟨q, rfl, front⟩
  | cons x rest =>
      rw [front] at countable
      have few : ¬ 2 ^ 32 ∣ q.elems.length := fun many => by
        have := countable.1 many
        rw [front] at this
        cases this
      obtain ⟨q', ran, elems⟩ := picks_turn [] counted few (by rw [List.append_nil])
      rw [front] at ran elems
      exact ⟨q', ran, by simpa using elems⟩

/-- The second of two entities is picked within two picks, though a third one is added. -/
theorem picks_fair_three : ∃ picked q',
    run [.pick, .add 3, .pick] (⟨[1, 2], 2⟩ : CountedList Nat) = .ok (picked, q') ∧
      some 2 ∈ picked.take 2 := by
  have history : Admissible [.add 1, .add 2] (.nil : CountedList Nat) := by
    simp [Admissible, addToRunqueue, CountedList.append, CountedList.nil]
  have fair := picks_fair [.add 1, .add 2] history (q := ⟨[1, 2], 2⟩) rfl
  refine fair.1 [1] 2 [] [.pick, .add 3, .pick] rfl ?_ ?_ (by decide) (by decide)
  · rintro next q' pick
    cases pick
    exact ⟨by decide, fun next q' pick => trivial⟩
  · refine ⟨by decide, ?_⟩
    rintro next q' pick
    cases pick
    exact ⟨by decide, fun next q' pick => trivial⟩

/-! ### A queue whose counter is back at zero -/

theorem adds_run {ε : Type} [DecidableEq ε] (q : CountedList ε) (es : List ε)
    (distinct : (q.elems ++ es).Nodup) :
    ∃ q', run (es.map .add) q = .ok ([], q') ∧ q'.elems = q.elems ++ es ∧
      Admissible (es.map .add) q := by
  induction es generalizing q with
  | nil => exact ⟨q, rfl, (List.append_nil _).symm, trivial⟩
  | cons e es ih =>
      have split : (q.append e).elems ++ es = q.elems ++ e :: es := by
        rw [CountedList.append, List.append_assoc, List.singleton_append]
      obtain ⟨q', ran, elems, admissible⟩ := ih (q.append e) (split ▸ distinct)
      refine ⟨q', ran, elems.trans split, ?_, admissible⟩
      intro queued
      exact (List.nodup_append.mp distinct).2.2 e queued e List.mem_cons_self rfl

theorem long_queue_starves {n : Nat} (many : 2 ^ 32 ∣ n + 1) :
    ∃ (history : List (Call Nat)) (past : List (Option Nat))
      (q : CountedList Nat) (e : Nat) (behind : List Nat),
      Admissible history .nil ∧ run history .nil = .ok (past, q) ∧ q.elems = [] ++ e :: behind ∧
        Admissible [.pick] q ∧
        ¬ ∃ picked q', run [.pick] q = .ok (picked, q') ∧ some e ∈ picked.take 1 := by
  obtain ⟨q, ran, elems, admissible⟩ :=
    adds_run (.nil : CountedList Nat) (List.range (n + 1)) List.nodup_range
  have counted := (run_nodup CountedList.nil_counted List.nodup_nil admissible ran).1
  have all : q.elems = List.range (n + 1) := elems
  have multiple : 2 ^ 32 ∣ q.elems.length := by
    rw [all, List.length_range]
    exact many
  have front : q.elems = [] ++ 0 :: (List.range n).map Nat.succ := by
    rw [all, List.range_succ_eq_map]
    rfl
  refine ⟨_, [], q, 0, _, admissible, ran, front, fun next q' pick => trivial, ?_⟩
  rintro ⟨picked, q', picks, mem⟩
  cases (run_pick (pickNextEntity_wrapped counted multiple) (rfl : run [] q = _)).symm.trans picks
  simp at mem

/-- With 2^32 entities queued a pick finds nothing to run. -/
theorem full_queue_starves : ∃ (history : List (Call Nat)) (past : List (Option Nat))
    (q : CountedList Nat) (e : Nat) (behind : List Nat),
    Admissible history .nil ∧ run history .nil = .ok (past, q) ∧ q.elems = [] ++ e :: behind ∧
      Admissible [.pick] q ∧
      ¬ ∃ picked q', run [.pick] q = .ok (picked, q') ∧ some e ∈ picked.take 1 :=
  long_queue_starves (n := 2 ^ 32 - 1) (by decide)

/-! ### In the scheduler -/

section Scheduler

/-- The run queue with its counter. -/
def queueOf (s : State) : CountedList EntityId := ⟨s.runqueue, s.count⟩

theorem addToRunqueue_queue (e : EntityId) (s : State) :
    ∃ s', (Kernel.addToRunqueue e).run s = .ok ((), s') ∧
      queueOf s' = addToRunqueue (queueOf s) e := by
  refine ⟨_, rfl, ?_⟩
  have counted : (queueOf s).Counted := rfl
  exact CountedList.Counted.ext rfl (counted.append (x := e)) rfl

theorem removeFromRunqueue_queue (e : EntityId) (s : State) :
    ∃ s', (Kernel.removeFromRunqueue e).run s = .ok ((), s') ∧
      queueOf s' = removeFromRunqueue (queueOf s) e := by
  refine ⟨_, rfl, ?_⟩
  have counted : (queueOf s).Counted := rfl
  refine CountedList.Counted.ext rfl (counted.remove (x := e)) ?_
  change s.runqueue.erase e = (CountedList.remove (queueOf s) e).elems
  unfold CountedList.remove
  split
  next => rfl
  next absent => exact List.erase_of_not_mem absent

/-- The scheduler's pick under this algorithm is this one. -/
theorem pickNextEntity_queue (s : State) :
    ∃ next s', (Kernel.pickNextEntity .rr).run s = .ok (next, s') ∧
      pickNextEntity (queueOf s) = .ok (next, queueOf s') := by
  have counted : (queueOf s).Counted := rfl
  have zero_iff : s.count = 0 ↔ 2 ^ 32 ∣ (queueOf s).elems.length := Nat.dvd_iff_mod_eq_zero.symm
  unfold Kernel.pickNextEntity
  by_cases none_ : s.count = 0
  · refine ⟨none, s, ?_, pickNextEntity_wrapped counted (zero_iff.mp none_)⟩
    rw [bind_ok (run_get_eq s), if_pos none_]
    rfl
  · cases front : s.runqueue with
    | nil =>
        refine absurd (zero_iff.mpr ?_) none_
        rw [show (queueOf s).elems = [] from front]
        exact Nat.dvd_zero _
    | cons next rest =>
        obtain ⟨q', pick, elems, counted'⟩ :=
          pickNextEntity_front counted front (mt zero_iff.mpr none_)
        refine ⟨some next, { s with runqueue := rest ++ [next] }, ?_, ?_⟩
        · rw [bind_ok (run_get_eq s), if_neg none_, front]
          rfl
        · rw [pick]
          have same : q' = ⟨rest ++ [next], (rest ++ [next]).length % 2 ^ 32⟩ :=
            counted'.ext rfl elems
          rw [same]
          rfl

end Scheduler
end Infos.Kernel.RoundRobin
