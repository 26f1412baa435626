import Infos.Lib.Exec
import Mathlib.Tactic.Tauto
import Mathlib.Data.List.Basic
import Mathlib.Data.List.Induction

/-!
# The CMOS real-time clock

The device answers the `n`-th port read with any byte at all. The state is the
trace of the reads made so far, so what a snapshot is made of can be asked of
the trace. Both polling loops take a budget of iterations.
-/
namespace Infos.Drivers.CmosRtc
open Infos.Lib

/-- One read of the data port, with the register selected before it. -/
structure PortRead where
  offset : UInt8
  value : UInt8
  deriving DecidableEq, Repr

/-- The answer to each read, by its place in the run and the register selected. -/
abbrev Device := Nat → UInt8 → UInt8

structure RTCTimePoint where
  seconds : UInt16
  minutes : UInt16
  hours : UInt16
  dayOfMonth : UInt16
  month : UInt16
  year : UInt16
  deriving DecidableEq, Repr

/-- The six `last_*` bytes. -/
structure LastRead where
  seconds : UInt8
  minutes : UInt8
  hours : UInt8
  dayOfMonth : UInt8
  month : UInt8
  year : UInt8
  deriving DecidableEq, Repr

def secs : UInt8 := 0x00
def mins : UInt8 := 0x02
def hrs : UInt8 := 0x04
def day : UInt8 := 0x07
def mnth : UInt8 := 0x08
def yr : UInt8 := 0x09
def statusA : UInt8 := 0x0A
def statusB : UInt8 := 0x0B

def bcdToShort (bcd : UInt8) : UInt16 :=
  (bcd &&& 0x0F).toUInt16 + ((bcd >>> 4) &&& 0x0F).toUInt16 * 10

def readCMOSOffset (device : Device) (offset : UInt8) : Exec (List PortRead) UInt8 := do
  let reads ← get
  let value := device reads.length offset
  set (reads ++ [⟨offset, value⟩])
  pure value

def readCMOSTime (device : Device) : Exec (List PortRead) RTCTimePoint := do
  let seconds ← readCMOSOffset device secs
  let minutes ← readCMOSOffset device mins
  let hours ← readCMOSOffset device hrs
  let dayOfMonth ← readCMOSOffset device day
  let month ← readCMOSOffset device mnth
  let year ← readCMOSOffset device yr
  pure ⟨seconds.toUInt16, minutes.toUInt16, hours.toUInt16, dayOfMonth.toUInt16,
    month.toUInt16, year.toUInt16⟩

/-- The stores of `tp` into the `last_*` bytes. -/
def LastRead.ofTimePoint (tp : RTCTimePoint) : LastRead :=
  ⟨tp.seconds.toUInt8, tp.minutes.toUInt8, tp.hours.toUInt8, tp.dayOfMonth.toUInt8,
    tp.month.toUInt8, tp.year.toUInt8⟩

def LastRead.differs (last : LastRead) (tp : RTCTimePoint) : Bool :=
  last.seconds.toUInt16 != tp.seconds || last.minutes.toUInt16 != tp.minutes ||
    last.hours.toUInt16 != tp.hours || last.dayOfMonth.toUInt16 != tp.dayOfMonth ||
    last.month.toUInt16 != tp.month || last.year.toUInt16 != tp.year

/-- `do { … } while (!first_read);` -/
def firstRead (device : Device) : Nat → Exec (List PortRead) RTCTimePoint
  | 0 => throw .outOfFuel
  | fuel + 1 => do
      let statA ← readCMOSOffset device statusA
      if statA &&& 0x80 = 0 then readCMOSTime device else firstRead device fuel

/-- The body of the second loop: the new `tp`, `statB` and `last_success`. -/
def readAgain (device : Device) (tp : RTCTimePoint) (statB : UInt8) :
    Exec (List PortRead) (RTCTimePoint × UInt8 × Bool) := do
  let statA ← readCMOSOffset device statusA
  if statA &&& 0x80 = 0 then do
    let statB ← readCMOSOffset device statusB
    let tp ← readCMOSTime device
    pure (tp, statB, true)
  else pure (tp, statB, false)

/-- `do { … } while ((…) && last_success);` -/
def compareReads (device : Device) :
    Nat → RTCTimePoint → UInt8 → Exec (List PortRead) (RTCTimePoint × UInt8)
  | 0, _, _ => throw .outOfFuel
  | fuel + 1, tp, statB => do
      let last := LastRead.ofTimePoint tp
      let (tp, statB, lastSuccess) ← readAgain device tp statB
      if last.differs tp && lastSuccess then compareReads device fuel tp statB
      else pure (tp, statB)

/-- The two loops: the raw values and the status B value that are decoded. `statB` is
uninitialised when the second loop starts. -/
def snapshot (device : Device) (statB : UInt8) (fuel : Nat) :
    Exec (List PortRead) (RTCTimePoint × UInt8) := do
  let tp ← firstRead device fuel
  compareReads device fuel tp statB

def decodeBCD (tp : RTCTimePoint) : RTCTimePoint where
  seconds := bcdToShort tp.seconds.toUInt8
  minutes := bcdToShort tp.minutes.toUInt8
  hours := bcdToShort tp.hours.toUInt8 ||| (tp.hours &&& 0x80)
  dayOfMonth := bcdToShort tp.dayOfMonth.toUInt8
  month := bcdToShort tp.month.toUInt8
  year := bcdToShort tp.year.toUInt8

def decode (tp : RTCTimePoint) (statB : UInt8) : RTCTimePoint :=
  let tp := if statB &&& 0x04 = 0 then decodeBCD tp else tp
  if statB &&& 0x02 ≠ 0 ∧ tp.hours &&& 0x80 ≠ 0 then
    { tp with hours := ((tp.hours &&& 0x7F) + 12) % 24 }
  else tp

def readTimepoint (device : Device) (statB : UInt8) (fuel : Nat) :
    Exec (List PortRead) RTCTimePoint := do
  let (tp, statB) ← snapshot device statB fuel
  pure (decode tp statB)

/-! ### Passes over the registers -/

/-- Status A with the update-in-progress bit clear. -/
def Idle (statA : UInt8) : Prop := statA &&& 0x80 = 0

instance : DecidablePred Idle := fun statA => inferInstanceAs (Decidable (statA &&& 0x80 = 0))

/-- What six reads from the `n`-th on give. -/
def passAt (device : Device) (n : Nat) : LastRead :=
  ⟨device n secs, device (n + 1) mins, device (n + 2) hrs, device (n + 3) day,
    device (n + 4) mnth, device (n + 5) yr⟩

/-- The reads of one complete pass that got these bytes. -/
def LastRead.reads (r : LastRead) : List PortRead :=
  [⟨secs, r.seconds⟩, ⟨mins, r.minutes⟩, ⟨hrs, r.hours⟩, ⟨day, r.dayOfMonth⟩,
    ⟨mnth, r.month⟩, ⟨yr, r.year⟩]

def LastRead.timePoint (r : LastRead) : RTCTimePoint :=
  ⟨r.seconds.toUInt16, r.minutes.toUInt16, r.hours.toUInt16, r.dayOfMonth.toUInt16,
    r.month.toUInt16, r.year.toUInt16⟩

/-- Only polls of status A. -/
def Polls (reads : List PortRead) : Prop := ∀ r ∈ reads, r.offset = statusA

/-- A consistent snapshot: the bytes were read in two passes with only polls between them,
each begun after an idle status A, and status B was read in the second, the last of all. -/
def Consistent (reads : List PortRead) (raw : LastRead) (statB : UInt8) : Prop :=
  ∃ before a extra polls a' after,
    reads = before ++ ⟨statusA, a⟩ :: extra ++ raw.reads ++ polls ++
      ⟨statusA, a'⟩ :: ⟨statusB, statB⟩ :: raw.reads ++ after ∧
    Idle a ∧ Idle a' ∧ (∀ r ∈ extra, r.offset = statusB) ∧ Polls polls ∧ Polls after

/-- The `j`-th pass when no poll after the first pass finds the device busy; the first pass
follows the first idle poll, read number `k`. -/
def pass (device : Device) (k : Nat) : Nat → LastRead
  | 0 => passAt device (k + 1)
  | j + 1 => passAt device (k + 9 + 8 * j)

/-- After the first pass no poll finds an update in progress until two passes in a row agree. -/
def QuietUntilAgree (device : Device) : Prop :=
  ∃ k n, (∀ i < k, ¬ Idle (device i statusA)) ∧ Idle (device k statusA) ∧
    (∀ i ≤ n, Idle (device (k + 7 + 8 * i) statusA)) ∧ pass device k (n + 1) = pass device k n

section Reads
variable {device : Device} {reads : List PortRead}

theorem readCMOSOffset_run (offset : UInt8) :
    (readCMOSOffset device offset).run reads =
      .ok (device reads.length offset, reads ++ [⟨offset, device reads.length offset⟩]) := rfl

theorem readCMOSTime_run :
    (readCMOSTime device).run reads =
      .ok ((passAt device reads.length).timePoint, reads ++ (passAt device reads.length).reads) := by
  unfold readCMOSTime
  rw [bind_ok (readCMOSOffset_run secs), bind_ok (readCMOSOffset_run mins),
    bind_ok (readCMOSOffset_run hrs), bind_ok (readCMOSOffset_run day),
    bind_ok (readCMOSOffset_run mnth), bind_ok (readCMOSOffset_run yr), run_pure_eq]
  simp [passAt, LastRead.timePoint, LastRead.reads]

theorem ofTimePoint_timePoint (r : LastRead) : LastRead.ofTimePoint r.timePoint = r := by
  simp [LastRead.ofTimePoint, LastRead.timePoint]

theorem toUInt16_inj (a b : UInt8) : a.toUInt16 = b.toUInt16 ↔ a = b := by
  constructor
  · intro h
    simpa using congrArg UInt16.toUInt8 h
  · exact congrArg UInt8.toUInt16

theorem differs_iff (r r' : LastRead) : r.differs r'.timePoint = true ↔ r ≠ r' := by
  cases r
  cases r'
  simp only [LastRead.differs, LastRead.timePoint, Bool.or_eq_true, bne_iff_ne, ne_eq,
    toUInt16_inj, LastRead.mk.injEq]
  tauto

end Reads

/-! ### The trace the loops leave -/

section Trace
variable {device : Device} {reads : List PortRead} {k j fuel : Nat}

/-- The trace after pass `j`, when every poll since the first pass was idle. -/
def Passes (device : Device) (k : Nat) : Nat → List PortRead → Prop
  | 0, reads => ∃ polls a, Polls polls ∧ Idle a ∧
      reads = polls ++ ⟨statusA, a⟩ :: (pass device k 0).reads
  | j + 1, reads => ∃ before a b, Passes device k j before ∧ Idle a ∧
      reads = before ++ ⟨statusA, a⟩ :: ⟨statusB, b⟩ :: (pass device k (j + 1)).reads

theorem Passes.last_pass (h : Passes device k j reads) :
    ∃ before a extra, reads = before ++ ⟨statusA, a⟩ :: extra ++ (pass device k j).reads ∧
      Idle a ∧ ∀ r ∈ extra, r.offset = statusB := by
  cases j with
  | zero =>
      obtain ⟨polls, a, _, idle, rfl⟩ := h
      exact ⟨polls, a, [], by simp, idle, fun r hr => absurd hr List.not_mem_nil⟩
  | succ j =>
      obtain ⟨before, a, b, _, idle, rfl⟩ := h
      refine ⟨before, a, [⟨statusB, b⟩], by simp, idle, fun r hr => ?_⟩
      rw [List.mem_singleton.mp hr]

theorem Passes.consistent (h : Passes device k j reads) {a b : UInt8} (idle : Idle a)
    (agree : pass device k (j + 1) = pass device k j) :
    Consistent (reads ++ ⟨statusA, a⟩ :: ⟨statusB, b⟩ :: (pass device k (j + 1)).reads)
      (pass device k (j + 1)) b := by
  obtain ⟨before, a', extra, rfl, idle', offsets⟩ := h.last_pass
  refine ⟨before, a', extra, [], a, [], ?_, idle', idle, offsets, ?_, ?_⟩
  · rw [agree]; simp
  · intro r hr; exact absurd hr List.not_mem_nil
  · intro r hr; exact absurd hr List.not_mem_nil

theorem statusB_ne_statusA : statusB ≠ statusA := by decide

theorem pass_ne_poll {xs ys : List PortRead} {r : LastRead} {p : PortRead}
    (hp : p.offset = statusA) : xs ++ r.reads ≠ ys ++ [p] := by
  intro e
  have ends := congrArg List.getLast? e
  simp only [LastRead.reads, List.getLast?_append, List.getLast?_cons_cons,
    List.getLast?_singleton, Option.some_or, Option.some.injEq] at ends
  rw [← ends] at hp
  cases hp

/-- A trace that ends in a pass and polls can be read in only one way. -/
theorem polls_after_pass {xs ys polls polls' : List PortRead} {r r' : LastRead}
    (hp : Polls polls) (hp' : Polls polls')
    (e : xs ++ r.reads ++ polls = ys ++ r'.reads ++ polls') :
    xs = ys ∧ r = r' ∧ polls = polls' := by
  induction polls using List.reverseRecOn generalizing polls' with
  | nil =>
      rcases List.eq_nil_or_concat' polls' with rfl | ⟨init, last, rfl⟩
      · rw [List.append_nil, List.append_nil] at e
        obtain ⟨front, same⟩ := List.append_inj' e rfl
        refine ⟨front, ?_, rfl⟩
        cases r
        cases r'
        simpa [LastRead.reads] using same
      · rw [List.append_nil, ← List.append_assoc] at e
        exact absurd e (pass_ne_poll (hp' last (by simp)))
  | append_singleton init last ih =>
      rcases List.eq_nil_or_concat' polls' with rfl | ⟨init', last', rfl⟩
      · rw [List.append_nil, ← List.append_assoc] at e
        exact absurd e.symm (pass_ne_poll (hp last (by simp)))
      · rw [← List.append_assoc, ← List.append_assoc] at e
        obtain ⟨front, same⟩ := List.append_inj' e rfl
        obtain ⟨hx, hr, hi⟩ := ih (fun q hq => hp q (by simp [hq]))
          (fun q hq => hp' q (by simp [hq])) front
        rw [hi, same]
        exact ⟨hx, hr, rfl⟩

/-- A busy poll ends the loop with a snapshot that no two passes in a row share. -/
theorem Passes.not_consistent (h : Passes device k j reads)
    (differ : ∀ i < j, pass device k (i + 1) ≠ pass device k i) {a b : UInt8} (raw : LastRead) :
    ¬ Consistent (reads ++ [⟨statusA, a⟩]) raw b := by
  rintro ⟨before, a₁, extra, polls, a₂, after, e, _, _, _, hp, ha⟩
  have poll : Polls [⟨statusA, a⟩] := by
    intro r hr
    rw [List.mem_singleton.mp hr]
  cases j with
  | zero =>
      -- a single pass reads no status B at all
      obtain ⟨polls₀, a₀, h₀, _, rfl⟩ := h
      have mem : (⟨statusB, b⟩ : PortRead) ∈ polls₀ ++ ⟨statusA, a₀⟩ ::
          (pass device k 0).reads ++ [⟨statusA, a⟩] := by
        rw [e]; simp
      rcases List.mem_append.mp mem with mem | mem
      · rcases List.mem_append.mp mem with mem | mem
        · exact statusB_ne_statusA (h₀ _ mem)
        · simp [LastRead.reads, statusA, statusB, secs, mins, hrs, day, mnth, yr] at mem
      · exact statusB_ne_statusA (poll _ mem)
  | succ j =>
      obtain ⟨u, a₀, b₀, hu, _, rfl⟩ := h
      obtain ⟨v, a', extra', rfl, _, _⟩ := hu.last_pass
      have e' : (v ++ ⟨statusA, a'⟩ :: extra' ++ (pass device k j).reads ++
          [⟨statusA, a₀⟩, ⟨statusB, b₀⟩]) ++ (pass device k (j + 1)).reads ++ [⟨statusA, a⟩] =
          (before ++ ⟨statusA, a₁⟩ :: extra ++ raw.reads ++ polls ++
          [⟨statusA, a₂⟩, ⟨statusB, b⟩]) ++ raw.reads ++ after := by
        simpa using e
      obtain ⟨front, last, _⟩ := polls_after_pass poll ha e'
      obtain ⟨front, _⟩ := List.append_inj' front rfl
      have e'' : (v ++ ⟨statusA, a'⟩ :: extra') ++ (pass device k j).reads ++ [] =
          (before ++ ⟨statusA, a₁⟩ :: extra) ++ raw.reads ++ polls := by
        simpa using front
      obtain ⟨_, previous, _⟩ :=
        polls_after_pass (fun r hr => absurd hr List.not_mem_nil) hp e''
      exact differ j (Nat.lt_succ_self j) (last.trans previous.symm)

end Trace

/-! ### The two loops -/

section Loops
variable {device : Device} {reads reads' : List PortRead} {k j fuel : Nat}

/-- What holds when the second loop is about to poll for the `j`-th time. -/
structure Polling (device : Device) (k j : Nat) (reads : List PortRead) : Prop where
  length : reads.length = k + 7 + 8 * j
  passes : Passes device k j reads
  idle : ∀ i < j, Idle (device (k + 7 + 8 * i) statusA)
  differ : ∀ i < j, pass device k (i + 1) ≠ pass device k i

theorem firstRead_run {tp : RTCTimePoint}
    (run : (firstRead device fuel).run reads = .ok (tp, reads')) :
    ∃ n polls, polls.length = n ∧ Polls polls ∧
      (∀ i < n, ¬ Idle (device (reads.length + i) statusA)) ∧
      Idle (device (reads.length + n) statusA) ∧
      tp = (passAt device (reads.length + n + 1)).timePoint ∧
      reads' = reads ++ polls ++ ⟨statusA, device (reads.length + n) statusA⟩ ::
        (passAt device (reads.length + n + 1)).reads := by
  induction fuel generalizing reads with
  | zero => cases run
  | succ fuel ih =>
      rw [firstRead, bind_ok (readCMOSOffset_run statusA)] at run
      by_cases idle : device reads.length statusA &&& 0x80 = 0
      · rw [if_pos idle, readCMOSTime_run] at run
        cases run
        refine ⟨0, [], rfl, fun r hr => absurd hr List.not_mem_nil,
          fun i hi => absurd hi (Nat.not_lt_zero i), idle, by simp, by simp⟩
      · rw [if_neg idle] at run
        obtain ⟨n, polls, length, hp, busy, idle', rfl, rfl⟩ := ih run
        have shift : ∀ i, reads.length + 1 + i = reads.length + (i + 1) := fun i => by omega
        simp only [List.length_append, List.length_singleton, shift] at busy idle' ⊢
        refine ⟨n + 1, ⟨statusA, device reads.length statusA⟩ :: polls, by simp [length],
          ?_, ?_, idle', rfl, by simp⟩
        · intro r hr
          rcases List.mem_cons.mp hr with rfl | hr
          · rfl
          · exact hp r hr
        · intro i hi
          cases i with
          | zero => exact idle
          | succ i => exact busy i (Nat.lt_of_succ_lt_succ hi)

theorem readAgain_idle {tp : RTCTimePoint} {statB : UInt8}
    (idle : device reads.length statusA &&& 0x80 = 0) :
    (readAgain device tp statB).run reads =
      .ok (((passAt device (reads.length + 2)).timePoint, device (reads.length + 1) statusB, true),
        reads ++ ⟨statusA, device reads.length statusA⟩ ::
          ⟨statusB, device (reads.length + 1) statusB⟩ ::
          (passAt device (reads.length + 2)).reads) := by
  unfold readAgain
  rw [bind_ok (readCMOSOffset_run statusA), if_pos idle, bind_ok (readCMOSOffset_run statusB),
    bind_ok readCMOSTime_run, run_pure_eq]
  simp

theorem readAgain_busy {tp : RTCTimePoint} {statB : UInt8}
    (busy : ¬ device reads.length statusA &&& 0x80 = 0) :
    (readAgain device tp statB).run reads =
      .ok ((tp, statB, false), reads ++ [⟨statusA, device reads.length statusA⟩]) := by
  unfold readAgain
  rw [bind_ok (readCMOSOffset_run statusA), if_neg busy]
  rfl

theorem Polling.next (h : Polling device k j reads) {a b : UInt8}
    (idle : Idle (device (k + 7 + 8 * j) statusA)) (ha : Idle a)
    (differ : pass device k (j + 1) ≠ pass device k j) :
    Polling device k (j + 1)
      (reads ++ ⟨statusA, a⟩ :: ⟨statusB, b⟩ :: (pass device k (j + 1)).reads) where
  length := by
    simp only [List.length_append, List.length_cons, h.length, LastRead.reads, List.length_nil]
    omega
  passes := ⟨reads, a, b, h.passes, ha, rfl⟩
  idle i hi := by
    rcases Nat.lt_succ_iff_lt_or_eq.mp hi with lt | rfl
    · exact h.idle i lt
    · exact idle
  differ i hi := by
    rcases Nat.lt_succ_iff_lt_or_eq.mp hi with lt | rfl
    · exact h.differ i lt
    · exact differ

theorem Polling.compareReads_run (h : Polling device k j reads) {statB statB' : UInt8}
    {tp : RTCTimePoint}
    (run : (compareReads device fuel (pass device k j).timePoint statB).run reads =
      .ok ((tp, statB'), reads')) :
    ∃ n raw, tp = raw.timePoint ∧ (∀ i < n, Idle (device (k + 7 + 8 * i) statusA)) ∧
      (∀ i < n, pass device k (i + 1) ≠ pass device k i) ∧
      (Idle (device (k + 7 + 8 * n) statusA) ∧ pass device k (n + 1) = pass device k n ∧
          Consistent reads' raw statB' ∨
        ¬ Idle (device (k + 7 + 8 * n) statusA) ∧ ¬ Consistent reads' raw statB') := by
  induction fuel generalizing j reads statB with
  | zero => cases run
  | succ fuel ih =>
      have next : reads.length + 2 = k + 9 + 8 * j := by rw [h.length]; omega
      have here : passAt device (reads.length + 2) = pass device k (j + 1) := by rw [next]; rfl
      unfold compareReads at run
      by_cases idle : device reads.length statusA &&& 0x80 = 0
      · rw [bind_ok (readAgain_idle idle)] at run
        dsimp only at run
        rw [here, ofTimePoint_timePoint, Bool.and_true] at run
        have idle' : Idle (device (k + 7 + 8 * j) statusA) := by rw [← h.length]; exact idle
        by_cases agree : pass device k (j + 1) = pass device k j
        · have same : (pass device k j).differs (pass device k (j + 1)).timePoint = false := by
            rw [← Bool.not_eq_true, differs_iff, not_not, agree]
          rw [same] at run
          cases run
          exact ⟨j, pass device k (j + 1), rfl, h.idle, h.differ,
            .inl ⟨idle', agree, h.passes.consistent idle agree⟩⟩
        · rw [(differs_iff _ _).mpr (Ne.symm agree), if_pos rfl] at run
          exact ih (h.next idle' idle agree) run
      · rw [bind_ok (readAgain_busy idle)] at run
        dsimp only at run
        rw [Bool.and_false] at run
        cases run
        refine ⟨j, pass device k j, rfl, h.idle, h.differ, .inr ⟨?_, ?_⟩⟩
        · rw [← h.length]; exact idle
        · exact h.passes.not_consistent h.differ _

theorem snapshot_run {statB statB' : UInt8} {tp : RTCTimePoint}
    (run : (snapshot device statB fuel).run [] = .ok ((tp, statB'), reads)) :
    ∃ raw : LastRead, tp = raw.timePoint ∧
      (Consistent reads raw statB' ↔ QuietUntilAgree device) := by
  unfold snapshot at run
  obtain ⟨tp₀, reads₀, run₀, run⟩ := of_bind_ok run
  obtain ⟨k, polls, length, hp, busy, idle, rfl, rfl⟩ := firstRead_run run₀
  simp only [List.length_nil, Nat.zero_add, List.nil_append] at busy idle run
  have start : Polling device k 0
      (polls ++ ⟨statusA, device k statusA⟩ :: (pass device k 0).reads) := by
    refine ⟨?_, ⟨polls, _, hp, idle, rfl⟩, fun i hi => absurd hi (Nat.not_lt_zero i),
      fun i hi => absurd hi (Nat.not_lt_zero i)⟩
    simp [length, LastRead.reads]
  obtain ⟨n, raw, rfl, quiet, differ, last⟩ := start.compareReads_run run
  refine ⟨raw, rfl, ?_⟩
  rcases last with ⟨idle', agree, consistent⟩ | ⟨busy', inconsistent⟩
  · refine ⟨fun _ => ⟨k, n, busy, idle, fun i hi => ?_, agree⟩, fun _ => consistent⟩
    rcases Nat.lt_or_eq_of_le hi with lt | rfl
    · exact quiet i lt
    · exact idle'
  · refine ⟨fun c => absurd c inconsistent, fun q => ?_⟩
    obtain ⟨k', m, before, idle₀, quiet', agree⟩ := q
    -- the first idle poll is the same one
    have same : k' = k := by
      rcases Nat.lt_trichotomy k' k with lt | e | gt
      · exact absurd idle₀ (busy k' lt)
      · exact e
      · exact absurd idle (before k gt)
    subst same
    rcases Nat.lt_or_ge m n with lt | ge
    · exact absurd agree (differ m lt)
    · exact absurd (quiet' n ge) busy'

end Loops

/-- Whenever `read_timepoint` returns, the snapshot it decodes is consistent exactly if no
poll of the second loop is busy before two passes in a row agree. -/
theorem read_timepoint_consistent_iff (device : Device) (statB : UInt8) (fuel : Nat)
    (tp : RTCTimePoint) (reads : List PortRead)
    (returned : (readTimepoint device statB fuel).run [] = .ok (tp, reads)) :
    ∃ raw statB', (snapshot device statB fuel).run [] = .ok ((raw.timePoint, statB'), reads) ∧
      tp = decode raw.timePoint statB' ∧ (Consistent reads raw statB' ↔ QuietUntilAgree device) := by
  unfold readTimepoint at returned
  obtain ⟨⟨tp₀, statB'⟩, reads₀, run, rest⟩ := of_bind_ok returned
  cases rest
  obtain ⟨raw, rfl, exact⟩ := snapshot_run run
  exact ⟨raw, statB', run, rfl, exact⟩

/-- The eighth read, the first poll of the second loop, finds an update in progress. -/
def updating : Device := fun n _ => if n = 7 then 0x80 else 0x12

theorem read_timepoint_consistent_iff_updating :
    ∃ raw statB' reads,
      (snapshot updating 0 2).run [] = .ok ((raw.timePoint, statB'), reads) ∧
        (Consistent reads raw statB' ↔ QuietUntilAgree updating) := by
  obtain ⟨raw, statB', run, _, exact⟩ :=
    read_timepoint_consistent_iff updating 0 2 _ _ rfl
  exact ⟨raw, statB', _, run, exact⟩

/-- Not every time point that is returned comes from a consistent snapshot. -/
theorem read_timepoint_inconsistent :
    ¬ ∀ (device : Device) (statB : UInt8) (fuel : Nat) (tp : RTCTimePoint) (reads : List PortRead),
      (readTimepoint device statB fuel).run [] = .ok (tp, reads) →
        ∃ raw statB', (snapshot device statB fuel).run [] = .ok ((raw.timePoint, statB'), reads) ∧
          Consistent reads raw statB' := by
  intro all
  have returned : (readTimepoint updating 0 2).run [] =
      .ok (decode (passAt updating 1).timePoint 0,
        ⟨statusA, 0x12⟩ :: (passAt updating 1).reads ++ [⟨statusA, 0x80⟩]) := by rfl
  obtain ⟨raw, statB', _, before, a, extra, polls, a', after, e, _⟩ := all _ _ _ _ _ returned
  have mem : (⟨statusB, statB'⟩ : PortRead) ∈
      ⟨statusA, 0x12⟩ :: (passAt updating 1).reads ++ [⟨statusA, 0x80⟩] := by
    rw [e]; simp
  simp [LastRead.reads, statusA, statusB, secs, mins, hrs, day, mnth, yr] at mem

end Infos.Drivers.CmosRtc
