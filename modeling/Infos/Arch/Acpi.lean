import Infos.Lib.Calls
import Mathlib.Order.Monotone.Basic
import Mathlib.Tactic.SplitIfs

/-!
# The MADT

`parse_madt` goes through the records of a table by their length bytes. Every byte of a record
that it reads is logged, and the log outlives a failed assertion.
-/
namespace Infos.Arch.Acpi
open Infos.Lib

/-- The bytes from the start of the table on, and of the memory behind it. -/
abbrev Madt := Nat → UInt8

namespace Madt

def read32 (madt : Madt) (o : Nat) : UInt32 :=
  (madt o).toUInt32 ||| (madt (o + 1)).toUInt32 <<< 8 ||| (madt (o + 2)).toUInt32 <<< 16 |||
    (madt (o + 3)).toUInt32 <<< 24

/-- `header.length` -/
def length (madt : Madt) : Nat := (madt.read32 4).toNat

/-- The offset of `records`. -/
def firstRecord : Nat := 44

/-- Reads of the bytes of a record, as offsets; the state is `__ioapic_base`. -/
abbrev Parser (α : Type) := Calls Nat UInt32 α

variable (madt : Madt)

def byte (o : Nat) : Parser UInt8 := do
  let _ ← Calls.call o
  pure (madt o)

def word (o : Nat) : Parser UInt32 := do
  let _ ← madt.byte o
  let _ ← madt.byte (o + 1)
  let _ ← madt.byte (o + 2)
  let _ ← madt.byte (o + 3)
  pure (madt.read32 o)

/-- `id`, `procid` and `flags` for the message. -/
def parseMadtLapic (lapic : Nat) : Parser Bool := do
  let _ ← madt.byte (lapic + 3)
  let _ ← madt.byte (lapic + 2)
  let _ ← madt.word (lapic + 4)
  pure true

def parseMadtIoapic (ioapic : Nat) : Parser Bool := do
  if (← get) ≠ 0 then throw .assertion
  let _ ← madt.byte (ioapic + 2)
  let _ ← madt.word (ioapic + 4)
  let _ ← madt.word (ioapic + 8)
  let address ← madt.word (ioapic + 4)
  set address
  pure true

/-- `bus`, `irq`, `gsi` and the two bytes of `flags`. -/
def parseMadtIso (iso : Nat) : Parser Bool := do
  let _ ← madt.byte (iso + 2)
  let _ ← madt.byte (iso + 3)
  let _ ← madt.word (iso + 4)
  let _ ← madt.byte (iso + 8)
  let _ ← madt.byte (iso + 9)
  pure true

/-- The warning about another type has the type and the length. -/
def unsupported (rhs : Nat) : Parser Bool := do
  let _ ← madt.byte rhs
  let _ ← madt.byte (rhs + 1)
  pure true

def parseRecord (rhs : Nat) : Parser Bool := do
  let type ← madt.byte rhs
  if type = 0 then madt.parseMadtLapic rhs
  else if type = 1 then madt.parseMadtIoapic rhs
  else if type = 2 then madt.parseMadtIso rhs
  else madt.unsupported rhs

/-- `while (rhs < rhe)` -/
def parseLoop : Nat → Nat → Parser Bool
  | 0, _ => throw .outOfFuel
  | fuel + 1, rhs => do
      if rhs < madt.length then
        if ← madt.parseRecord rhs then
          let length ← madt.byte (rhs + 1)
          parseLoop fuel (rhs + length.toNat)
        else pure false
      else pure true

def parseMadt (fuel : Nat) : Parser Bool := madt.parseLoop fuel firstRecord

/-! ### The records of a table -/

/-- The length byte of a record. -/
def lengthAt (o : Nat) : Nat := (madt (o + 1)).toNat

/-- Where the records are, by the length bytes of those before them. -/
def recordAt : Nat → Nat
  | 0 => firstRecord
  | i + 1 => recordAt i + madt.lengthAt (recordAt i)

/-- The address of the last I/O APIC among the first records. -/
def baseAt (base : UInt32) : Nat → UInt32
  | 0 => base
  | i + 1 => if madt (madt.recordAt i) = 1 then madt.read32 (madt.recordAt i + 4) else baseAt base i

/-- How long the fields of a record are, by its type. -/
def fieldsSize (type : UInt8) : Nat :=
  if type = 0 then 8 else if type = 1 then 12 else if type = 2 then 10 else 2

/-- Another I/O APIC after one with an address other than 0. -/
def Second (base : UInt32) (i : Nat) : Prop :=
  madt (madt.recordAt i) = 1 ∧ madt.baseAt base i ≠ 0

/-- A length byte other than 0, room for the fields and no second I/O APIC. -/
structure Sound (base : UInt32) (i : Nat) : Prop where
  length_pos : 0 < madt.lengthAt (madt.recordAt i)
  fits : madt.recordAt i + fieldsSize (madt (madt.recordAt i)) ≤ madt.length
  single : ¬ madt.Second base i

/-! ### Runs -/

/-- The parser returns. -/
def Returns (base : UInt32) : Prop :=
  ∃ fuel base', ((madt.parseMadt fuel).runOn base []).1 = .ok (true, base')

/-- Every byte of a record that is read, in however many rounds, is one of the table. -/
def Inside (base : UInt32) : Prop :=
  ∀ fuel, ∀ o ∈ ((madt.parseMadt fuel).runOn base []).2, o < madt.length

section Rounds
variable {madt} {base : UInt32} {i : Nat} {log : List Nat}

theorem byte_runOn (o : Nat) (base : UInt32) (log : List Nat) :
    (madt.byte o).runOn base log = (.ok (madt o, base), o :: log) := rfl

theorem parseRecord_reads (log : List Nat) {o : Nat} (first : ¬ (madt o = 1 ∧ base ≠ 0)) :
    ∃ reads, (madt.parseRecord o).runOn base log =
        (.ok (true, if madt o = 1 then madt.read32 (o + 4) else base), reads ++ log) ∧
      (∀ x ∈ reads, x < o + fieldsSize (madt o)) ∧ o + fieldsSize (madt o) - 1 ∈ reads := by
  rw [parseRecord, Calls.runOn_bind_ok (byte_runOn _ _ _), fieldsSize]
  by_cases lapic : madt o = 0
  · rw [if_pos lapic, if_pos lapic, lapic, if_neg (by decide)]
    refine ⟨[o + 7, o + 6, o + 5, o + 4, o + 2, o + 3, o], rfl, ?_, ?_⟩
    all_goals simp
  · rw [if_neg lapic, if_neg lapic]
    by_cases ioapic : madt o = 1
    · have unused : base = 0 := by
        by_contra used
        exact first ⟨ioapic, used⟩
      rw [if_pos ioapic, if_pos ioapic, if_pos ioapic, unused]
      refine ⟨[o + 7, o + 6, o + 5, o + 4, o + 11, o + 10, o + 9, o + 8, o + 7, o + 6, o + 5, o + 4,
        o + 2, o], rfl, ?_, ?_⟩
      all_goals simp
    · rw [if_neg ioapic, if_neg ioapic, if_neg ioapic]
      by_cases iso : madt o = 2
      · rw [if_pos iso, if_pos iso]
        refine ⟨[o + 9, o + 8, o + 7, o + 6, o + 5, o + 4, o + 3, o + 2, o], rfl, ?_, ?_⟩
        all_goals simp
      · rw [if_neg iso, if_neg iso]
        refine ⟨[o + 1, o, o], rfl, ?_, ?_⟩
        all_goals simp

theorem parseRecord_second {o : Nat} (second : madt o = 1 ∧ base ≠ 0) :
    (madt.parseRecord o).runOn base log = (.error .assertion, o :: log) := by
  obtain ⟨type, used⟩ := second
  rw [parseRecord, Calls.runOn_bind_ok (byte_runOn _ _ _), type, if_neg (by decide), if_pos rfl,
    parseMadtIoapic, Calls.runOn_bind_ok (Calls.runOn_get _ _), if_pos used]
  rfl

/-- The loop from a record on. -/
def loopFrom (madt : Madt) (base : UInt32) (fuel i : Nat) (log : List Nat) :
    Except Fault (Bool × UInt32) × List Nat :=
  (madt.parseLoop fuel (madt.recordAt i)).runOn (madt.baseAt base i) log

variable {fuel : Nat}

theorem loopFrom_end (behind : madt.length ≤ madt.recordAt i) :
    madt.loopFrom base (fuel + 1) i log = (.ok (true, madt.baseAt base i), log) := by
  rw [loopFrom, parseLoop, if_neg (Nat.not_lt.mpr behind)]
  rfl

theorem loopFrom_second (more : madt.recordAt i < madt.length) (second : madt.Second base i) :
    madt.loopFrom base (fuel + 1) i log = (.error .assertion, madt.recordAt i :: log) := by
  rw [loopFrom, parseLoop, if_pos more]
  exact Calls.runOn_bind_error (parseRecord_second second)

theorem fieldsSize_ge (type : UInt8) : 2 ≤ fieldsSize type := by
  unfold fieldsSize
  split_ifs <;> decide

/-- A round reads the fields of its record, up to the last byte, and goes on with the next. -/
theorem loopFrom_next (log : List Nat) (more : madt.recordAt i < madt.length)
    (first : ¬ madt.Second base i) :
    ∃ reads, (∀ fuel, madt.loopFrom base (fuel + 1) i log =
        madt.loopFrom base fuel (i + 1) (reads ++ log)) ∧
      (∀ x ∈ reads, x < madt.recordAt i + fieldsSize (madt (madt.recordAt i))) ∧
      madt.recordAt i + fieldsSize (madt (madt.recordAt i)) - 1 ∈ reads := by
  obtain ⟨reads, run, within, last⟩ := parseRecord_reads log first
  have size := fieldsSize_ge (madt (madt.recordAt i))
  refine ⟨(madt.recordAt i + 1) :: reads, fun fuel => ?_, ?_, List.mem_cons_of_mem _ last⟩
  · rw [loopFrom, parseLoop, if_pos more, Calls.runOn_bind_ok run, if_pos rfl,
      Calls.runOn_bind_ok (byte_runOn _ _ _)]
    rfl
  · exact List.forall_mem_cons.mpr ⟨by omega, within⟩

theorem loopFrom_grows (fuel i : Nat) (log : List Nat) :
    log ⊆ (madt.loopFrom base fuel i log).2 := by
  induction fuel generalizing i log with
  | zero => exact List.Subset.refl log
  | succ fuel ih =>
      by_cases more : madt.recordAt i < madt.length
      · by_cases second : madt.Second base i
        · rw [loopFrom_second more second]
          exact List.subset_cons_self _ _
        · obtain ⟨reads, next, -⟩ := loopFrom_next log more second
          rw [next]
          exact List.Subset.trans (List.subset_append_right reads log) (ih (i + 1) _)
      · rw [loopFrom_end (Nat.not_lt.mp more)]
        exact List.Subset.refl log

theorem recordAt_mono (madt : Madt) : Monotone madt.recordAt :=
  monotone_nat_of_le_succ fun _ => Nat.le_add_right _ _

theorem behind_of_returns {b : UInt32}
    (run : (madt.loopFrom base fuel i log).1 = .ok (true, b)) :
    ∃ k, i ≤ k ∧ madt.length ≤ madt.recordAt k := by
  induction fuel generalizing i log with
  | zero => cases run
  | succ fuel ih =>
      by_cases more : madt.recordAt i < madt.length
      · by_cases second : madt.Second base i
        · rw [loopFrom_second more second] at run
          cases run
        · obtain ⟨reads, next, -⟩ := loopFrom_next log more second
          rw [next] at run
          obtain ⟨k, le, behind⟩ := ih run
          exact ⟨k, Nat.le_of_succ_le le, behind⟩
      · exact ⟨i, le_refl i, Nat.not_lt.mp more⟩

theorem fits_of_returns {b : UInt32}
    (run : (madt.loopFrom base fuel i log).1 = .ok (true, b))
    (inside : ∀ o ∈ (madt.loopFrom base fuel i log).2, o < madt.length) {k : Nat} (le : i ≤ k)
    (more : madt.recordAt k < madt.length) :
    madt.recordAt k + fieldsSize (madt (madt.recordAt k)) ≤ madt.length ∧
      ¬ madt.Second base k := by
  induction fuel generalizing i log with
  | zero => cases run
  | succ fuel ih =>
      have here : madt.recordAt i < madt.length := (recordAt_mono madt le).trans_lt more
      by_cases second : madt.Second base i
      · rw [loopFrom_second here second] at run
        cases run
      · obtain ⟨reads, next, -, last⟩ := loopFrom_next log here second
        rw [next] at run inside
        rcases Nat.eq_or_lt_of_le le with rfl | less
        · refine ⟨?_, second⟩
          have below := inside _ (loopFrom_grows _ _ _ (List.mem_append_left _ last))
          have size := fieldsSize_ge (madt (madt.recordAt i))
          omega
        · exact ih run inside less

theorem recordAt_stuck {k : Nat} (zero : madt.lengthAt (madt.recordAt k) = 0) (n : Nat) :
    madt.recordAt (k + n) = madt.recordAt k := by
  induction n with
  | zero => rfl
  | succ n ih => rw [← Nat.add_assoc, recordAt, ih, zero, Nat.add_zero]

theorem length_pos_of_behind {k m : Nat} (more : madt.recordAt k < madt.length)
    (behind : madt.length ≤ madt.recordAt m) : 0 < madt.lengthAt (madt.recordAt k) := by
  refine Nat.pos_of_ne_zero fun zero => ?_
  have stuck := recordAt_stuck zero m
  have past : madt.recordAt m ≤ madt.recordAt (k + m) := recordAt_mono madt (Nat.le_add_left m k)
  omega

theorem inside_of_sound (sound : ∀ i, madt.recordAt i < madt.length → madt.Sound base i)
    (fuel i : Nat) (before : ∀ o ∈ log, o < madt.length) :
    ∀ o ∈ (madt.loopFrom base fuel i log).2, o < madt.length := by
  induction fuel generalizing i log with
  | zero => exact before
  | succ fuel ih =>
      by_cases more : madt.recordAt i < madt.length
      · obtain ⟨reads, next, within, -⟩ :=
          loopFrom_next log more (sound i more).single
        rw [next]
        refine ih (i + 1) fun o mem => ?_
        rcases List.mem_append.mp mem with new | old
        · exact (within o new).trans_le (sound i more).fits
        · exact before o old
      · rw [loopFrom_end (Nat.not_lt.mp more)]
        exact before

theorem returns_of_sound (sound : ∀ i, madt.recordAt i < madt.length → madt.Sound base i)
    (n i : Nat) (near : madt.length ≤ madt.recordAt i + n) (log : List Nat) :
    ∃ fuel b, (madt.loopFrom base fuel i log).1 = .ok (true, b) := by
  induction n generalizing i log with
  | zero =>
      refine ⟨1, madt.baseAt base i, ?_⟩
      rw [loopFrom_end near]
  | succ n ih =>
      by_cases more : madt.recordAt i < madt.length
      · have progress : madt.length ≤ madt.recordAt (i + 1) + n := by
          have := (sound i more).length_pos
          rw [recordAt]
          omega
        obtain ⟨reads, next, -⟩ := loopFrom_next log more (sound i more).single
        obtain ⟨fuel, b, run⟩ := ih (i + 1) progress (reads ++ log)
        exact ⟨fuel + 1, b, by rw [next, run]⟩
      · refine ⟨1, madt.baseAt base i, ?_⟩
        rw [loopFrom_end (Nat.not_lt.mp more)]

end Rounds

/-- The parser returns and reads nothing behind the table if and only if every record that begins
in it has a length byte other than 0, room for its fields, and is no second I/O APIC. -/
theorem parse_madt_iff (madt : Madt) (base : UInt32) :
    madt.Returns base ∧ madt.Inside base ↔
      ∀ i, madt.recordAt i < madt.length → madt.Sound base i := by
  constructor
  · rintro ⟨⟨fuel, b, run⟩, inside⟩ i more
    obtain ⟨fits, single⟩ := fits_of_returns (i := 0) run (inside fuel) (Nat.zero_le i) more
    obtain ⟨k, -, behind⟩ := behind_of_returns (i := 0) run
    exact ⟨length_pos_of_behind more behind, fits, single⟩
  · intro sound
    refine ⟨?_, fun fuel => inside_of_sound sound fuel 0 nofun⟩
    obtain ⟨fuel, b, run⟩ := returns_of_sound sound madt.length 0 (Nat.le_add_left _ _) []
    exact ⟨fuel, b, run⟩

/-- A table of 46 bytes: one record of an unknown type with the length 0. -/
def emptyRecord : Madt := fun o => if o = 4 then 46 else if o = 44 then 255 else 0

/-- The parser stays at the record for ever. -/
theorem emptyRecord_stuck : ¬ (emptyRecord.Returns 0 ∧ emptyRecord.Inside 0) := by
  rintro ⟨⟨fuel, b, run⟩, -⟩
  obtain ⟨k, -, behind⟩ := behind_of_returns (i := 0) run
  have more : emptyRecord.recordAt 0 < emptyRecord.length := by decide
  exact absurd (length_pos_of_behind more behind) (by decide)

end Madt
end Infos.Arch.Acpi
