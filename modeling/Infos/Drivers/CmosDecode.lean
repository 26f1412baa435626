import Infos.Drivers.CmosRtc

/-!
# Decoding the clock registers

The MC146818 holds each field in binary or in BCD, the hour in 12 or 24 hours,
as status B selects. `Presents` is a device that holds one time all along.
-/
namespace Infos.Drivers.CmosRtc
open Infos.Lib

/-- A date and time with a two-digit year. -/
structure Clock where
  seconds : Nat
  minutes : Nat
  hours : Nat
  dayOfMonth : Nat
  month : Nat
  year : Nat
  seconds_lt : seconds < 60
  minutes_lt : minutes < 60
  hours_lt : hours < 24
  day_le : 1 ≤ dayOfMonth ∧ dayOfMonth ≤ 31
  month_le : 1 ≤ month ∧ month ≤ 12
  year_lt : year < 100

def Clock.timePoint (t : Clock) : RTCTimePoint :=
  ⟨.ofNat t.seconds, .ofNat t.minutes, .ofNat t.hours, .ofNat t.dayOfMonth, .ofNat t.month,
    .ofNat t.year⟩

/-- What bits 2 and 1 of status B select. -/
structure Format where
  binary : Bool
  hours24 : Bool
  deriving DecidableEq, Repr

def Format.ofStatusB (statB : UInt8) : Format := ⟨statB &&& 0x04 ≠ 0, statB &&& 0x02 ≠ 0⟩

def Format.field (f : Format) (n : Nat) : UInt8 :=
  .ofNat (if f.binary then n else 16 * (n / 10) + n % 10)

/-- Bit 7 means PM; there is no hour 0. -/
def Format.hourField (f : Format) (h : Nat) : UInt8 :=
  if f.hours24 then f.field h
  else f.field (if h % 12 = 0 then 12 else h % 12) ||| (if 12 ≤ h then 0x80 else 0)

def Format.registers (f : Format) (t : Clock) : LastRead :=
  ⟨f.field t.seconds, f.field t.minutes, f.hourField t.hours, f.field t.dayOfMonth,
    f.field t.month, f.field t.year⟩

/-- The device holds the time in its format; `busy` polls find an update in progress. -/
structure Presents (device : Device) (busy : Nat) (statB : UInt8) (t : Clock) : Prop where
  updating : ∀ n < busy, ¬ Idle (device n statusA)
  quiet : ∀ n, busy ≤ n → Idle (device n statusA)
  format : ∀ n, device n statusB = statB
  pass : ∀ n, passAt device n = (Format.ofStatusB statB).registers t

/-! ### Decoding -/

section Decode
variable {t : Clock}

def decodeField (f : Format) (byte : UInt8) : UInt16 :=
  if f.binary then byte.toUInt16 else bcdToShort byte

def decodeHour (f : Format) (byte : UInt8) : UInt16 :=
  let hours := if f.binary then byte.toUInt16 else bcdToShort byte ||| (byte.toUInt16 &&& 0x80)
  if f.hours24 ∧ hours &&& 0x80 ≠ 0 then ((hours &&& 0x7F) + 12) % 24 else hours

theorem decode_timePoint (raw : LastRead) (statB : UInt8) :
    decode raw.timePoint statB =
      ⟨decodeField (.ofStatusB statB) raw.seconds, decodeField (.ofStatusB statB) raw.minutes,
        decodeHour (.ofStatusB statB) raw.hours, decodeField (.ofStatusB statB) raw.dayOfMonth,
        decodeField (.ofStatusB statB) raw.month, decodeField (.ofStatusB statB) raw.year⟩ := by
  have bit1 : (Format.ofStatusB statB).hours24 = true ↔ statB &&& 0x02 ≠ 0 := decide_eq_true_iff
  obtain ⟨second, minute, hour, date, month, year⟩ := raw
  change decode ⟨second.toUInt16, minute.toUInt16, hour.toUInt16, date.toUInt16, month.toUInt16,
    year.toUInt16⟩ statB = _
  unfold decode decodeField decodeHour
  by_cases bcd : statB &&& 0x04 = 0
  · have bit2 : (Format.ofStatusB statB).binary = false := decide_eq_false (not_not.mpr bcd)
    simp only [if_pos bcd, bit1, bit2, Bool.false_eq_true, if_false, decodeBCD,
      UInt8.toUInt8_toUInt16]
    split_ifs <;> rfl
  · have bit2 : (Format.ofStatusB statB).binary = true := decide_eq_true bcd
    simp only [if_neg bcd, bit1, bit2, if_true]
    split_ifs <;> rfl

theorem decodeField_field : ∀ binary hours24 : Bool, ∀ n < 100,
    decodeField ⟨binary, hours24⟩ (Format.field ⟨binary, hours24⟩ n) = UInt16.ofNat n := by
  decide

theorem decode_registers (statB : UInt8) :
    decode ((Format.ofStatusB statB).registers t).timePoint statB =
      { t.timePoint with
        hours := decodeHour (.ofStatusB statB) ((Format.ofStatusB statB).hourField t.hours) } := by
  have right : ∀ n < 100, decodeField (.ofStatusB statB) ((Format.ofStatusB statB).field n) =
      UInt16.ofNat n := decodeField_field _ _
  rw [decode_timePoint]
  simp only [Format.registers, Clock.timePoint]
  rw [right _ (t.seconds_lt.trans (by decide)), right _ (t.minutes_lt.trans (by decide)),
    right _ (t.day_le.2.trans_lt (by decide)), right _ (t.month_le.2.trans_lt (by decide)),
    right _ t.year_lt]

/-- The test of bit 1 is the wrong way round: PM is never taken out of a 12-hour value, and 12 AM
stays 12. -/
theorem decodeHour_iff : ∀ (binary hours24 : Bool), ∀ h < 24,
    decodeHour ⟨binary, hours24⟩ (Format.hourField ⟨binary, hours24⟩ h) = UInt16.ofNat h ↔
      hours24 = true ∨ 1 ≤ h ∧ h ≤ 11 := by
  decide

end Decode

/-! ### A device that holds still -/

section Presents
variable {device : Device} {busy fuel : Nat} {statB : UInt8} {t : Clock} {reads : List PortRead}

theorem Presents.firstRead_run (h : Presents device busy statB t)
    (enough : busy < reads.length + fuel) (some : 0 < fuel) :
    ∃ reads', (firstRead device fuel).run reads =
        .ok (((Format.ofStatusB statB).registers t).timePoint, reads') ∧ busy ≤ reads'.length := by
  induction fuel generalizing reads with
  | zero => exact absurd some (Nat.lt_irrefl 0)
  | succ fuel ih =>
      rw [firstRead, bind_ok (readCMOSOffset_run statusA)]
      by_cases idle : device reads.length statusA &&& 0x80 = 0
      · have late : busy ≤ reads.length := by
          by_contra early
          exact h.updating reads.length (Nat.lt_of_not_le early) idle
        rw [if_pos idle, readCMOSTime_run, h.pass]
        refine ⟨_, rfl, ?_⟩
        simp only [List.length_append]
        omega
      · have early : reads.length < busy := by
          by_contra late
          exact idle (h.quiet reads.length (Nat.le_of_not_lt late))
        rw [if_neg idle]
        apply ih
        · rw [List.length_append, List.length_singleton]
          omega
        · omega

theorem Presents.compareReads_run (h : Presents device busy statB t) (late : busy ≤ reads.length)
    (some : 0 < fuel) (uninit : UInt8) :
    ∃ reads', (compareReads device fuel ((Format.ofStatusB statB).registers t).timePoint uninit).run
        reads = .ok ((((Format.ofStatusB statB).registers t).timePoint, statB), reads') := by
  obtain ⟨fuel, rfl⟩ := Nat.exists_eq_add_one_of_ne_zero some.ne'
  have idle : device reads.length statusA &&& 0x80 = 0 := h.quiet reads.length late
  have same : ((Format.ofStatusB statB).registers t).differs
      ((Format.ofStatusB statB).registers t).timePoint = false := by
    rw [← Bool.not_eq_true, differs_iff, not_not]
  unfold compareReads
  rw [bind_ok (readAgain_idle idle), h.pass, h.format]
  dsimp only
  rw [ofTimePoint_timePoint, same]
  exact ⟨_, rfl⟩

theorem Presents.readTimepoint_run (h : Presents device busy statB t) (enough : busy < fuel)
    (uninit : UInt8) :
    ∃ reads, (readTimepoint device uninit fuel).run [] =
      .ok (decode ((Format.ofStatusB statB).registers t).timePoint statB, reads) := by
  have some : 0 < fuel := by omega
  have budget : busy < ([] : List PortRead).length + fuel := by simpa using enough
  obtain ⟨reads₁, run₁, late⟩ := h.firstRead_run budget some
  obtain ⟨reads₂, run₂⟩ := h.compareReads_run late some uninit
  have both : (snapshot device uninit fuel).run [] = _ := (bind_ok run₁).trans run₂
  exact ⟨reads₂, (bind_ok both).trans rfl⟩

end Presents

/-- On a device that holds a valid time still, in any format and after any number of busy polls,
`read_timepoint` returns that time if and only if the format has 24 hours or the hour is from 1 to
11. -/
theorem read_timepoint_decodes_iff (device : Device) (busy fuel : Nat) (statB uninit : UInt8)
    (t : Clock) (presents : Presents device busy statB t) (enough : busy < fuel) :
    (∃ reads, (readTimepoint device uninit fuel).run [] = .ok (t.timePoint, reads)) ↔
      (Format.ofStatusB statB).hours24 = true ∨ 1 ≤ t.hours ∧ t.hours ≤ 11 := by
  obtain ⟨reads, run⟩ := presents.readTimepoint_run enough uninit
  rw [← decodeHour_iff (Format.ofStatusB statB).binary _ t.hours t.hours_lt, run, decode_registers]
  constructor
  · rintro ⟨reads', same⟩
    exact congrArg RTCTimePoint.hours (Prod.mk.inj (Except.ok.inj same)).1
  · intro right
    refine ⟨reads, ?_⟩
    rw [show decodeHour (.ofStatusB statB) _ = _ from right]
    rfl

/-- Half past `h` on the last day of a century. -/
def newYearsEve (h : Nat) (valid : h < 24) : Clock where
  seconds := 0
  minutes := 30
  hours := h
  dayOfMonth := 31
  month := 12
  year := 99
  seconds_lt := by decide
  minutes_lt := by decide
  hours_lt := valid
  day_le := by decide
  month_le := by decide
  year_lt := by decide

/-- The registers of the device, with `busy` polls during an update. -/
def holding (busy : Nat) (statB : UInt8) (t : Clock) : Device := fun n offset =>
  let r := (Format.ofStatusB statB).registers t
  if offset = statusA then if n < busy then 0x80 else 0
  else if offset = statusB then statB
  else if offset = secs then r.seconds
  else if offset = mins then r.minutes
  else if offset = hrs then r.hours
  else if offset = day then r.dayOfMonth
  else if offset = mnth then r.month
  else r.year

theorem holding_presents (busy : Nat) (statB : UInt8) (t : Clock) :
    Presents (holding busy statB t) busy statB t where
  updating n early := by
    change ¬ (if n < busy then (0x80 : UInt8) else 0) &&& 0x80 = 0
    rw [if_pos early]
    decide
  quiet n late := by
    change (if n < busy then (0x80 : UInt8) else 0) &&& 0x80 = 0
    rw [if_neg (Nat.not_lt.mpr late)]
    decide
  format _ := rfl
  pass _ := rfl

/-- Nine in the morning, in 12-hour BCD, after three polls. -/
theorem read_timepoint_decodes_iff_morning :
    ∃ reads, (readTimepoint (holding 3 0 (newYearsEve 9 (by decide))) 0 4).run [] =
      .ok ((newYearsEve 9 (by decide)).timePoint, reads) :=
  (read_timepoint_decodes_iff _ 3 4 0 0 _ (holding_presents 3 0 _) (by decide)).mpr
    (.inr (by decide))

/-- One in the afternoon, in 12-hour BCD, is read as hour 209. -/
theorem read_timepoint_afternoon :
    Presents (holding 0 0 (newYearsEve 13 (by decide))) 0 0 (newYearsEve 13 (by decide)) ∧
      ∃ tp reads, (readTimepoint (holding 0 0 (newYearsEve 13 (by decide))) 0 1).run [] =
          .ok (tp, reads) ∧ tp ≠ (newYearsEve 13 (by decide)).timePoint :=
  ⟨holding_presents 0 0 _, _, _, rfl, by decide⟩

end Infos.Drivers.CmosRtc
