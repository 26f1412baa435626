import Infos.Arch.Irq
import Infos.Lib.BitFields

/-!
# The local APIC and the IO-APIC

Their registers, as the two drivers and the LAPIC timer write them, and the vectors that the
devices raise.
-/
namespace Infos.Drivers
open Infos.Arch Infos.Lib.BitFields Infos.Lib.Slots Function

/-! ### The local APIC -/

namespace LapicRegisters

def tpr : Nat := 0x0080

def eoi : Nat := 0x00b0

def svr : Nat := 0x00f0

def esr : Nat := 0x0280

def icrlo : Nat := 0x0300

def icrhi : Nat := 0x0310

def timer : Nat := 0x0320

def pcint : Nat := 0x0340

def lint0 : Nat := 0x0350

def lint1 : Nat := 0x0360

def error : Nat := 0x0370

def ticr : Nat := 0x0380

def tdcr : Nat := 0x03e0

end LapicRegisters

/-- What each register was last written. -/
abbrev Lapic := Nat → BitVec 32

namespace Lapic
open LapicRegisters

def masked : BitVec 32 := 0x00010000

def initIpi : BitVec 32 := 0x00000500

def level : BitVec 32 := 0x00008000

def bcast : BitVec 32 := 0x00080000

def periodic : BitVec 32 := 0x00020000

def write (reg : Nat) (value : BitVec 32) (l : Lapic) : Lapic := update l reg value

def setFlag (reg : Nat) (value : BitVec 32) (l : Lapic) : Lapic := l.write reg (l reg ||| value)

def clearFlag (reg : Nat) (value : BitVec 32) (l : Lapic) : Lapic :=
  l.write reg (l reg &&& ~~~value)

def setTimerIrq (irq : BitVec 8) (l : Lapic) : Lapic :=
  l.write timer ((l timer &&& ~~~0xff) ||| irq.setWidth 32)

/-- `LAPIC::init` up to the timer's IRQ. The device reports its version, and its deliveries are
over at some time. -/
def reset (version : BitVec 32) (l : Lapic) : Lapic :=
  let l := l.write svr 0x1ff
  let l := l.write timer masked
  let l := l.write lint0 masked
  let l := l.write lint1 masked
  let l := l.write error masked
  let l := if 4 ≤ ((version >>> 16) &&& 0xff) then l.write pcint masked else l
  let l := l.write esr 0
  let l := l.write esr 0
  let l := l.write eoi 0
  let l := l.write icrhi 0
  let l := l.write icrlo (bcast ||| initIpi ||| level)
  l.write tpr 0

/-- `LAPICIRQ::enable` for the timer. -/
def unmaskTimer (l : Lapic) : Lapic := l.clearFlag timer masked

def maskTimer (l : Lapic) : Lapic := l.setFlag timer masked

def setTimerDivide (v : BitVec 8) (l : Lapic) : Lapic := l.write tdcr (v.setWidth 32)

def setTimerInitialCount (v : BitVec 32) (l : Lapic) : Lapic := l.write ticr v

def setTimerOneShot (l : Lapic) : Lapic := l.clearFlag timer periodic

def setTimerPeriodic (l : Lapic) : Lapic := l.setFlag timer periodic

end Lapic

namespace LapicTimer

/-- The calls on a `LAPICTimer`, and those that its `init` makes on the LAPIC. -/
inductive Op where
  | setDivide (v : BitVec 8)
  | setInitialCount (v : BitVec 32)
  | start
  | stop
  | reset
  | initOneshot (period : BitVec 64)
  | initPeriodic (period : BitVec 64)

def reset (l : Lapic) : Lapic := l.maskTimer.setTimerInitialCount 0

/-- The period loses its upper half. -/
def initOneshot (period : BitVec 64) (l : Lapic) : Lapic :=
  (reset l).setTimerOneShot.setTimerInitialCount (period.setWidth 32)

def initPeriodic (period : BitVec 64) (l : Lapic) : Lapic :=
  (reset l).setTimerPeriodic.setTimerInitialCount (period.setWidth 32)

def Op.run (l : Lapic) : Op → Lapic
  | .setDivide v => l.setTimerDivide v
  | .setInitialCount v => l.setTimerInitialCount v
  | .start => l.unmaskTimer
  | .stop => l.maskTimer
  | .reset => LapicTimer.reset l
  | .initOneshot period => LapicTimer.initOneshot period l
  | .initPeriodic period => LapicTimer.initPeriodic period l

end LapicTimer

/-- A vector that the local APIC takes; the first sixteen are not legal. -/
def legalVector (vector : Nat) : Option Nat := if vector < 16 then none else some vector

/-- The vector that the timer raises, unless it is masked. -/
def Lapic.timerVector (l : Lapic) : Option Nat :=
  if (l LapicRegisters.timer).getLsbD 16 then none
  else legalVector ((l LapicRegisters.timer).setWidth 8).toNat

/-! ### The timer's register -/

/-- The vector of the timer's entry, whether it is masked and whether it repeats. -/
structure Lapic.TimerEntry (l : Lapic) (vector : BitVec 8) (masked periodic : Bool) : Prop where
  vector : (l LapicRegisters.timer).setWidth 8 = vector
  masked : (l LapicRegisters.timer).getLsbD 16 = masked
  periodic : (l LapicRegisters.timer).getLsbD 17 = periodic

namespace Lapic.TimerEntry

variable {l : Lapic} {vector : BitVec 8} {masked periodic : Bool}

theorem of_same {l' : Lapic} (entry : l.TimerEntry vector masked periodic)
    (same : l' LapicRegisters.timer = l LapicRegisters.timer) :
    l'.TimerEntry vector masked periodic :=
  ⟨same ▸ entry.vector, same ▸ entry.masked, same ▸ entry.periodic⟩

/-- A write to another register. -/
theorem write (entry : l.TimerEntry vector masked periodic) {reg : Nat} {value : BitVec 32}
    (apart : reg ≠ LapicRegisters.timer) : (l.write reg value).TimerEntry vector masked periodic :=
  entry.of_same (update_of_ne (Ne.symm apart) ..)

theorem setFlag (flag : BitVec 32) (entry : l.TimerEntry vector masked periodic)
    (high : flag.setWidth 8 = 0#8) :
    (l.setFlag LapicRegisters.timer flag).TimerEntry vector (masked || flag.getLsbD 16)
      (periodic || flag.getLsbD 17) := by
  have set : l.setFlag LapicRegisters.timer flag LapicRegisters.timer =
      l LapicRegisters.timer ||| flag := update_self LapicRegisters.timer _ l
  refine ⟨?_, ?_, ?_⟩
  · rw [set, BitVec.setWidth_or, high, BitVec.or_zero, entry.vector]
  · rw [set, BitVec.getLsbD_or, entry.masked]
  · rw [set, BitVec.getLsbD_or, entry.periodic]

theorem clearFlag (flag : BitVec 32) (entry : l.TimerEntry vector masked periodic)
    (high : flag.setWidth 8 = 0#8) :
    (l.clearFlag LapicRegisters.timer flag).TimerEntry vector (masked && !flag.getLsbD 16)
      (periodic && !flag.getLsbD 17) := by
  have set : l.clearFlag LapicRegisters.timer flag LapicRegisters.timer =
      l LapicRegisters.timer &&& ~~~flag := update_self LapicRegisters.timer _ l
  refine ⟨?_, ?_, ?_⟩
  · rw [set, BitVec.setWidth_and, BitVec.setWidth_not (by decide), high, entry.vector]
    exact BitVec.and_allOnes
  · rw [set, BitVec.getLsbD_and, BitVec.getLsbD_not, entry.masked]
    rfl
  · rw [set, BitVec.getLsbD_and, BitVec.getLsbD_not, entry.periodic]
    rfl

theorem unmaskTimer (entry : l.TimerEntry vector masked periodic) :
    l.unmaskTimer.TimerEntry vector false periodic := by
  have cleared := entry.clearFlag Lapic.masked (by decide)
  rwa [show Lapic.masked.getLsbD 16 = true by decide, show Lapic.masked.getLsbD 17 = false by decide,
    Bool.not_true, Bool.and_false, Bool.not_false, Bool.and_true] at cleared

theorem maskTimer (entry : l.TimerEntry vector masked periodic) :
    l.maskTimer.TimerEntry vector true periodic := by
  have set := entry.setFlag Lapic.masked (by decide)
  rwa [show Lapic.masked.getLsbD 16 = true by decide, show Lapic.masked.getLsbD 17 = false by decide,
    Bool.or_true, Bool.or_false] at set

theorem setTimerOneShot (entry : l.TimerEntry vector masked periodic) :
    l.setTimerOneShot.TimerEntry vector masked false := by
  have cleared := entry.clearFlag Lapic.periodic (by decide)
  rwa [show Lapic.periodic.getLsbD 16 = false by decide,
    show Lapic.periodic.getLsbD 17 = true by decide, Bool.not_true, Bool.and_false, Bool.not_false,
    Bool.and_true] at cleared

theorem setTimerPeriodic (entry : l.TimerEntry vector masked periodic) :
    l.setTimerPeriodic.TimerEntry vector masked true := by
  have set := entry.setFlag Lapic.periodic (by decide)
  rwa [show Lapic.periodic.getLsbD 16 = false by decide,
    show Lapic.periodic.getLsbD 17 = true by decide, Bool.or_true, Bool.or_false] at set

theorem reset (entry : l.TimerEntry vector masked periodic) :
    (LapicTimer.reset l).TimerEntry vector true periodic :=
  entry.maskTimer.write (by decide)

theorem initOneshot (entry : l.TimerEntry vector masked periodic) (period : BitVec 64) :
    (LapicTimer.initOneshot period l).TimerEntry vector true false :=
  entry.reset.setTimerOneShot.write (by decide)

theorem initPeriodic (entry : l.TimerEntry vector masked periodic) (period : BitVec 64) :
    (LapicTimer.initPeriodic period l).TimerEntry vector true true :=
  entry.reset.setTimerPeriodic.write (by decide)

/-- The timer after `LAPIC::init`. -/
theorem init (version : BitVec 32) (irq : BitVec 8) (l : Lapic) :
    ((l.reset version).setTimerIrq irq).TimerEntry irq true false := by
  have reset : (l.reset version) LapicRegisters.timer = Lapic.masked := by
    rw [Lapic.reset]
    split
    all_goals rfl
  have set : (l.reset version).setTimerIrq irq LapicRegisters.timer =
      (Lapic.masked &&& ~~~0xff) ||| irq.setWidth 32 := by
    rw [← reset]
    exact update_self LapicRegisters.timer _ (l.reset version)
  refine ⟨?_, ?_, ?_⟩
  · rw [set, BitVec.setWidth_or, BitVec.setWidth_setWidth_of_le _ (by decide), BitVec.setWidth_eq,
      show (Lapic.masked &&& ~~~0xff).setWidth 8 = 0#8 by decide, BitVec.zero_or]
  · rw [set, BitVec.getLsbD_or, BitVec.getLsbD_setWidth]
    simp [Lapic.masked]
  · rw [set, BitVec.getLsbD_or, BitVec.getLsbD_setWidth]
    simp [Lapic.masked]

/-- The timer raises its vector unless it is masked. -/
theorem timerVector (entry : l.TimerEntry vector masked periodic) :
    l.timerVector = if masked then none else legalVector vector.toNat := by
  rw [Lapic.timerVector, entry.masked, entry.vector]

end Lapic.TimerEntry

/-! ### The IO-APIC -/

structure Ioapic where
  regs : Nat → Nat
  nrIrqs : Nat

namespace Ioapic

def write (reg val : Nat) (a : Ioapic) : Ioapic :=
  { a with regs := update a.regs reg (val % 2 ^ 32) }

/-- `RedirectionEntry`, its first quarter; the rest is cleared. -/
structure RedirectionEntry where
  vector : Nat
  deliveryMode : Nat
  destinationMode : Nat
  deliveryStatus : Nat
  pinPolarity : Nat
  remoteIrr : Nat
  triggerMode : Nat
  mask : Nat
  destination : Nat

namespace RedirectionEntry

def blank : RedirectionEntry := ⟨0, 0, 0, 0, 0, 0, 0, 0, 0⟩

def low (e : RedirectionEntry) : Nat :=
  pack
    [(8, e.vector), (3, e.deliveryMode), (1, e.destinationMode), (1, e.deliveryStatus),
      (1, e.pinPolarity), (1, e.remoteIrr), (1, e.triggerMode), (1, e.mask),
      -- the rest of the mask's byte, and half a word behind the destination
      (7, 0), (8, e.destination), (32, 0)]

def high (_ : RedirectionEntry) : Nat := 0

end RedirectionEntry

def configurationRegister (irqIndex : Nat) : Nat := (0x10 + irqIndex * 2) % 2 ^ 8

def storeRedirEntry (a : Ioapic) (irqIndex : Nat) (e : RedirectionEntry) : Ioapic :=
  (a.write (configurationRegister irqIndex) e.low).write (configurationRegister irqIndex + 1) e.high

/-- `version` is what the device has in `IOAPIC_VER`. -/
def init (version : Nat) (a : Ioapic) : Ioapic :=
  let a := { a with nrIrqs := version / 2 ^ 16 % 2 ^ 8 }
  (List.range a.nrIrqs).foldl (fun a i => a.storeRedirEntry i .blank) a

/-- `request_physical_irq`; `lapic` tells whether there is one. -/
def requestPhysicalIrq {H : Type} (lapic : Bool) (physIrqNr : Nat) (m : IrqManager H) (a : Ioapic) :
    Option Nat × IrqManager H × Ioapic :=
  if !lapic then (none, m, a)
  else if a.nrIrqs ≤ physIrqNr then (none, m, a)
  else
    let (irq, m) := m.new .ioapic
    match m.attachIrq irq with
    | (false, m) => (none, m, a)
    | (true, m) =>
        let re := { RedirectionEntry.blank with vector := (m.objects irq).nr }
        (some irq, m, a.storeRedirEntry physIrqNr re)

/-- The vector that a pin raises: its entry is open, in fixed mode, for the first processor. -/
def pinVector (a : Ioapic) (pin : Nat) : Option Nat :=
  let low := a.regs (0x10 + 2 * pin)
  let high := a.regs (0x10 + 2 * pin + 1)
  if slice low 16 1 = 1 ∨ slice low 8 3 ≠ 0 ∨ slice low 11 1 ≠ 0 ∨ slice high 24 8 ≠ 0 then none
  else legalVector (slice low 0 8)

/-! ### Entries -/

/-- The registers of a pin hold an open entry with a vector. -/
structure Entry (a : Ioapic) (pin vector : Nat) : Prop where
  low : a.regs (0x10 + 2 * pin) = pack [(8, vector), (3, 0), (1, 0), (1, 0), (1, 0), (1, 0), (1, 0),
    (1, 0), (7, 0), (8, 0)]
  high : a.regs (0x10 + 2 * pin + 1) = 0

section Entries
variable {a : Ioapic} {pin vector : Nat}

theorem low_mod (e : RedirectionEntry) :
    e.low % 2 ^ 32 =
      pack [(8, e.vector), (3, e.deliveryMode), (1, e.destinationMode), (1, e.deliveryStatus),
        (1, e.pinPolarity), (1, e.remoteIrr), (1, e.triggerMode), (1, e.mask), (7, 0),
        (8, e.destination)] := by
  have split := pack_append [(8, e.vector), (3, e.deliveryMode), (1, e.destinationMode),
    (1, e.deliveryStatus), (1, e.pinPolarity), (1, e.remoteIrr), (1, e.triggerMode), (1, e.mask),
    (7, 0), (8, e.destination)] [(32, 0)]
  have bound := pack_lt [(8, e.vector), (3, e.deliveryMode), (1, e.destinationMode),
    (1, e.deliveryStatus), (1, e.pinPolarity), (1, e.remoteIrr), (1, e.triggerMode), (1, e.mask),
    (7, 0), (8, e.destination)]
  refine (congrArg (· % 2 ^ 32) split).trans ?_
  exact (Nat.add_mul_mod_self_left ..).trans (Nat.mod_eq_of_lt bound)

/-- A stored entry is there, and the other pins keep theirs. -/
theorem storeRedirEntry_entry (small : pin < 120) :
    (a.storeRedirEntry pin { RedirectionEntry.blank with vector := vector }).Entry pin vector := by
  have place : configurationRegister pin = 0x10 + 2 * pin := by
    rw [configurationRegister]
    omega
  refine ⟨?_, ?_⟩
  · rw [storeRedirEntry, place]
    exact (update_of_ne (by omega) ..).trans ((update_self ..).trans (low_mod _))
  · rw [storeRedirEntry, place]
    exact update_self ..

theorem storeRedirEntry_other {other v : Nat} {e : RedirectionEntry} (small : pin < 120)
    (apart : other ≠ pin) (entry : a.Entry other v) : (a.storeRedirEntry pin e).Entry other v := by
  have place : configurationRegister pin = 0x10 + 2 * pin := by
    rw [configurationRegister]
    omega
  refine ⟨?_, ?_⟩
  · rw [storeRedirEntry, place, ← entry.low]
    exact (update_of_ne (by omega) ..).trans (update_of_ne (by omega) ..)
  · rw [storeRedirEntry, place, ← entry.high]
    exact (update_of_ne (by omega) ..).trans (update_of_ne (by omega) ..)

/-- A pin raises the vector of its entry. -/
theorem Entry.pinVector (entry : a.Entry pin vector) (small : vector < 2 ^ 8) :
    a.pinVector pin = legalVector vector := by
  have mask : slice (a.regs (0x10 + 2 * pin)) 16 1 = 0 :=
    slice_at entry.low [(8, vector), (3, 0), (1, 0), (1, 0), (1, 0), (1, 0), (1, 0)] _ 1 0 rfl rfl
  have mode : slice (a.regs (0x10 + 2 * pin)) 8 3 = 0 :=
    slice_at entry.low [(8, vector)] _ 3 0 rfl rfl
  have logical : slice (a.regs (0x10 + 2 * pin)) 11 1 = 0 :=
    slice_at entry.low [(8, vector), (3, 0)] _ 1 0 rfl rfl
  have number : slice (a.regs (0x10 + 2 * pin)) 0 8 = vector % 2 ^ 8 :=
    slice_at entry.low [] _ 8 vector rfl rfl
  rw [Ioapic.pinVector, if_neg (by rw [mask, mode, logical, entry.high]; decide), number,
    Nat.mod_eq_of_lt small]

@[simp] theorem storeRedirEntry_nrIrqs (e : RedirectionEntry) :
    (a.storeRedirEntry pin e).nrIrqs = a.nrIrqs := rfl

theorem foldl_nrIrqs (pins : List Nat) (a : Ioapic) :
    (pins.foldl (fun a i => a.storeRedirEntry i .blank) a).nrIrqs = a.nrIrqs := by
  induction pins generalizing a with
  | nil => rfl
  | cons pin pins ih => exact ih _

theorem init_nrIrqs (version : Nat) (a : Ioapic) :
    (a.init version).nrIrqs = version / 2 ^ 16 % 2 ^ 8 :=
  foldl_nrIrqs ..

theorem blank_rounds (a : Ioapic) (n : Nat) (few : n ≤ 120) :
    ∀ pin < n, ((List.range n).foldl (fun a i => a.storeRedirEntry i .blank) a).Entry pin 0 := by
  induction n with
  | zero => exact fun _ below => (nomatch below)
  | succ n ih =>
      have entries := ih (by omega)
      rw [List.range_succ, List.foldl_append]
      intro pin below
      by_cases last : pin = n
      · rw [last]
        exact storeRedirEntry_entry (by omega)
      · exact storeRedirEntry_other (by omega) last (entries pin (by omega))

/-- `init` leaves open entries with vector 0. -/
theorem init_entry (version : Nat) (few : (a.init version).nrIrqs ≤ 120)
    (inside : pin < (a.init version).nrIrqs) : (a.init version).Entry pin 0 := by
  rw [init_nrIrqs] at few inside
  exact blank_rounds _ _ few pin inside

end Entries

/-- What a request can do. -/
theorem requestPhysicalIrq_cases {H : Type} (lapic : Bool) (pin : Nat) (m : IrqManager H)
    (a : Ioapic) :
    ((requestPhysicalIrq lapic pin m a).1 = none ∧
        ((requestPhysicalIrq lapic pin m a).2.1 = m ∨
          (requestPhysicalIrq lapic pin m a).2.1 = (m.new .ioapic).2) ∧
        (requestPhysicalIrq lapic pin m a).2.2 = a ∧
        (lapic = false ∨ a.nrIrqs ≤ pin ∨
          free IrqManager.deviceVectors m.descriptors = 0)) ∨
      ∃ nr ∈ IrqManager.deviceVectors, m.descriptors nr = none ∧ lapic = true ∧ pin < a.nrIrqs ∧
        requestPhysicalIrq lapic pin m a =
          (some m.next, m.adopt .ioapic nr,
            a.storeRedirEntry pin { RedirectionEntry.blank with vector := nr }) := by
  cases lapic with
  | false => exact .inl ⟨rfl, .inl rfl, rfl, .inl rfl⟩
  | true =>
      by_cases outside : a.nrIrqs ≤ pin
      · have refused : requestPhysicalIrq true pin m a = (none, m, a) := by
          rw [requestPhysicalIrq, Bool.not_true, if_neg Bool.false_ne_true, if_pos outside]
        rw [refused]
        exact .inl ⟨rfl, .inl rfl, rfl, .inr (.inl outside)⟩
      · have asked : requestPhysicalIrq true pin m a =
            match (m.new .ioapic).2.attachIrq m.next with
            | (false, m) => (none, m, a)
            | (true, m') => (some m.next, m', a.storeRedirEntry pin
                { RedirectionEntry.blank with vector := (m'.objects m.next).nr }) := by
          rw [requestPhysicalIrq, Bool.not_true, if_neg Bool.false_ne_true, if_neg outside]
          rfl
        obtain ⟨full, failed⟩ | ⟨nr, device, vacant, attached⟩ :=
          IrqManager.attachIrq_new IrqClass.ioapic m
        · rw [asked, failed]
          exact .inl ⟨rfl, .inr rfl, rfl, .inr (.inr full)⟩
        · rw [asked, attached]
          refine .inr ⟨nr, device, vacant, rfl, Nat.lt_of_not_le outside, ?_⟩
          dsimp only
          rw [IrqManager.adopt_objects_self]

end Ioapic
end Infos.Drivers
