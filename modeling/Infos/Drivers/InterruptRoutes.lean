import Infos.Drivers.Apic

/-!
# Interrupt routes

The interrupt system of a running kernel: which object a pin or the timer ends up in, over every
order of requests, handlers and timer calls.
-/
namespace Infos.Drivers
open Infos.Arch Infos.Lib.BitFields Infos.Lib.Slots Function

structure Interrupts (H : Type) where
  manager : IrqManager H
  lapic : Lapic
  timerIrq : Nat
  ioapic : Ioapic

namespace Interrupts

variable {H : Type}

/-- The end of `LAPIC::init`: the timer gets an IRQ. -/
def initTimerIrq (lapic : Lapic) (ioapic : Ioapic) (m : IrqManager H) : Option (Interrupts H) :=
  let (irq, m) := m.new .lapic
  match m.attachIrq irq with
  | (false, _) => none
  | (true, m) =>
      some
        { manager := m
          lapic := lapic.setTimerIrq (BitVec.ofNat 8 (m.objects irq).nr)
          timerIrq := irq
          ioapic := ioapic }

/-- What the kernel starts from. -/
structure Hardware (H : Type) where
  objects : Nat → Irq H
  lapic : Lapic
  lapicVersion : BitVec 32
  ioapic : Ioapic
  ioapicVersion : Nat
  /-- General protection, trap, kernel system call and user system call. -/
  handlers : H × H × H × H

/-- `init_irq`, then the two devices of `timer_init`. -/
def boot (hw : Hardware H) : Option (Interrupts H) :=
  let (gpf, trap, kernelSyscall, userSyscall) := hw.handlers
  let m := (IrqManager.start hw.objects).initIrq gpf trap kernelSyscall userSyscall
  initTimerIrq (hw.lapic.reset hw.lapicVersion) (hw.ioapic.init hw.ioapicVersion) m

inductive Op (H : Type) where
  | install (cls : IrqClass) (nr : Nat) (handler : H)
  | request (lapic : Bool) (pin : Nat)
  | attach (irq : Nat) (handler : H)
  | timer (op : LapicTimer.Op)

/-- The result of a request is the object that it gives. -/
def step (s : Interrupts H) : Op H → Option Nat × Interrupts H
  | .install cls nr handler =>
      (none, { s with manager := (s.manager.installHandler cls nr handler).2 })
  | .request lapic pin =>
      let (irq, m, a) := Ioapic.requestPhysicalIrq lapic pin s.manager s.ioapic
      (irq, { s with manager := m, ioapic := a })
  | .attach irq handler => (none, { s with manager := s.manager.attach irq handler })
  | .timer op => (none, { s with lapic := op.run s.lapic })

/-- What was done, the newest first. -/
abbrev History (H : Type) := List (Op H × Option Nat)

inductive Runs (s : Interrupts H) : History H → Interrupts H → Prop
  | refl : Runs s [] s
  | step {past : History H} {s' : Interrupts H} {op : Op H} : Runs s past s' →
      Runs s ((op, (s'.step op).1) :: past) (s'.step op).2

/-! ### What the history says -/

/-- The object of the last successful request for a pin. -/
def owner (pin : Nat) : History H → Option Nat
  | [] => none
  | (.request _ p, some irq) :: past => if p = pin then some irq else owner pin past
  | _ :: past => owner pin past

/-- The handler last given to an object, or to its vector, since it is there. -/
def handlerOf (irq nr : Nat) : History H → Option H
  | [] => none
  | (.request _ _, some irq') :: past => if irq' = irq then none else handlerOf irq nr past
  | (.attach irq' handler, _) :: past => if irq' = irq then some handler else handlerOf irq nr past
  | (.install _ nr' handler, _) :: past => if nr' = nr then some handler else handlerOf irq nr past
  | _ :: past => handlerOf irq nr past

/-- Whether the last timer call that starts or stops it started it. -/
def running : History H → Bool
  | [] => false
  | (.timer .start, _) :: _ => true
  | (.timer .stop, _) :: _ | (.timer .reset, _) :: _ => false
  | (.timer (.initOneshot _), _) :: _ | (.timer (.initPeriodic _), _) :: _ => false
  | _ :: past => running past

/-- Whether the timer was last set up to repeat. -/
def repeats : History H → Bool
  | [] => false
  | (.timer (.initPeriodic _), _) :: _ => true
  | (.timer (.initOneshot _), _) :: _ => false
  | _ :: past => repeats past

/-! ### What the devices raise -/

def pinRaised (s : Interrupts H) (pin : Nat) : List (Action H) :=
  match s.ioapic.pinVector pin with
  | some nr => s.manager.handleRawIrq nr
  | none => []

def timerRaised (s : Interrupts H) : List (Action H) :=
  match s.lapic.timerVector with
  | some nr => s.manager.handleRawIrq nr
  | none => []

/-! ### The invariant -/

/-- The requests that got an object. -/
def granted (past : History H) : Nat := past.countP (·.2.isSome)

/-- The pins and the timer have vectors of their own, and each object has the handler that the
history says. -/
structure Routed (s₀ s : Interrupts H) (past : History H) : Prop where
  timerIrq : s.timerIrq = s₀.timerIrq
  nrIrqs : s.ioapic.nrIrqs = s₀.ioapic.nrIrqs
  numbered : s.manager.Numbered
  timer : s.manager.descriptors 0x20 = some s.timerIrq ∧
    (s.manager.objects s.timerIrq).cls = .lapic
  timerEntry : s.lapic.TimerEntry 0x20 (!running past) (repeats past)
  handlers : ∀ nr irq, s.manager.descriptors nr = some irq → s.timerIrq ≤ irq →
    (s.manager.objects irq).handler = handlerOf irq nr past
  pins : ∀ pin irq, owner pin past = some irq → pin < s.ioapic.nrIrqs ∧ s.timerIrq < irq ∧
    (s.manager.objects irq).cls = .ioapic ∧
    ∃ nr ∈ IrqManager.deviceVectors, s.manager.descriptors nr = some irq ∧ s.ioapic.Entry pin nr
  blank : ∀ pin < s.ioapic.nrIrqs, owner pin past = none → s.ioapic.Entry pin 0
  apart : ∀ pin pin' irq, owner pin past = some irq → owner pin' past = some irq → pin = pin'

section Steps
variable {s₀ s : Interrupts H} {past : History H}

namespace Routed

theorem owner_below (routed : Routed s₀ s past) {pin irq : Nat} (owned : owner pin past = some irq) :
    irq < s.manager.next := by
  obtain ⟨_, _, _, nr, _, found, _⟩ := routed.pins pin irq owned
  exact (routed.numbered nr irq found).1

theorem timer_step (routed : Routed s₀ s past) (op : LapicTimer.Op) :
    Routed s₀ { s with lapic := op.run s.lapic } ((.timer op, none) :: past) where
  timerIrq := routed.timerIrq
  nrIrqs := routed.nrIrqs
  numbered := routed.numbered
  timer := routed.timer
  timerEntry := by
    cases op with
    | setDivide v => exact routed.timerEntry.write (by decide)
    | setInitialCount v => exact routed.timerEntry.write (by decide)
    | start => exact routed.timerEntry.unmaskTimer
    | stop => exact routed.timerEntry.maskTimer
    | reset => exact routed.timerEntry.reset
    | initOneshot period => exact routed.timerEntry.initOneshot period
    | initPeriodic period => exact routed.timerEntry.initPeriodic period
  handlers := routed.handlers
  pins := routed.pins
  blank := routed.blank
  apart := routed.apart

theorem handler_step (routed : Routed s₀ s past) {irq : Nat} {handler : H} {op : Op H}
    (running_eq : running ((op, none) :: past) = running past)
    (repeats_eq : repeats ((op, none) :: past) = repeats past)
    (owner_eq : ∀ pin, owner pin ((op, none) :: past) = owner pin past)
    (handlers : ∀ nr other, s.manager.descriptors nr = some other →
      handlerOf other nr ((op, none) :: past) =
        if other = irq then some handler else handlerOf other nr past) :
    Routed s₀ { s with manager := s.manager.attach irq handler } ((op, none) :: past) where
  timerIrq := routed.timerIrq
  nrIrqs := routed.nrIrqs
  numbered := routed.numbered.attach irq handler
  timer := ⟨routed.timer.1, (IrqManager.attach_cls _).1.trans routed.timer.2⟩
  timerEntry := by
    rw [running_eq, repeats_eq]
    exact routed.timerEntry
  handlers nr other found later := by
    rw [handlers nr other found]
    split
    next same =>
      subst same
      exact congrArg Irq.handler IrqManager.attach_objects_self
    next apart =>
      refine (congrArg Irq.handler (IrqManager.attach_objects_of_ne apart)).trans ?_
      exact routed.handlers nr other found later
  pins pin other owned := by
    rw [owner_eq] at owned
    obtain ⟨inside, after, cls, place⟩ := routed.pins pin other owned
    exact ⟨inside, after, (IrqManager.attach_cls _).1.trans cls, place⟩
  blank pin inside unowned := routed.blank pin inside ((owner_eq pin).symm.trans unowned)
  apart pin pin' other owned owned' :=
    routed.apart pin pin' other ((owner_eq pin).symm.trans owned) ((owner_eq pin').symm.trans owned')

theorem install_new (routed : Routed s₀ s past) {cls : IrqClass} {nr : Nat} {handler : H}
    (inside : nr < IrqManager.maxIrqs) (vacant : s.manager.descriptors nr = none) :
    Routed s₀
      { s with manager := (s.manager.adopt cls nr).attach s.manager.next handler }
      ((.install cls nr handler, none) :: past) := by
  have kept : ∀ nr' irq, s.manager.descriptors nr' = some irq →
      ((s.manager.adopt cls nr).attach s.manager.next handler).descriptors nr' = some irq ∧
        ((s.manager.adopt cls nr).attach s.manager.next handler).objects irq =
          s.manager.objects irq := by
    intro nr' irq found
    obtain ⟨there, same⟩ := IrqManager.adopt_kept routed.numbered _ vacant found
    have old : irq ≠ s.manager.next := Nat.ne_of_lt (routed.numbered nr' irq found).1
    exact ⟨there, (IrqManager.attach_objects_of_ne old).trans same⟩
  refine
    { timerIrq := routed.timerIrq
      nrIrqs := routed.nrIrqs
      numbered := (routed.numbered.adopt cls inside).attach _ _
      timer := ?_
      timerEntry := routed.timerEntry
      handlers := fun nr' irq found later => ?_
      pins := fun pin irq owned => ?_
      blank := routed.blank
      apart := routed.apart }
  · obtain ⟨there, same⟩ := kept _ _ routed.timer.1
    exact ⟨there, (congrArg Irq.cls same).trans routed.timer.2⟩
  · rw [IrqManager.attach_descriptors, IrqManager.adopt_descriptors, update_apply] at found
    split at found
    next here =>
      cases found
      rw [handlerOf, if_pos here.symm]
      exact congrArg Irq.handler IrqManager.attach_objects_self
    next there =>
      rw [handlerOf, if_neg (Ne.symm there), ← routed.handlers nr' irq found later]
      exact congrArg Irq.handler (kept nr' irq found).2
  · obtain ⟨below, after, isIoapic, nr', device, found, entry⟩ := routed.pins pin irq owned
    obtain ⟨there, same⟩ := kept nr' irq found
    exact ⟨below, after, (congrArg Irq.cls same).trans isIoapic, nr', device, there, entry⟩

theorem install_step (routed : Routed s₀ s past) (cls : IrqClass) (nr : Nat) (handler : H) :
    Routed s₀ { s with manager := (s.manager.installHandler cls nr handler).2 }
      ((.install cls nr handler, none) :: past) := by
  obtain ⟨outside, same⟩ | ⟨irq, found, same⟩ | ⟨inside, vacant, same⟩ :=
    IrqManager.installHandler_cases cls nr handler s.manager
  all_goals rw [same]
  · -- the number is no vector, and nothing happens
    refine { routed with handlers := fun nr' irq found later => ?_ }
    have apart : nr ≠ nr' := by
      rintro rfl
      exact Nat.not_lt_of_le outside (routed.numbered nr irq found).2.2
    rw [handlerOf, if_neg apart]
    exact routed.handlers nr' irq found later
  · refine routed.handler_step rfl rfl (fun pin => rfl) fun nr' other found' => ?_
    rw [handlerOf]
    by_cases here : nr = nr'
    · subst here
      cases found.symm.trans found'
      rw [if_pos rfl, if_pos rfl]
    · have apart : other ≠ irq := by
        rintro rfl
        exact here (routed.numbered.unique found found')
      rw [if_neg here, if_neg apart]
  · exact routed.install_new inside vacant

theorem attach_step (routed : Routed s₀ s past) (irq : Nat) (handler : H) :
    Routed s₀ { s with manager := s.manager.attach irq handler }
      ((.attach irq handler, none) :: past) := by
  refine routed.handler_step rfl rfl (fun pin => rfl) fun nr other _ => ?_
  rw [handlerOf]
  by_cases same : irq = other
  · rw [if_pos same, if_pos same.symm]
  · rw [if_neg same, if_neg (Ne.symm same)]

theorem refused_step (routed : Routed s₀ s past) (lapic : Bool) (pin : Nat) {m : IrqManager H}
    (same : m = s.manager ∨ m = (s.manager.new .ioapic).2) :
    Routed s₀ { s with manager := m } ((.request lapic pin, none) :: past) := by
  have kept : m.Numbered ∧ m.descriptors = s.manager.descriptors ∧
      ∀ irq < s.manager.next, m.objects irq = s.manager.objects irq := by
    obtain rfl | rfl := same
    · exact ⟨routed.numbered, rfl, fun _ _ => rfl⟩
    · exact ⟨routed.numbered.new _, rfl, fun irq below =>
        IrqManager.new_objects_of_ne (Nat.ne_of_lt below)⟩
  obtain ⟨numbered, descriptors, objects⟩ := kept
  refine
    { timerIrq := routed.timerIrq
      nrIrqs := routed.nrIrqs
      numbered := numbered
      timer := ⟨?_, ?_⟩
      timerEntry := routed.timerEntry
      handlers := fun nr irq found later => ?_
      pins := fun pin irq owned => ?_
      blank := routed.blank
      apart := routed.apart }
  · exact (congrFun descriptors _).trans routed.timer.1
  · rw [objects _ (routed.numbered _ _ routed.timer.1).1]
    exact routed.timer.2
  · rw [descriptors] at found
    rw [objects irq (routed.numbered nr irq found).1]
    exact routed.handlers nr irq found later
  · rw [objects irq (routed.owner_below owned), descriptors]
    exact routed.pins pin irq owned

theorem owner_request {lapic : Bool} {pin other irq : Nat} :
    owner other ((.request lapic pin, some irq) :: past) =
      if pin = other then some irq else owner other past := rfl

theorem granted_step (routed : Routed s₀ s past) (few : s₀.ioapic.nrIrqs ≤ 120) {lapic : Bool}
    {pin nr : Nat} (device : nr ∈ IrqManager.deviceVectors)
    (vacant : s.manager.descriptors nr = none) (inside : pin < s.ioapic.nrIrqs) :
    Routed s₀
      { s with
        manager := s.manager.adopt .ioapic nr
        ioapic := s.ioapic.storeRedirEntry pin { Ioapic.RedirectionEntry.blank with vector := nr } }
      ((.request lapic pin, some s.manager.next) :: past) := by
  have small : pin < 120 := Nat.lt_of_lt_of_le (routed.nrIrqs ▸ inside) few
  have kept := fun nr' irq (found : s.manager.descriptors nr' = some irq) =>
    IrqManager.adopt_kept routed.numbered .ioapic vacant found
  have timer_below := (routed.numbered _ _ routed.timer.1).1
  have fresh : ∀ other, owner other past ≠ some s.manager.next := fun other owned =>
    Nat.lt_irrefl _ (routed.owner_below owned)
  refine
    { timerIrq := routed.timerIrq
      nrIrqs := routed.nrIrqs
      numbered := routed.numbered.adopt _ (IrqManager.mem_deviceVectors.mp device).2
      timer := ⟨(kept _ _ routed.timer.1).1, ?_⟩
      timerEntry := routed.timerEntry
      handlers := fun nr' irq found later => ?_
      pins := fun other irq owned => ?_
      blank := fun other below unowned => ?_
      apart := fun other other' irq owned owned' => ?_ }
  · exact (congrArg Irq.cls (kept _ _ routed.timer.1).2).trans routed.timer.2
  · rw [IrqManager.adopt_descriptors, update_apply] at found
    split at found
    next here =>
      cases found
      rw [handlerOf, if_pos rfl]
      exact congrArg Irq.handler IrqManager.adopt_objects_self
    next there =>
      have old : s.manager.next ≠ irq := Nat.ne_of_gt (routed.numbered nr' irq found).1
      rw [handlerOf, if_neg old, ← routed.handlers nr' irq found later]
      exact congrArg Irq.handler (kept nr' irq found).2
  · rw [owner_request] at owned
    split at owned
    next same =>
      cases owned
      subst same
      exact ⟨inside, timer_below, congrArg Irq.cls IrqManager.adopt_objects_self, nr, device,
        update_self .., Ioapic.storeRedirEntry_entry small⟩
    next apart =>
      obtain ⟨below, after, isIoapic, nr', device', found, entry⟩ := routed.pins other irq owned
      exact ⟨below, after, (congrArg Irq.cls (kept nr' irq found).2).trans isIoapic, nr', device',
        (kept nr' irq found).1, Ioapic.storeRedirEntry_other small (Ne.symm apart) entry⟩
  · rw [owner_request] at unowned
    split at unowned
    next => cases unowned
    next apart =>
      exact Ioapic.storeRedirEntry_other small (Ne.symm apart) (routed.blank other below unowned)
  · rw [owner_request] at owned owned'
    split at owned
    next same =>
      cases owned
      split at owned'
      next same' => exact same.symm.trans same'
      next => exact absurd owned' (fresh other')
    next =>
      split at owned'
      next =>
        cases owned'
        exact absurd owned (fresh other)
      next => exact routed.apart other other' irq owned owned'

theorem step (routed : Routed s₀ s past) (few : s₀.ioapic.nrIrqs ≤ 120) (op : Op H) :
    Routed s₀ (s.step op).2 ((op, (s.step op).1) :: past) := by
  cases op with
  | install cls nr handler => exact routed.install_step cls nr handler
  | attach irq handler => exact routed.attach_step irq handler
  | timer op => exact routed.timer_step op
  | request lapic pin =>
      obtain ⟨none, same, unchanged, _⟩ | ⟨nr, device, vacant, _, inside, result⟩ :=
        Ioapic.requestPhysicalIrq_cases lapic pin s.manager s.ioapic
      · have refused := routed.refused_step lapic pin same
        rw [Interrupts.step]
        dsimp only
        rw [none, unchanged]
        exact refused
      · rw [Interrupts.step]
        dsimp only
        rw [result]
        exact routed.granted_step few device vacant inside

theorem run (start : Routed s₀ s₀ []) (few : s₀.ioapic.nrIrqs ≤ 120) (runs : Runs s₀ past s) :
    Routed s₀ s past := by
  induction runs with
  | refl => exact start
  | step runs ih => exact ih.step few _

end Routed
end Steps

/-! ### From the start -/

section Boot
variable {hw : Hardware H} {s₀ s : Interrupts H} {past : History H}

theorem initTimerIrq_first {m : IrqManager H} (lapic : Lapic) (ioapic : Ioapic)
    (vacant : m.descriptors 0x20 = none) :
    initTimerIrq lapic ioapic m =
      some
        { manager := m.adopt .lapic 0x20
          lapic := lapic.setTimerIrq 0x20
          timerIrq := m.next
          ioapic := ioapic } := by
  have asked : initTimerIrq lapic ioapic m =
      match (m.new .lapic).2.attachIrq m.next with
      | (false, _) => none
      | (true, m') => some
          { manager := m'
            lapic := lapic.setTimerIrq (BitVec.ofNat 8 (m'.objects m.next).nr)
            timerIrq := m.next
            ioapic := ioapic } := rfl
  rw [asked, IrqManager.attachIrq_first IrqClass.lapic vacant]
  dsimp only
  rw [IrqManager.adopt_objects_self]
  rfl

theorem boot_spec (booted : boot hw = some s₀) (few : s₀.ioapic.nrIrqs ≤ 120) :
    Routed s₀ s₀ [] ∧ free IrqManager.deviceVectors s₀.manager.descriptors = 221 := by
  obtain ⟨m, ready, numbered, vacant, left⟩ := IrqManager.initIrq_spec hw.objects hw.handlers.1
    hw.handlers.2.1 hw.handlers.2.2.1 hw.handlers.2.2.2
  have started : boot hw = initTimerIrq (hw.lapic.reset hw.lapicVersion)
      (hw.ioapic.init hw.ioapicVersion) m := ready ▸ rfl
  rw [started, initTimerIrq_first _ _ vacant] at booted
  cases booted
  have device : 0x20 ∈ IrqManager.deviceVectors := IrqManager.mem_deviceVectors.mpr (by decide)
  have taken := free_update IrqManager.deviceVectors_nodup device vacant m.next
  refine ⟨?_, ?_⟩
  · refine
      { timerIrq := rfl
        nrIrqs := rfl
        numbered := numbered.adopt _ (by decide)
        timer := ⟨update_self 0x20 _ m.descriptors,
          congrArg Irq.cls IrqManager.adopt_objects_self⟩
        timerEntry := Lapic.TimerEntry.init _ _ _
        handlers := fun nr irq found later => ?_
        pins := fun pin irq owned => nomatch owned
        blank := fun pin inside _ => Ioapic.init_entry _ few inside
        apart := fun pin pin' irq owned _ => nomatch owned }
    obtain rfl | last := Nat.eq_or_lt_of_le later
    · exact congrArg Irq.handler IrqManager.adopt_objects_self
    · have low : 0x20 < IrqManager.maxIrqs := by decide
      have below := (numbered.adopt .lapic low nr irq found).1
      exact absurd (Nat.lt_of_lt_of_le below last) (Nat.lt_irrefl _)
  · rw [left] at taken
    exact Nat.succ.inj taken

/-- Each granted request takes one vector, and where no handler is installed for a device's vector
nothing else does. -/
theorem Runs.left (runs : Runs s₀ past s)
    (exceptions : ∀ cls nr handler, (.install cls nr handler, none) ∈ past → nr < 0x20) :
    free IrqManager.deviceVectors s.manager.descriptors + granted past =
      free IrqManager.deviceVectors s₀.manager.descriptors := by
  induction runs with
  | refl => rfl
  | @step past s op runs ih =>
      have ih := ih fun cls nr handler there =>
        exceptions cls nr handler (List.mem_cons_of_mem _ there)
      rw [granted, List.countP_cons, ← granted, ← ih]
      cases op with
      | timer op => rfl
      | attach irq handler => rfl
      | install cls nr handler =>
          have low := exceptions cls nr handler (List.mem_cons_self ..)
          have outside : nr ∉ IrqManager.deviceVectors := fun device =>
            Nat.not_le_of_lt low (IrqManager.mem_deviceVectors.mp device).1
          obtain ⟨_, same, _⟩ := IrqManager.installHandler_descriptors s.manager cls nr
            handler (Nat.lt_trans low (by decide))
          exact congrArg (· + granted past) (same (.inr outside))
      | request lapic pin =>
          obtain ⟨none, same, _, _⟩ | ⟨nr, device, vacant, _, _, result⟩ :=
            Ioapic.requestPhysicalIrq_cases lapic pin s.manager s.ioapic
          · rw [Interrupts.step]
            dsimp only
            rw [none]
            obtain same | same := same
            all_goals
              rw [same]
              rfl
          · have taken := free_update IrqManager.deviceVectors_nodup device vacant s.manager.next
            rw [Interrupts.step]
            dsimp only
            rw [result, IrqManager.adopt_descriptors, Option.isSome_some, if_pos rfl]
            omega

end Boot

/-- What the object of a pin does. -/
def pinActions (irq : Nat) : Option H → List (Action H)
  | some handler => [.call handler irq, .eoi]
  | none => [.eoi]

/-- What the timer's object does. -/
def timerActions (irq : Nat) : Option H → List (Action H)
  | some handler => [.call handler irq, .eoi]
  | none => [.abort]

section Routes
variable {hw : Hardware H} {s₀ s : Interrupts H} {past : History H}

theorem legalVector_device {nr : Nat} (device : nr ∈ IrqManager.deviceVectors) :
    legalVector nr = some nr :=
  if_neg (Nat.not_lt_of_le (Nat.le_trans (by decide) (IrqManager.mem_deviceVectors.mp device).1))

theorem Routed.pinRaised_owned (routed : Routed s₀ s past) {pin irq : Nat}
    (owned : owner pin past = some irq) :
    s.pinRaised pin = pinActions irq (handlerOf irq (s.manager.objects irq).nr past) := by
  obtain ⟨_, after, isIoapic, nr, device, found, entry⟩ := routed.pins pin irq owned
  have number := (routed.numbered nr irq found).2.1
  have small : nr < 2 ^ 8 := (IrqManager.mem_deviceVectors.mp device).2
  rw [pinRaised, entry.pinVector small, legalVector_device device]
  dsimp only
  rw [IrqManager.handleRawIrq, found]
  dsimp only
  rw [number, ← routed.handlers nr irq found (Nat.le_of_lt after), Irq.handle, isIoapic]
  cases (s.manager.objects irq).handler with
  | some handler => rfl
  | none => rfl

theorem Routed.pinRaised_blank (routed : Routed s₀ s past) {pin : Nat}
    (inside : pin < s.ioapic.nrIrqs) (unowned : owner pin past = none) : s.pinRaised pin = [] := by
  rw [pinRaised, (routed.blank pin inside unowned).pinVector (by decide)]
  rfl

theorem Routed.timerRaised (routed : Routed s₀ s past) :
    s.timerRaised =
      if running past then timerActions s.timerIrq (handlerOf s.timerIrq 0x20 past) else [] := by
  rw [Interrupts.timerRaised, routed.timerEntry.timerVector]
  cases running past with
  | false => rfl
  | true =>
      have handler := routed.handlers 0x20 _ routed.timer.1 (Nat.le_refl _)
      rw [Bool.not_true, if_neg Bool.false_ne_true, if_pos rfl, ← handler]
      change s.manager.handleRawIrq 0x20 = _
      rw [IrqManager.handleRawIrq, routed.timer.1]
      dsimp only
      rw [Irq.handle, routed.timer.2]
      cases (s.manager.objects s.timerIrq).handler with
      | some handler => rfl
      | none => rfl

/-- After any calls in any order, a pin ends up in the object that the last granted request for it
gave, with the handler that this object got last and one end of interrupt behind it, and a pin
that nobody asked for in nothing. No two pins share a vector, none has the timer's, and the timer
ends up in its own object whenever it was started last. -/
theorem interrupts_routed (booted : boot hw = some s₀) (few : s₀.ioapic.nrIrqs ≤ 120)
    (runs : Runs s₀ past s) :
    (∀ pin < s₀.ioapic.nrIrqs, s.pinRaised pin =
      match owner pin past with
      | some irq => pinActions irq (handlerOf irq (s.manager.objects irq).nr past)
      | none => []) ∧
    (∀ pin irq, owner pin past = some irq → 0x20 < (s.manager.objects irq).nr ∧
      ∀ pin' irq', owner pin' past = some irq' →
        (s.manager.objects irq').nr = (s.manager.objects irq).nr → pin' = pin) ∧
    s.timerRaised =
      if running past then timerActions s₀.timerIrq (handlerOf s₀.timerIrq 0x20 past) else [] := by
  have routed := (boot_spec booted few).1.run few runs
  refine ⟨fun pin inside => ?_, fun pin irq owned => ?_, ?_⟩
  · cases owned : owner pin past with
    | some irq => exact routed.pinRaised_owned owned
    | none => exact routed.pinRaised_blank (routed.nrIrqs.symm ▸ inside) owned
  · obtain ⟨_, after, _, nr, device, found, _⟩ := routed.pins pin irq owned
    have number := (routed.numbered nr irq found).2.1
    have apart : nr ≠ 0x20 := by
      rintro rfl
      cases found.symm.trans routed.timer.1
      exact Nat.lt_irrefl _ after
    refine ⟨?_, fun pin' irq' owned' same => ?_⟩
    · rw [number]
      exact Nat.lt_of_le_of_ne (IrqManager.mem_deviceVectors.mp device).1 (Ne.symm apart)
    · obtain ⟨_, _, _, nr', _, found', _⟩ := routed.pins pin' irq' owned'
      rw [number, (routed.numbered nr' irq' found').2.1] at same
      rw [same] at found'
      cases found.symm.trans found'
      exact routed.apart pin' pin irq owned' owned
  · rw [← routed.timerIrq]
    exact routed.timerRaised

/-- An IO-APIC that reports 23, as most do. -/
def sample : Hardware Nat :=
  { objects := fun _ => ⟨.exception, 0, none⟩
    lapic := fun _ => 0
    lapicVersion := 0x50014
    ioapic := ⟨fun _ => 0, 0⟩
    ioapicVersion := 0x170011
    handlers := (13, 3, 128, 129) }

/-- The keyboard's pin after its driver and the timer's have started. -/
theorem interrupts_routed_keyboard :
    ∃ s₀ s : Interrupts Nat, boot sample = some s₀ ∧ s₀.ioapic.nrIrqs = 23 ∧
      s.pinRaised 1 = [.call 7 35, .eoi] ∧ s.pinRaised 2 = [] ∧ s.timerRaised = [.abort] := by
  obtain ⟨s₀, booted⟩ : ∃ s₀, boot sample = some s₀ := ⟨_, rfl⟩
  have first : (s₀.step (.request true 1)).1 = some 35 := by
    cases booted
    rfl
  have few : s₀.ioapic.nrIrqs = 23 ∧ s₀.timerIrq = 34 := by
    cases booted
    exact ⟨rfl, rfl⟩
  obtain ⟨few, timerIrq⟩ := few
  have runs : Runs s₀ _ (((s₀.step (.request true 1)).2.step (.attach 35 7)).2.step
    (.timer .start)).2 := .step (.step (.step .refl))
  rw [first] at runs
  obtain ⟨pins, _, timer⟩ := interrupts_routed booted (by rw [few]; decide) runs
  rw [timerIrq] at timer
  exact ⟨s₀, _, booted, few, pins 1 (by rw [few]; decide), pins 2 (by rw [few]; decide), timer⟩

/-- A request fails without a local APIC, for a pin that there is not, and once the vectors are
used up, after 221 that were granted. -/
theorem request_none_iff (booted : boot hw = some s₀) (few : s₀.ioapic.nrIrqs ≤ 120)
    (runs : Runs s₀ past s)
    (exceptions : ∀ cls nr handler, (.install cls nr handler, none) ∈ past → nr < 0x20)
    (lapic : Bool) (pin : Nat) :
    (s.step (.request lapic pin)).1 = none ↔
      lapic = false ∨ s₀.ioapic.nrIrqs ≤ pin ∨ granted past = 221 := by
  obtain ⟨start, all⟩ := boot_spec booted few
  have routed := start.run few runs
  have left := runs.left exceptions
  rw [← routed.nrIrqs]
  obtain ⟨none, _, _, reason⟩ | ⟨nr, device, vacant, present, inside, result⟩ :=
    Ioapic.requestPhysicalIrq_cases lapic pin s.manager s.ioapic
  · refine ⟨fun _ => ?_, fun _ => none⟩
    obtain absent | outside | full := reason
    · exact .inl absent
    · exact .inr (.inl outside)
    · exact .inr (.inr (by omega))
  · refine ⟨fun refused => ?_, fun reason => ?_⟩
    · rw [Interrupts.step, result] at refused
      cases refused
    · obtain absent | outside | used := reason
      · cases absent.symm.trans present
      · exact absurd inside (Nat.not_lt_of_le outside)
      · have taken := free_update IrqManager.deviceVectors_nodup device vacant s.manager.next
        omega

/-- The last pin of most IO-APICs, which `nrIrqs` does not count. -/
theorem request_none_iff_last :
    ∃ s₀ : Interrupts Nat, boot sample = some s₀ ∧ (s₀.step (.request true 23)).1 = none ∧
      (s₀.step (.request true 22)).1 ≠ none := by
  obtain ⟨s₀, booted⟩ : ∃ s₀, boot sample = some s₀ := ⟨_, rfl⟩
  have few : s₀.ioapic.nrIrqs = 23 := by
    cases booted
    rfl
  have decided := request_none_iff booted (by rw [few]; decide) .refl
    (fun _ _ _ there => nomatch there) true
  rw [few] at decided
  exact ⟨s₀, booted, (decided 23).mpr (.inr (.inl (by decide))), fun refused =>
    absurd ((decided 22).mp refused) (by decide)⟩

end Routes

end Interrupts
end Infos.Drivers
