import Infos.Lib.Slots

/-!
# Interrupts

IRQ objects, the descriptors of `IRQManager`, and what `__handle_raw_irq` does with a vector.
-/
namespace Infos.Arch
open Infos.Lib.Slots Function

def irqTrap : Nat := 0x03

def irqGpf : Nat := 0x0d

def irqKernelSyscall : Nat := 0x80

def irqUserSyscall : Nat := 0x81

inductive IrqClass where
  | exception
  | software
  | lapic
  | ioapic
  deriving DecidableEq

/-- `kernel::IRQ`. A handler stands for the function and its private data. -/
structure Irq (H : Type) where
  cls : IrqClass
  nr : Nat
  handler : Option H

/-- What a dispatched interrupt does. -/
inductive Action (H : Type) where
  | call (handler : H) (irq : Nat)
  | eoi
  | abort
  | nobodyCared (nr : Nat)

/-- `irq` is the pointer that the handler is called with. -/
def Irq.handle {H : Type} (i : Irq H) (irq : Nat) : List (Action H) :=
  match i.cls, i.handler with
  | .exception, some h | .software, some h => [.call h irq]
  | .exception, none | .software, none => [.abort]
  | .lapic, some h => [.call h irq, .eoi]
  | .lapic, none => [.abort]
  | .ioapic, some h => [.call h irq, .eoi]
  | .ioapic, none => [.eoi]

/-- The objects are those below `next`. -/
structure IrqManager (H : Type) where
  next : Nat
  objects : Nat → Irq H
  descriptors : Nat → Option Nat

namespace IrqManager

variable {H : Type}

def maxIrqs : Nat := 256

/-- `new T()` -/
def new (cls : IrqClass) (m : IrqManager H) : Nat × IrqManager H :=
  (m.next,
    { m with
      next := m.next + 1
      objects := update m.objects m.next { cls := cls, nr := 0, handler := none } })

/-- An object goes to a descriptor and learns its number. -/
def connect (nr irq : Nat) (m : IrqManager H) : IrqManager H :=
  { m with
    descriptors := update m.descriptors nr (some irq)
    objects := update m.objects irq { m.objects irq with nr := nr } }

def attach (irq : Nat) (handler : H) (m : IrqManager H) : IrqManager H :=
  { m with objects := update m.objects irq { m.objects irq with handler := some handler } }

def initException (m : IrqManager H) (i : Nat) : IrqManager H :=
  let (irq, m) := m.new .exception
  m.connect i irq

def init (m : IrqManager H) : IrqManager H := (List.range 32).foldl initException m

def installHandler (cls : IrqClass) (nr : Nat) (handler : H) (m : IrqManager H) :
    Bool × IrqManager H :=
  if maxIrqs ≤ nr then (false, m)
  else
    match m.descriptors nr with
    | some irq => (true, m.attach irq handler)
    | none =>
        let (irq, m) := m.new cls
        (true, (m.connect nr irq).attach irq handler)

def installExceptionHandler (nr : Nat) (handler : H) (m : IrqManager H) : Bool × IrqManager H :=
  m.installHandler .exception nr handler

def installSoftwareHandler (nr : Nat) (handler : H) (m : IrqManager H) : Bool × IrqManager H :=
  m.installHandler .software nr handler

/-- The vectors that `attach_irq` looks at. -/
def deviceVectors : List Nat := List.range' 0x20 (0x100 - 0x20)

def attachIrq (irq : Nat) (m : IrqManager H) : Bool × IrqManager H :=
  match firstFree deviceVectors m.descriptors with
  | some i => (true, m.connect i irq)
  | none => (false, m)

def handleRawIrq (nr : Nat) (m : IrqManager H) : List (Action H) :=
  match m.descriptors nr with
  | some irq => (m.objects irq).handle irq
  | none => [.nobodyCared nr]

/-- `X86Arch::init_irq` -/
def initIrq (generalProtectionFault trapInterrupt kernelSyscall userSyscall : H)
    (m : IrqManager H) : IrqManager H :=
  let m := m.init
  let (_, m) := m.installExceptionHandler irqGpf generalProtectionFault
  let (_, m) := m.installExceptionHandler irqTrap trapInterrupt
  let (_, m) := m.installSoftwareHandler irqKernelSyscall kernelSyscall
  let (_, m) := m.installSoftwareHandler irqUserSyscall userSyscall
  m

/-- Before anything is set up. -/
def start (objects : Nat → Irq H) : IrqManager H :=
  { next := 0, objects := objects, descriptors := fun _ => none }

/-! ### What changes -/

/-- A new object with a vector. -/
def adopt (cls : IrqClass) (nr : Nat) (m : IrqManager H) : IrqManager H :=
  (m.new cls).2.connect nr m.next

/-- Every descriptor leads to an object that knows its number. -/
def Numbered (m : IrqManager H) : Prop :=
  ∀ nr irq, m.descriptors nr = some irq →
    irq < m.next ∧ (m.objects irq).nr = nr ∧ nr < maxIrqs

section Changes
variable {m : IrqManager H} {cls : IrqClass} {nr irq : Nat} {handler : H}

@[simp] theorem new_next : (m.new cls).2.next = m.next + 1 := rfl

@[simp] theorem new_descriptors : (m.new cls).2.descriptors = m.descriptors := rfl

@[simp] theorem attach_next : (m.attach irq handler).next = m.next := rfl

@[simp] theorem attach_descriptors : (m.attach irq handler).descriptors = m.descriptors := rfl

@[simp] theorem adopt_next : (m.adopt cls nr).next = m.next + 1 := rfl

@[simp] theorem adopt_descriptors :
    (m.adopt cls nr).descriptors = update m.descriptors nr (some m.next) := rfl

theorem new_objects_of_ne (old : irq ≠ m.next) : (m.new cls).2.objects irq = m.objects irq :=
  update_of_ne old ..

theorem attach_objects_of_ne {other : Nat} (apart : other ≠ irq) :
    (m.attach irq handler).objects other = m.objects other :=
  update_of_ne apart ..

theorem attach_objects_self :
    (m.attach irq handler).objects irq = { m.objects irq with handler := some handler } :=
  update_self ..

theorem adopt_objects_of_ne (old : irq ≠ m.next) : (m.adopt cls nr).objects irq = m.objects irq :=
  (update_of_ne old ..).trans (new_objects_of_ne old)

theorem adopt_objects_self :
    (m.adopt cls nr).objects m.next = { cls := cls, nr := nr, handler := none } := by
  simp [adopt, connect, new]

/-- A handler changes neither the class nor the number of an object. -/
theorem attach_cls (other : Nat) :
    ((m.attach irq handler).objects other).cls = (m.objects other).cls ∧
      ((m.attach irq handler).objects other).nr = (m.objects other).nr := by
  by_cases same : other = irq
  · rw [same, attach_objects_self]
    exact ⟨rfl, rfl⟩
  · rw [attach_objects_of_ne same]
    exact ⟨rfl, rfl⟩

namespace Numbered

theorem unique (numbered : m.Numbered) {nr' : Nat} (first : m.descriptors nr = some irq)
    (second : m.descriptors nr' = some irq) : nr = nr' :=
  (numbered nr irq first).2.1.symm.trans (numbered nr' irq second).2.1

theorem new (numbered : m.Numbered) (cls : IrqClass) : (m.new cls).2.Numbered := by
  intro nr irq found
  obtain ⟨below, number, inside⟩ := numbered nr irq found
  rw [new_objects_of_ne (Nat.ne_of_lt below)]
  exact ⟨Nat.lt_succ_of_lt below, number, inside⟩

theorem attach (numbered : m.Numbered) (irq : Nat) (handler : H) :
    (m.attach irq handler).Numbered := by
  intro nr other found
  obtain ⟨below, number, inside⟩ := numbered nr other found
  exact ⟨below, (attach_cls other).2.trans number, inside⟩

theorem adopt (numbered : m.Numbered) (cls : IrqClass) (inside : nr < maxIrqs) :
    (m.adopt cls nr).Numbered := by
  intro nr' irq found
  rw [adopt_descriptors, update_apply] at found
  split at found
  next here =>
    cases found
    rw [adopt_objects_self]
    exact ⟨Nat.lt_succ_self _, here.symm, here ▸ inside⟩
  next there =>
    obtain ⟨below, number, inside'⟩ := numbered nr' irq found
    rw [adopt_objects_of_ne (Nat.ne_of_lt below)]
    exact ⟨Nat.lt_succ_of_lt below, number, inside'⟩

end Numbered

theorem installHandler_present (inside : nr < maxIrqs) (found : m.descriptors nr = some irq) :
    (m.installHandler cls nr handler).2 = m.attach irq handler := by
  rw [installHandler, if_neg (Nat.not_le_of_lt inside), found]

theorem installHandler_free (inside : nr < maxIrqs) (vacant : m.descriptors nr = none) :
    (m.installHandler cls nr handler).2 = (m.adopt cls nr).attach m.next handler := by
  rw [installHandler, if_neg (Nat.not_le_of_lt inside), vacant]
  rfl

/-- A new object leaves those that have a vector. -/
theorem adopt_kept (numbered : m.Numbered) (cls : IrqClass) (vacant : m.descriptors nr = none)
    {nr' : Nat} (found : m.descriptors nr' = some irq) :
    (m.adopt cls nr).descriptors nr' = some irq ∧
      (m.adopt cls nr).objects irq = m.objects irq := by
  have apart : nr' ≠ nr := by
    rintro rfl
    cases vacant.symm.trans found
  have old : irq ≠ m.next := Nat.ne_of_lt (numbered nr' irq found).1
  exact ⟨(update_of_ne apart ..).trans found, adopt_objects_of_ne old⟩

/-- What `install_handler` can do. -/
theorem installHandler_cases (cls : IrqClass) (nr : Nat) (handler : H) (m : IrqManager H) :
    (maxIrqs ≤ nr ∧ (m.installHandler cls nr handler).2 = m) ∨
      (∃ irq, m.descriptors nr = some irq ∧
        (m.installHandler cls nr handler).2 = m.attach irq handler) ∨
      (nr < maxIrqs ∧ m.descriptors nr = none ∧
        (m.installHandler cls nr handler).2 = (m.adopt cls nr).attach m.next handler) := by
  by_cases inside : nr < maxIrqs
  · cases found : m.descriptors nr with
    | some irq => exact .inr (.inl ⟨irq, rfl, installHandler_present inside found⟩)
    | none => exact .inr (.inr ⟨inside, rfl, installHandler_free inside found⟩)
  · have outside : maxIrqs ≤ nr := Nat.le_of_not_lt inside
    exact .inl ⟨outside, by rw [installHandler, if_pos outside]⟩

theorem Numbered.installHandler (numbered : m.Numbered) (cls : IrqClass) (nr : Nat) (handler : H) :
    (m.installHandler cls nr handler).2.Numbered := by
  obtain ⟨_, same⟩ | ⟨irq, _, same⟩ | ⟨inside, _, same⟩ := installHandler_cases cls nr handler m
  all_goals rw [same]
  · exact numbered
  · exact numbered.attach irq handler
  · exact (numbered.adopt cls inside).attach _ handler

theorem mem_deviceVectors : nr ∈ deviceVectors ↔ 0x20 ≤ nr ∧ nr < maxIrqs := by
  rw [deviceVectors, List.mem_range'_1]
  rfl

theorem deviceVectors_nodup : deviceVectors.Nodup := List.nodup_range'

/-- A new object gets a vector as long as there is one. -/
theorem attachIrq_new (cls : IrqClass) (m : IrqManager H) :
    (free deviceVectors m.descriptors = 0 ∧
        (m.new cls).2.attachIrq m.next = (false, (m.new cls).2)) ∨
      ∃ nr ∈ deviceVectors, m.descriptors nr = none ∧
        (m.new cls).2.attachIrq m.next = (true, m.adopt cls nr) := by
  rw [attachIrq, new_descriptors]
  cases found : firstFree deviceVectors m.descriptors with
  | none => exact .inl ⟨firstFree_none_iff.mp found, rfl⟩
  | some nr =>
      obtain ⟨inside, vacant⟩ := firstFree_some found
      exact .inr ⟨nr, inside, vacant, rfl⟩

theorem attachIrq_first (cls : IrqClass) (vacant : m.descriptors 0x20 = none) :
    (m.new cls).2.attachIrq m.next = (true, m.adopt cls 0x20) := by
  have found : firstFree deviceVectors m.descriptors = some 0x20 := by
    rw [firstFree, deviceVectors, List.range'_succ, List.find?_cons_of_pos]
    rw [vacant]
    rfl
  rw [attachIrq, new_descriptors, found]
  rfl

end Changes

/-! ### After `init_irq` -/

section Init
variable {m : IrqManager H} {nr : Nat}

theorem initException_eq (i : Nat) : m.initException i = m.adopt .exception i := rfl

theorem init_rounds (objects : Nat → Irq H) (n : Nat) (small : n ≤ 32) :
    let m := (List.range n).foldl initException (start objects)
    m.Numbered ∧ (∀ nr, n ≤ nr → m.descriptors nr = none) ∧
      ∀ nr < n, m.descriptors nr ≠ none := by
  induction n with
  | zero => exact ⟨fun _ _ found => (nomatch found), fun _ _ => rfl, fun _ below => (nomatch below)⟩
  | succ n ih =>
      obtain ⟨numbered, above, below⟩ := ih (by omega)
      rw [List.range_succ, List.foldl_append, List.foldl_cons, List.foldl_nil, initException_eq]
      refine ⟨numbered.adopt _ (by rw [maxIrqs]; omega), fun nr outside => ?_, fun nr inside => ?_⟩
      · rw [adopt_descriptors, update_of_ne (by omega)]
        exact above nr (by omega)
      · rw [adopt_descriptors, update_apply]
        split
        next => exact Option.some_ne_none _
        next there => exact below nr (by omega)

/-- A handler for a vector takes it if it is free, and no other. -/
theorem installHandler_descriptors (m : IrqManager H) (cls : IrqClass) (nr : Nat) (handler : H)
    (inside : nr < maxIrqs) :
    (∀ other, other ≠ nr → (m.installHandler cls nr handler).2.descriptors other =
        m.descriptors other) ∧
      (m.descriptors nr ≠ none ∨ nr ∉ deviceVectors →
        free deviceVectors (m.installHandler cls nr handler).2.descriptors =
          free deviceVectors m.descriptors) ∧
      (m.descriptors nr = none → nr ∈ deviceVectors →
        free deviceVectors (m.installHandler cls nr handler).2.descriptors + 1 =
          free deviceVectors m.descriptors) := by
  cases found : m.descriptors nr with
  | some irq =>
      rw [installHandler_present inside found]
      exact ⟨fun _ _ => rfl, fun _ => rfl, fun vacant => (nomatch vacant)⟩
  | none =>
      rw [installHandler_free inside found, attach_descriptors, adopt_descriptors]
      refine ⟨fun other apart => update_of_ne apart .., fun outside => ?_, fun _ device => ?_⟩
      · exact free_update_outside (outside.resolve_left (fun some => some rfl)) _ _
      · exact free_update deviceVectors_nodup device found _

/-- The exceptions and the two system calls have their vectors. -/
theorem initIrq_spec (objects : Nat → Irq H) (gpf trap kernelSyscall userSyscall : H) :
    ∃ m, (start objects).initIrq gpf trap kernelSyscall userSyscall = m ∧ m.Numbered ∧
      m.descriptors 0x20 = none ∧ free deviceVectors m.descriptors = 222 := by
  obtain ⟨numbered, above, _⟩ := init_rounds objects 32 (Nat.le_refl _)
  obtain ⟨m, eq⟩ : ∃ m, m = (start objects).init := ⟨_, rfl⟩
  have above : ∀ nr, 32 ≤ nr → m.descriptors nr = none := eq ▸ above
  have all : free deviceVectors m.descriptors = 224 := by
    refine List.countP_eq_length.mpr fun nr inside => ?_
    rw [above nr (mem_deviceVectors.mp inside).1]
    rfl
  have exception : ∀ nr < 32, nr ∉ deviceVectors := fun nr below device =>
    Nat.not_le_of_lt below (mem_deviceVectors.mp device).1
  have device : ∀ nr, 32 ≤ nr → nr < maxIrqs → nr ∈ deviceVectors := fun nr first last =>
    mem_deviceVectors.mpr ⟨first, last⟩
  obtain ⟨m₁, eq₁⟩ : ∃ m₁, m₁ = (m.installHandler .exception irqGpf gpf).2 := ⟨_, rfl⟩
  obtain ⟨m₂, eq₂⟩ : ∃ m₂, m₂ = (m₁.installHandler .exception irqTrap trap).2 := ⟨_, rfl⟩
  obtain ⟨m₃, eq₃⟩ : ∃ m₃, m₃ = (m₂.installHandler .software irqKernelSyscall kernelSyscall).2 :=
    ⟨_, rfl⟩
  obtain ⟨m₄, eq₄⟩ : ∃ m₄, m₄ = (m₃.installHandler .software irqUserSyscall userSyscall).2 :=
    ⟨_, rfl⟩
  obtain ⟨same₁, free₁, _⟩ := installHandler_descriptors m .exception irqGpf gpf (by decide)
  obtain ⟨same₂, free₂, _⟩ := installHandler_descriptors m₁ .exception irqTrap trap (by decide)
  obtain ⟨same₃, _, free₃⟩ := installHandler_descriptors m₂ .software irqKernelSyscall
    kernelSyscall (by decide)
  obtain ⟨same₄, _, free₄⟩ := installHandler_descriptors m₃ .software irqUserSyscall
    userSyscall (by decide)
  have first := free₁ (.inr (exception irqGpf (by decide)))
  have second := free₂ (.inr (exception irqTrap (by decide)))
  rw [← eq₁] at same₁ first
  rw [← eq₂] at same₂ second
  rw [← eq₃] at same₃ free₃
  rw [← eq₄] at same₄ free₄
  have untouched : ∀ nr, 32 ≤ nr → m₂.descriptors nr = none := fun nr outside => by
    rw [same₂ nr (by rw [irqTrap]; omega), same₁ nr (by rw [irqGpf]; omega)]
    exact above nr outside
  have third := free₃ (untouched _ (by decide)) (device _ (by decide) (by decide))
  have fourth := free₄ ((same₃ _ (by decide)).trans (untouched _ (by decide)))
    (device _ (by decide) (by decide))
  refine ⟨m₄, ?_, ?_, ?_, by omega⟩
  · rw [eq₄, eq₃, eq₂, eq₁, eq]
    rfl
  · rw [eq₄, eq₃, eq₂, eq₁, eq]
    exact (((Numbered.installHandler numbered _ _ _).installHandler _ _ _).installHandler
      _ _ _).installHandler _ _ _
  · rw [same₄ _ (by decide), same₃ _ (by decide)]
    exact untouched _ (by decide)

end Init

end IrqManager
end Infos.Arch
