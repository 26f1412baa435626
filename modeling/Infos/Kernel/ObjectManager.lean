import Infos.Util.Map
import Mathlib.Data.List.Basic

/-!
# Object handles

One table of handles for all processes. A trace of calls records what each of
them returned; the table holds exactly the registrations of the trace.
-/
namespace Infos.Kernel.Om
open Infos.Lib Infos.Util Function

/-- The object is a `void *`: `none` stands for NULL. -/
structure ObjectDescriptor (θ ω : Type) where
  owner : θ
  object : Option ω

structure ObjectManager (θ ω : Type) where
  nextHandle : Nat
  objects : Map Nat (ObjectDescriptor θ ω)

def init {θ ω : Type} : ObjectManager θ ω := ⟨1, .empty⟩

/-- `KernelObject::Error` -/
def errorHandle : Nat := 2 ^ 64 - 1

section Calls
variable {θ π ω : Type}

def registerObject (owner : θ) (obj : Option ω) (om : ObjectManager θ ω) :
    Except Fault (Nat × ObjectManager θ ω) := do
  let handle := om.nextHandle
  let objects ← om.objects.add handle ⟨owner, obj⟩
  .ok (handle, ⟨(om.nextHandle + 1) % 2 ^ 64, objects⟩)

variable [DecidableEq π]

/-- `process` is the `owner()` of a thread. -/
def getObjectSecure (process : θ → π) (om : ObjectManager θ ω) (owner : θ) (handle : Nat) :
    Option ω :=
  match om.objects.tryGetValue handle with
  | none => none
  | some obj => if process obj.owner ≠ process owner then none else obj.object

inductive Call (θ ω : Type) where
  | register (owner : θ) (obj : Option ω)
  | get (owner : θ) (handle : Nat)

/-- A call with what it returned. -/
inductive Event (θ ω : Type) where
  | registered (owner : θ) (obj : Option ω) (handle : Nat)
  | got (owner : θ) (handle : Nat) (obj : Option ω)

def Event.call : Event θ ω → Call θ ω
  | .registered owner obj _ => .register owner obj
  | .got owner handle _ => .get owner handle

def Call.isRegister : Call θ ω → Bool
  | .register _ _ => true
  | .get _ _ => false

def Call.exec (process : θ → π) : Call θ ω → ObjectManager θ ω →
    Except Fault (Event θ ω × ObjectManager θ ω)
  | .register owner obj, om => do
      let (handle, om) ← registerObject owner obj om
      .ok (.registered owner obj handle, om)
  | .get owner handle, om => .ok (.got owner handle (getObjectSecure process om owner handle), om)

def execAll (process : θ → π) : List (Call θ ω) → ObjectManager θ ω →
    Except Fault (List (Event θ ω) × ObjectManager θ ω)
  | [], om => .ok ([], om)
  | call :: calls, om => do
      let (e, om) ← call.exec process om
      let (trace, om) ← execAll process calls om
      .ok (e :: trace, om)

/-- What the caller may rely on after `past`: a new handle has no holder yet, and a handle gives
its object to the process that registered it and NULL to all others. -/
def Secure (process : θ → π) (past : List (Event θ ω)) : Event θ ω → Prop
  | .registered _ _ handle =>
      handle ≠ 0 ∧ handle ≠ errorHandle ∧ ∀ t obj, .registered t obj handle ∉ past
  | .got owner handle result =>
      (∀ t obj, .registered t obj handle ∈ past →
        result = if process t = process owner then obj else none) ∧
      ((∀ t obj, .registered t obj handle ∉ past) → result = none)

end Calls

section Table
variable {θ π ω : Type} {om : ObjectManager θ ω} {past : List (Event θ ω)}

def registrations (past : List (Event θ ω)) : Nat := past.countP fun e => e.call.isRegister

/-- The table after a trace, as long as the counter has not wrapped. -/
structure Holds (past : List (Event θ ω)) (om : ObjectManager θ ω) : Prop where
  sound : om.objects.Sound
  next : om.nextHandle = (registrations past + 1) % 2 ^ 64
  objects : ∀ handle d, om.objects.tryGetValue handle = some d ↔
    .registered d.owner d.object handle ∈ past
  range : ∀ t obj handle, .registered t obj handle ∈ past →
    0 < handle ∧ handle ≤ registrations past

theorem Holds.init : Holds ([] : List (Event θ ω)) init :=
  ⟨Map.empty_sound, rfl, fun _ _ => ⟨nofun, nofun⟩, nofun⟩

theorem registrations_snoc (e : Event θ ω) :
    registrations (past ++ [e]) = registrations past + if e.call.isRegister then 1 else 0 := by
  simp [registrations, List.countP_append, List.countP_singleton]

theorem Holds.register (h : Holds past om) (few : registrations past + 1 < 2 ^ 64) (owner : θ)
    (obj : Option ω) :
    ∃ om', registerObject owner obj om = .ok (registrations past + 1, om') ∧
      Holds (past ++ [.registered owner obj (registrations past + 1)]) om' := by
  have next : om.nextHandle = registrations past + 1 := h.next.trans (Nat.mod_eq_of_lt few)
  obtain ⟨objects, run, sound, values⟩ := Map.add_spec om.nextHandle ⟨owner, obj⟩ h.sound
  refine ⟨⟨(om.nextHandle + 1) % 2 ^ 64, objects⟩, ?_, sound, ?_, fun handle d => ?_, ?_⟩
  · rw [registerObject, run, next]
    rfl
  · rw [registrations_snoc, next]
    rfl
  · rw [values, update_apply, next, List.mem_append, List.mem_singleton]
    by_cases same : handle = registrations past + 1
    · rw [if_pos same]
      subst same
      have fresh : .registered d.owner d.object (registrations past + 1) ∉ past :=
        fun mem => (h.range _ _ _ mem).2.not_gt (Nat.lt_succ_self _)
      simp only [fresh, false_or, Event.registered.injEq, and_true, Option.some.injEq]
      constructor
      · rintro rfl
        exact ⟨rfl, rfl⟩
      · rintro ⟨rfl, rfl⟩
        rfl
    · rw [if_neg same, h.objects]
      simp [same]
  · intro t obj' handle mem
    rw [registrations_snoc]
    rcases List.mem_append.mp mem with old | new
    · obtain ⟨low, high⟩ := h.range _ _ _ old
      exact ⟨low, high.trans (Nat.le_succ _)⟩
    · cases List.mem_singleton.mp new
      exact ⟨Nat.succ_pos _, Nat.le_refl _⟩

theorem Holds.get (h : Holds past om) (owner : θ) (handle : Nat) (obj : Option ω) :
    Holds (past ++ [.got owner handle obj]) om := by
  refine ⟨h.sound, ?_, fun k d => ?_, fun t o k mem => ?_⟩
  · rw [registrations_snoc]
    exact h.next
  · rw [h.objects]
    simp
  · rw [registrations_snoc]
    exact h.range t o k (by simpa using mem)

variable [DecidableEq π] (process : θ → π)

theorem Holds.getObjectSecure (h : Holds past om) (owner : θ) (handle : Nat) :
    Secure process past (.got owner handle (getObjectSecure process om owner handle)) := by
  refine ⟨fun t obj mem => ?_, fun unknown => ?_⟩
  · have found := (h.objects handle ⟨t, obj⟩).mpr mem
    rw [Om.getObjectSecure, found]
    by_cases same : process t = process owner
    · rw [if_pos same]
      exact if_neg fun ne => ne same
    · rw [if_neg same]
      exact if_pos same
  · have missing : om.objects.tryGetValue handle = none := by
      cases found : om.objects.tryGetValue handle with
      | none => rfl
      | some d => exact absurd ((h.objects handle d).mp found) (unknown _ _)
    rw [Om.getObjectSecure, missing]

theorem Holds.exec (h : Holds past om) (call : Call θ ω)
    (few : registrations past + (if call.isRegister then 1 else 0) < 2 ^ 64 - 1) :
    ∃ e om', call.exec process om = .ok (e, om') ∧ e.call = call ∧ Secure process past e ∧
      Holds (past ++ [e]) om' := by
  cases call with
  | register owner obj =>
      have less : registrations past + 1 < 2 ^ 64 - 1 := few
      obtain ⟨om', run, held⟩ := h.register (by omega) owner obj
      refine ⟨.registered owner obj (registrations past + 1), om', ?_, rfl,
        ⟨Nat.succ_ne_zero _, less.ne, fun t obj' mem => ?_⟩, held⟩
      · rw [Call.exec, run]
        rfl
      · exact (h.range _ _ _ mem).2.not_gt (Nat.lt_succ_self _)
  | get owner handle =>
      exact ⟨_, om, rfl, rfl, h.getObjectSecure process owner handle, h.get owner handle _⟩

theorem execAll_secure (calls : List (Call θ ω)) (h : Holds past om)
    (few : registrations past + calls.countP Call.isRegister < 2 ^ 64 - 1) :
    ∃ trace om', execAll process calls om = .ok (trace, om') ∧ trace.map Event.call = calls ∧
      ∀ before e later, trace = before ++ e :: later → Secure process (past ++ before) e := by
  induction calls generalizing past om with
  | nil => exact ⟨[], om, rfl, rfl, by simp⟩
  | cons call calls ih =>
      rw [List.countP_cons] at few
      obtain ⟨e, om₁, run, same, secure, held⟩ := h.exec process call (by omega)
      have fewer : registrations (past ++ [e]) + calls.countP Call.isRegister < 2 ^ 64 - 1 := by
        rw [registrations_snoc, same]
        omega
      obtain ⟨trace, om₂, run', same', secure'⟩ := ih held fewer
      refine ⟨e :: trace, om₂, ?_, by rw [List.map_cons, same, same'], ?_⟩
      · rw [execAll, run]
        change (do let (trace, om) ← execAll process calls om₁; Except.ok (e :: trace, om)) = _
        rw [run']
        rfl
      · intro before e' later split
        cases before with
        | nil =>
            cases split
            rwa [List.append_nil]
        | cons first before =>
            cases split
            have := secure' before e' later rfl
            rwa [List.append_assoc] at this

theorem registers_run (h : Holds past om) (owner : θ) (obj : Option ω) (n : Nat)
    (few : registrations past + n < 2 ^ 64) :
    ∃ trace om', execAll process (List.replicate n (.register owner obj)) om = .ok (trace, om') ∧
      (0 < n → .registered owner obj (registrations past + n) ∈ trace) := by
  induction n generalizing past om with
  | zero => exact ⟨[], om, rfl, nofun⟩
  | succ n ih =>
      obtain ⟨om₁, run, held⟩ := h.register (by omega) owner obj
      have count : registrations (past ++ [.registered owner obj (registrations past + 1)]) =
          registrations past + 1 := registrations_snoc _
      obtain ⟨trace, om₂, run', last⟩ := ih held (by omega)
      rw [count] at last
      refine ⟨.registered owner obj (registrations past + 1) :: trace, om₂, ?_, fun _ => ?_⟩
      · rw [List.replicate_succ, execAll, Call.exec, run]
        change (do
          let (trace, om) ← execAll process (List.replicate n (.register owner obj)) om₁
          Except.ok (_ :: trace, om)) = _
        rw [run']
        rfl
      · cases n with
        | zero => exact List.mem_cons_self
        | succ n =>
            have mem := last (Nat.succ_pos n)
            rw [Nat.add_right_comm, Nat.add_assoc] at mem
            exact List.mem_cons_of_mem _ mem

end Table

/-- Handles are new, stable and of use to one process only, for any calls by any threads. -/
theorem handles_secure {θ π ω : Type} [DecidableEq π] (process : θ → π) (calls : List (Call θ ω))
    (few : calls.countP Call.isRegister < 2 ^ 64 - 1) :
    ∃ trace om, execAll process calls init = .ok (trace, om) ∧ trace.map Event.call = calls ∧
      ∀ past e later, trace = past ++ e :: later → Secure process past e := by
  have none : registrations ([] : List (Event θ ω)) = 0 := rfl
  obtain ⟨trace, om, run, same, secure⟩ :=
    execAll_secure process calls Holds.init (by rwa [none, Nat.zero_add])
  exact ⟨trace, om, run, same, fun past e later split => secure past e later split⟩

theorem handles_secure_two : ∃ trace om,
    execAll id ([.register 0 (some 7), .get 0 1, .get 1 1] : List (Call Nat Nat)) init =
      .ok (trace, om) ∧ trace.map Event.call = [.register 0 (some 7), .get 0 1, .get 1 1] ∧
      ∀ past e later, trace = past ++ e :: later → Secure id past e :=
  handles_secure id _ (by decide)

/-- The registration number 2^64 - 1 returns the error value. -/
theorem error_handle_returned : ∃ (calls : List (Call Nat Nat)) (trace : List (Event Nat Nat))
    (om : ObjectManager Nat Nat), calls.countP Call.isRegister < 2 ^ 64 ∧
      execAll id calls init = .ok (trace, om) ∧ .registered 0 none errorHandle ∈ trace := by
  obtain ⟨trace, om, run, last⟩ := registers_run id Holds.init 0 (none : Option Nat) (2 ^ 64 - 1)
    (by decide)
  refine ⟨_, trace, om, ?_, run, ?_⟩
  · rw [List.countP_replicate]
    have less : 2 ^ 64 - 1 < 2 ^ 64 := by decide
    exact less
  · have mem := last (by decide)
    rwa [show registrations ([] : List (Event Nat Nat)) = 0 from rfl, Nat.zero_add] at mem

end Infos.Kernel.Om
