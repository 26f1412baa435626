import Infos.Kernel.ObjectManager

/-!
# System calls on handles

Four calls create objects and give out handles, eight calls take a handle and
cast what they find. Two logs state what happens; no code reads them.
-/
namespace Infos.Kernel.Syscall
open Infos.Lib Infos.Util Infos.Kernel.Om Function

abbrev Ptr := Nat

/-- What an object was created as. -/
inductive Kind where
  | file
  | directory
  | process
  | thread
  deriving DecidableEq, Repr

/-- An object with the kind of the call that created it, which only the logs know. -/
structure Object where
  kind : Kind
  ptr : Ptr
  deriving DecidableEq, Repr

/-- What a system call does with the object it has found. -/
inductive Method where
  | closeFile
  | read (buffer size : Nat)
  | write (buffer size : Nat)
  | closeDirectory
  | readEntry (buffer : Nat)
  | awaitTermination
  | stop
  | awaitStop
  deriving DecidableEq, Repr

/-- The parts of the kernel that the system calls use, over the rest of its state. -/
structure Services (ω : Type) where
  openFile : Nat → Nat → ω → Option Ptr × ω
  openDirectory : Nat → Nat → ω → Option Ptr × ω
  launchProcess : Nat → Nat → ω → Option Ptr × ω
  createThread : Ptr → Nat → ω → Ptr × ω
  startThread : Ptr → Nat → Nat → ω → ω
  invoke : Method → Ptr → ω → Nat × ω
  plain : Nat → Nat → ω → Nat × ω

structure State (ω : Type) where
  om : ObjectManager Ptr Object
  world : ω
  registered : List (Nat × ObjectDescriptor Ptr Object)
  used : List (Method × Object)

def boot {ω : Type} (world : ω) : State ω := ⟨Om.init, world, [], []⟩

section Calls
variable {ω π : Type} [DecidableEq π]

/-- A service that changes the rest of the kernel. -/
def serve {ρ : Type} (service : ω → ρ × ω) : Exec (State ω) ρ := do
  let s ← get
  let (result, world) := service s.world
  set { s with world }
  pure result

def register (caller : Ptr) (object : Object) : Exec (State ω) Nat := do
  let s ← get
  let (handle, om) ← lift (registerObject caller (some object) s.om)
  set { s with om, registered := (handle, ⟨caller, some object⟩) :: s.registered }
  pure handle

/-- A method call on an object: the cast to the class of the method is not checked. -/
def Services.call (services : Services ω) (method : Method) (object : Object) :
    Exec (State ω) Nat := do
  modify fun s => { s with used := (method, object) :: s.used }
  serve (services.invoke method object.ptr)

/-- `get_object_secure` with the error result for NULL. -/
def withObject (process : Ptr → π) (caller : Ptr) (h error : Nat)
    (act : Object → Exec (State ω) Nat) : Exec (State ω) Nat := do
  match getObjectSecure process (← get).om caller h with
  | none => pure error
  | some object => act object

/-- -1 as an `unsigned int` -/
def minusOne : Nat := 2 ^ 32 - 1

variable (services : Services ω) (process : Ptr → π) (caller : Ptr)

def sysOpen (filename flags : Nat) : Exec (State ω) Nat := do
  match ← serve (services.openFile filename flags) with
  | none => pure errorHandle
  | some f => register caller ⟨.file, f⟩

def sysClose (h : Nat) : Exec (State ω) Nat :=
  withObject process caller h minusOne fun f => do
    let _ ← services.call .closeFile f
    pure 0

def sysRead (h buffer size : Nat) : Exec (State ω) Nat :=
  withObject process caller h minusOne fun f => services.call (.read buffer size) f

def sysWrite (h buffer size : Nat) : Exec (State ω) Nat :=
  withObject process caller h minusOne fun f => services.call (.write buffer size) f

def sysOpendir (path flags : Nat) : Exec (State ω) Nat := do
  match ← serve (services.openDirectory path flags) with
  | none => pure errorHandle
  | some d => register caller ⟨.directory, d⟩

def sysClosedir (h : Nat) : Exec (State ω) Nat :=
  withObject process caller h minusOne fun d => do
    let _ ← services.call .closeDirectory d
    pure 0

def sysReaddir (h buffer : Nat) : Exec (State ω) Nat :=
  withObject process caller h 0 fun d => do
    let found ← services.call (.readEntry buffer) d
    pure (if found ≠ 0 then 1 else 0)

def sysExec (program args : Nat) : Exec (State ω) Nat := do
  match ← serve (services.launchProcess program args) with
  | none => pure errorHandle
  | some p => register caller ⟨.process, p⟩

def sysWaitProc (h : Nat) : Exec (State ω) Nat :=
  withObject process caller h minusOne fun p => do
    let _ ← services.call .awaitTermination p
    pure 0

/-- The offset of the stack is an `unsigned int` product. -/
def stackAddr (h : Nat) : Nat := 0x7fff00000000 + 0x2000 * (h % 2 ^ 32) % 2 ^ 32

def sysCreateThread (entryPoint arg : Nat) : Exec (State ω) Nat := do
  let t ← serve (services.createThread caller entryPoint)
  let h ← register caller ⟨.thread, t⟩
  serve fun world => ((), services.startThread t (stackAddr h) arg world)
  pure h

def sysStopThread (h : Nat) : Exec (State ω) Nat :=
  if h = 2 ^ 64 - 1 then do
    let _ ← services.call .stop ⟨.thread, caller⟩
    pure 0
  else withObject process caller h minusOne fun t => do
    let _ ← services.call .stop t
    pure 0

def sysJoinThread (h : Nat) : Exec (State ω) Nat :=
  withObject process caller h minusOne fun t => do
    let _ ← services.call .awaitStop t
    pure 0

/-- `plain` stands for the calls that do not touch objects: `sys_nop`, `sys_yield`, `sys_exit`,
`sys_usleep` and `sys_get_tod`. -/
inductive Call where
  | openFile (filename flags : Nat)
  | close (h : Nat)
  | read (h buffer size : Nat)
  | write (h buffer size : Nat)
  | opendir (path flags : Nat)
  | closedir (h : Nat)
  | readdir (h buffer : Nat)
  | exec (program args : Nat)
  | waitProc (h : Nat)
  | createThread (entryPoint arg : Nat)
  | stopThread (h : Nat)
  | joinThread (h : Nat)
  | plain (nr arg : Nat)
  deriving DecidableEq, Repr

def Call.run : Call → Exec (State ω) Nat
  | .openFile filename flags => sysOpen services caller filename flags
  | .close h => sysClose services process caller h
  | .read h buffer size => sysRead services process caller h buffer size
  | .write h buffer size => sysWrite services process caller h buffer size
  | .opendir path flags => sysOpendir services caller path flags
  | .closedir h => sysClosedir services process caller h
  | .readdir h buffer => sysReaddir services process caller h buffer
  | .exec program args => sysExec services caller program args
  | .waitProc h => sysWaitProc services process caller h
  | .createThread entryPoint arg => sysCreateThread services caller entryPoint arg
  | .stopThread h => sysStopThread services process caller h
  | .joinThread h => sysJoinThread services process caller h
  | .plain nr arg => serve (services.plain nr arg)

structure Step (ω : Type) where
  before : State ω
  caller : Ptr
  call : Call
  result : Nat
  after : State ω

/-- System calls one after another, each with the thread that makes it. -/
def runAll : List (Ptr × Call) → State ω → Except Fault (List (Step ω))
  | [], _ => .ok []
  | (caller, call) :: calls, s => do
      let (result, s') ← (call.run services process caller).run s
      let steps ← runAll calls s'
      .ok (⟨s, caller, call, result, s'⟩ :: steps)

end Calls

/-! ### What the calls should do with a handle -/

/-- The handle that a call takes, the method it calls on the object, the kind this method belongs
to, and the error result. -/
structure Use where
  handle : Nat
  method : Method
  kind : Kind
  error : Nat

def Call.use : Call → Option Use
  | .close h => some ⟨h, .closeFile, .file, minusOne⟩
  | .read h buffer size => some ⟨h, .read buffer size, .file, minusOne⟩
  | .write h buffer size => some ⟨h, .write buffer size, .file, minusOne⟩
  | .closedir h => some ⟨h, .closeDirectory, .directory, minusOne⟩
  | .readdir h buffer => some ⟨h, .readEntry buffer, .directory, 0⟩
  | .waitProc h => some ⟨h, .awaitTermination, .process, minusOne⟩
  | .stopThread h => if h = 2 ^ 64 - 1 then none else some ⟨h, .stop, .thread, minusOne⟩
  | .joinThread h => some ⟨h, .awaitStop, .thread, minusOne⟩
  | _ => none

section Meaning
variable {ω π : Type} [DecidableEq π]

/-- The object that was last registered under a handle, for the process that registered it. -/
def holder (process : Ptr → π) (s : State ω) (caller : Ptr) (h : Nat) : Option Object :=
  match s.registered.lookup h with
  | none => none
  | some d => if process d.owner ≠ process caller then none else d.object

/-- The object of the right kind is used, once; for anything else there is the error result and
nothing happens. A call without a handle uses no object, or the caller itself. -/
def Proper (process : Ptr → π) (step : Step ω) : Prop :=
  match step.call.use with
  | none =>
      step.after.used = step.before.used ∨
        step.call = .stopThread (2 ^ 64 - 1) ∧
          step.after.used = (.stop, ⟨.thread, step.caller⟩) :: step.before.used
  | some u =>
      (∃ object, holder process step.before step.caller u.handle = some object ∧
        object.kind = u.kind ∧ step.after.used = (u.method, object) :: step.before.used) ∨
      ((∀ object, holder process step.before step.caller u.handle = some object →
          object.kind ≠ u.kind) ∧
        step.result = u.error ∧ step.after = step.before)

/-- The handle does not belong to an object of the caller's process of another kind. -/
def Matching (process : Ptr → π) (step : Step ω) : Prop :=
  ∀ u, step.call.use = some u →
    ∀ object, holder process step.before step.caller u.handle = some object →
      object.kind = u.kind

end Meaning

section Table
variable {ω π : Type} {s : State ω}

/-- The table holds the last registration under each number. -/
structure Holds (s : State ω) : Prop where
  sound : s.om.objects.Sound
  objects : ∀ h, s.om.objects.tryGetValue h = s.registered.lookup h

theorem Holds.boot (world : ω) : Holds (boot world) := ⟨Map.empty_sound, fun _ => rfl⟩

variable [DecidableEq π] {process : Ptr → π} {services : Services ω} {caller : Ptr}

theorem Holds.getObjectSecure (h : Holds s) (handle : Nat) :
    getObjectSecure process s.om caller handle = holder process s caller handle := by
  rw [Om.getObjectSecure, h.objects, holder]
  cases s.registered.lookup handle <;> rfl

theorem Holds.register (h : Holds s) (caller : Ptr) (object : Object) :
    ∃ handle s', (register caller object).run s = .ok (handle, s') ∧ Holds s' ∧
      s'.used = s.used := by
  obtain ⟨objects, run, sound, values⟩ := Map.add_spec s.om.nextHandle
    (⟨caller, some object⟩ : ObjectDescriptor Ptr Object) h.sound
  have ran : registerObject caller (some object) s.om = .ok (s.om.nextHandle,
      ⟨(s.om.nextHandle + 1) % 2 ^ 64, objects⟩) := by
    rw [registerObject, run]
    rfl
  refine ⟨s.om.nextHandle, { s with
    om := ⟨(s.om.nextHandle + 1) % 2 ^ 64, objects⟩
    registered := (s.om.nextHandle, ⟨caller, some object⟩) :: s.registered }, ?_,
    ⟨sound, fun handle => ?_⟩, rfl⟩
  · rw [Syscall.register, bind_ok (run_get_eq s), ran]
    rfl
  · apply (congrFun values handle).trans
    rw [update_apply, List.lookup_cons]
    by_cases same : handle = s.om.nextHandle
    · rw [if_pos same, beq_iff_eq.mpr same]
    · rw [if_neg same, beq_false_of_ne same]
      exact h.objects handle

theorem Holds.of_same {s' : State ω} (h : Holds s) (om : s'.om = s.om)
    (registered : s'.registered = s.registered) : Holds s' :=
  ⟨om ▸ h.sound, by rw [om, registered]; exact h.objects⟩

/-- One method call was made on the object, and the table and its log stay. -/
structure Acted (s s' : State ω) (method : Method) (object : Object) : Prop where
  om : s'.om = s.om
  registered : s'.registered = s.registered
  used : s'.used = (method, object) :: s.used

theorem call_run (services : Services ω) (method : Method) (object : Object) (s : State ω) :
    ∃ r s', (services.call method object).run s = .ok (r, s') ∧ Acted s s' method object :=
  ⟨_, _, rfl, rfl, rfl, rfl⟩

theorem withObject_run (held : Holds s) (process : Ptr → π) (caller : Ptr) (h error : Nat)
    {method : Method} {act : Object → Exec (State ω) Nat}
    (acts : ∀ object, ∃ r s', (act object).run s = .ok (r, s') ∧ Acted s s' method object) :
    ∃ r s', (withObject process caller h error act).run s = .ok (r, s') ∧ Holds s' ∧
      ((∃ object, holder process s caller h = some object ∧
          s'.used = (method, object) :: s.used) ∨
        holder process s caller h = none ∧ r = error ∧ s' = s) := by
  have start : (withObject process caller h error act).run s =
      (match holder process s caller h with
        | none => pure error
        | some object => act object : Exec (State ω) Nat).run s := by
    rw [withObject, bind_ok (run_get_eq s), held.getObjectSecure]
  rw [start]
  cases holder process s caller h with
  | none => exact ⟨error, s, rfl, held, .inr ⟨rfl, rfl, rfl⟩⟩
  | some object =>
      obtain ⟨r, s', run, acted⟩ := acts object
      exact ⟨r, s', run, held.of_same acted.om acted.registered, .inl ⟨object, rfl, acted.used⟩⟩

theorem proper_iff {call : Call} {u : Use} {r : Nat} {s' : State ω} (uses : call.use = some u)
    (did : (∃ object, holder process s caller u.handle = some object ∧
        s'.used = (u.method, object) :: s.used) ∨
      holder process s caller u.handle = none ∧ r = u.error ∧ s' = s) :
    Proper process ⟨s, caller, call, r, s'⟩ ↔ Matching process ⟨s, caller, call, r, s'⟩ := by
  unfold Proper Matching
  simp only [uses, Option.some.injEq, forall_eq']
  rcases did with ⟨object, held, used⟩ | ⟨free, rfl, rfl⟩
  · simp only [held, Option.some.injEq, exists_eq_left', forall_eq']
    constructor
    · rintro (⟨kind, -⟩ | ⟨-, -, same⟩)
      · exact kind
      · rw [same] at used
        exact absurd (congrArg List.length used) (by simp)
    · exact fun kind => .inl ⟨kind, used⟩
  · simp [free]

theorem create_run (held : Holds s) (service : ω → Option Ptr × ω) (kind : Kind) :
    ∃ r s', (do
        match ← serve service with
        | none => pure errorHandle
        | some p => Syscall.register caller ⟨kind, p⟩ : Exec (State ω) Nat).run s = .ok (r, s') ∧
      Holds s' ∧ s'.used = s.used := by
  have served : (serve service).run s =
      .ok ((service s.world).1, { s with world := (service s.world).2 }) := rfl
  have held' : Holds { s with world := (service s.world).2 } := held.of_same rfl rfl
  rw [bind_ok served]
  cases (service s.world).1 with
  | none => exact ⟨errorHandle, _, rfl, held', rfl⟩
  | some p => exact held'.register caller ⟨kind, p⟩

theorem matching_of_no_use {call : Call} {r : Nat} {s' : State ω} (uses : call.use = none) :
    Matching process ⟨s, caller, call, r, s'⟩ := by
  intro u same
  rw [uses] at same
  cases same

theorem no_use_iff {call : Call} {r : Nat} {s' : State ω} (uses : call.use = none)
    (used : s'.used = s.used) :
    Proper process ⟨s, caller, call, r, s'⟩ ↔ Matching process ⟨s, caller, call, r, s'⟩ := by
  refine iff_of_true ?_ (matching_of_no_use uses)
  unfold Proper
  simp only [uses]
  exact .inl used

theorem use_run (held : Holds s) {call : Call} {u : Use} {act : Object → Exec (State ω) Nat}
    (uses : call.use = some u)
    (is : call.run services process caller = withObject process caller u.handle u.error act)
    (acts : ∀ object, ∃ r s', (act object).run s = .ok (r, s') ∧ Acted s s' u.method object) :
    ∃ r s', (call.run services process caller).run s = .ok (r, s') ∧ Holds s' ∧
      (Proper process ⟨s, caller, call, r, s'⟩ ↔ Matching process ⟨s, caller, call, r, s'⟩) := by
  obtain ⟨r, s', run, held', did⟩ := withObject_run held process caller u.handle u.error acts
  exact ⟨r, s', is ▸ run, held', proper_iff uses did⟩

theorem call_then_run (services : Services ω) (method : Method) (f : Nat → Nat) (s : State ω)
    (object : Object) :
    ∃ r s', (do
        let result ← services.call method object
        pure (f result) : Exec (State ω) Nat).run s = .ok (r, s') ∧ Acted s s' method object :=
  ⟨_, _, rfl, rfl, rfl, rfl⟩

theorem createThread_run (held : Holds s) (services : Services ω) (entryPoint arg : Nat) :
    ∃ r s', (sysCreateThread services caller entryPoint arg).run s = .ok (r, s') ∧ Holds s' ∧
      s'.used = s.used := by
  have served : (serve (services.createThread caller entryPoint)).run s =
      .ok ((services.createThread caller entryPoint s.world).1,
        { s with world := (services.createThread caller entryPoint s.world).2 }) := rfl
  rw [sysCreateThread, bind_ok served]
  have after : Holds { s with world := (services.createThread caller entryPoint s.world).2 } :=
    held.of_same rfl rfl
  obtain ⟨handle, s', run, held', used⟩ :=
    after.register caller ⟨.thread, (services.createThread caller entryPoint s.world).1⟩
  rw [bind_ok run]
  exact ⟨handle, _, rfl, held'.of_same rfl rfl, used⟩

/-- A system call returns, and does the right thing exactly when its handle matches. -/
theorem Holds.run (held : Holds s) (services : Services ω) (process : Ptr → π) (caller : Ptr)
    (call : Call) :
    ∃ r s', (call.run services process caller).run s = .ok (r, s') ∧ Holds s' ∧
      (Proper process ⟨s, caller, call, r, s'⟩ ↔ Matching process ⟨s, caller, call, r, s'⟩) := by
  cases call with
  | openFile filename flags =>
      obtain ⟨r, s', run, held', used⟩ := create_run held (services.openFile filename flags) .file
      exact ⟨r, s', run, held', no_use_iff rfl used⟩
  | opendir path flags =>
      obtain ⟨r, s', run, held', used⟩ := create_run held (services.openDirectory path flags)
        .directory
      exact ⟨r, s', run, held', no_use_iff rfl used⟩
  | exec program args =>
      obtain ⟨r, s', run, held', used⟩ := create_run held (services.launchProcess program args)
        .process
      exact ⟨r, s', run, held', no_use_iff rfl used⟩
  | createThread entryPoint arg =>
      obtain ⟨r, s', run, held', used⟩ := createThread_run held services entryPoint arg
      exact ⟨r, s', run, held', no_use_iff rfl used⟩
  | plain nr arg => exact ⟨_, _, rfl, held.of_same rfl rfl, no_use_iff rfl rfl⟩
  | close h => exact use_run held rfl rfl (call_then_run services _ (fun _ => 0) s)
  | read h buffer size => exact use_run held rfl rfl fun f => call_run services _ f s
  | write h buffer size => exact use_run held rfl rfl fun f => call_run services _ f s
  | closedir h => exact use_run held rfl rfl (call_then_run services _ (fun _ => 0) s)
  | readdir h buffer =>
      exact use_run held rfl rfl
        (call_then_run services _ (fun found => if found ≠ 0 then 1 else 0) s)
  | waitProc h => exact use_run held rfl rfl (call_then_run services _ (fun _ => 0) s)
  | joinThread h => exact use_run held rfl rfl (call_then_run services _ (fun _ => 0) s)
  | stopThread h =>
      by_cases self : h = 2 ^ 64 - 1
      · subst self
        have uses : (Call.stopThread (2 ^ 64 - 1)).use = none := by rw [Call.use, if_pos rfl]
        obtain ⟨r, s', run, acted⟩ :=
          call_then_run services .stop (fun _ => 0) s ⟨.thread, caller⟩
        refine ⟨r, s', ?_, held.of_same acted.om acted.registered,
          iff_of_true ?_ (matching_of_no_use uses)⟩
        · rw [Call.run, sysStopThread, if_pos rfl]
          exact run
        · unfold Proper
          rw [uses]
          exact .inr ⟨rfl, acted.used⟩
      · refine use_run held (u := ⟨h, .stop, .thread, minusOne⟩) (if_neg self) ?_
          (call_then_run services _ (fun _ => 0) s)
        rw [Call.run, sysStopThread, if_neg self]

theorem runAll_iff (services : Services ω) (process : Ptr → π) (calls : List (Ptr × Call))
    (held : Holds s) :
    ∃ steps, runAll services process calls s = .ok steps ∧
      steps.map (fun step => (step.caller, step.call)) = calls ∧
      ∀ step ∈ steps, (Proper process step ↔ Matching process step) := by
  induction calls generalizing s with
  | nil => exact ⟨[], rfl, rfl, nofun⟩
  | cons first calls ih =>
      obtain ⟨caller, call⟩ := first
      obtain ⟨r, s', run, held', same⟩ := held.run services process caller call
      obtain ⟨steps, ran, calls_eq, all⟩ := ih held'
      refine ⟨⟨s, caller, call, r, s'⟩ :: steps, ?_, ?_, ?_⟩
      · rw [runAll, run]
        change (do let steps ← runAll services process calls s'; Except.ok (_ :: steps)) = _
        rw [ran]
        rfl
      · rw [List.map_cons, calls_eq]
      · exact List.forall_mem_cons.mpr ⟨same, all⟩

end Table

/-- In every run from boot, by any threads and with any handles: each call uses its handle as it
should if and only if no call is given a handle of its own process for an object of another
kind. -/
theorem handles_typed_iff {ω π : Type} [DecidableEq π] (services : Services ω) (process : Ptr → π)
    (world : ω) (calls : List (Ptr × Call)) :
    ∃ steps, runAll services process calls (boot world) = .ok steps ∧
      steps.map (fun step => (step.caller, step.call)) = calls ∧
      ((∀ step ∈ steps, Proper process step) ↔ ∀ step ∈ steps, Matching process step) := by
  obtain ⟨steps, run, same, all⟩ := runAll_iff services process calls (Holds.boot world)
  exact ⟨steps, run, same, forall₂_congr all⟩

/-- Every path names the directory at address 0. -/
def oneDirectory : Services Unit where
  openFile _ _ _ := (none, ())
  openDirectory _ _ _ := (some 0, ())
  launchProcess _ _ _ := (none, ())
  createThread _ _ _ := (0, ())
  startThread _ _ _ _ := ()
  invoke _ _ _ := (0, ())
  plain _ _ _ := (0, ())

/-- `sys_read` on the handle from `sys_opendir` calls `File::read` on a directory. -/
theorem directory_read_as_file :
    ∃ steps, runAll oneDirectory id [(0, .opendir 0 0), (0, .read 1 0 0)] (boot ()) = .ok steps ∧
      ∃ step ∈ steps, ¬ Proper id step := by
  refine ⟨_, rfl, _, List.mem_cons_of_mem _ List.mem_cons_self, ?_⟩
  rintro (⟨object, held, kind, -⟩ | ⟨-, -, same⟩)
  · cases held
    cases kind
  · exact absurd (congrArg (fun s => s.used.length) same) (by decide)

end Infos.Kernel.Syscall
