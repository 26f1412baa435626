import Infos.Kernel.Syscall
import Mathlib.Order.CompletePartialOrder
import Mathlib.Order.Interval.Set.Disjoint

/-!
# Stacks of user threads

`sys_create_thread` places the stack of a thread by its handle. Handles come from one counter
for all objects of all processes.
-/
namespace Infos.Kernel.Syscall
open Infos.Lib Infos.Kernel.Om

/-- What `allocate_virt` is asked for, and the stack pointer in the native context. -/
structure UserStack where
  vaddr : Nat
  nrPages : Nat
  rsp : Nat
  deriving DecidableEq, Repr

def alignUpPage (value : Nat) : Nat := (value + 4095) / 4096 * 4096

/-- `Thread::allocate_user_stack` -/
def allocateUserStack (vaddr size : Nat) : UserStack :=
  { vaddr, nrPages := alignUpPage size >>> 12, rsp := (vaddr + size) % 2 ^ 64 }

/-- The addresses of the pages. -/
def UserStack.range (stack : UserStack) : Set Nat :=
  Set.Ico stack.vaddr (stack.vaddr + 0x1000 * stack.nrPages)

/-- The stacks that threads were given, the latest first, and the rest of the kernel. -/
structure World (ω : Type) where
  rest : ω
  userStacks : List (Ptr × UserStack)

section Model
variable {ω π : Type}

def onRest {ρ : Type} (service : ω → ρ × ω) (world : World ω) : ρ × World ω :=
  let (result, rest) := service world.rest
  (result, { world with rest })

/-- A started thread has its user stack. -/
def withStacks (services : Services ω) : Services (World ω) where
  openFile filename flags := onRest (services.openFile filename flags)
  openDirectory path flags := onRest (services.openDirectory path flags)
  launchProcess program args := onRest (services.launchProcess program args)
  createThread owner entryPoint := onRest (services.createThread owner entryPoint)
  startThread t stackAddr arg world :=
    { rest := services.startThread t stackAddr arg world.rest
      userStacks := (t, allocateUserStack stackAddr 0x2000) :: world.userStacks }
  invoke method ptr := onRest (services.invoke method ptr)
  plain nr arg := onRest (services.plain nr arg)

def Call.Creates (call : Call) : Prop :=
  ∃ entryPoint arg, call = .createThread entryPoint arg

/-- The step creates a thread with this stack. -/
structure Stacked (step : Step (World ω)) (stack : UserStack) : Prop where
  creates : step.call.Creates
  mapped : ∃ t, step.after.world.userStacks = (t, stack) :: step.before.world.userStacks

/-- The stack belongs at the place of the handle. -/
def placeOf (h : Nat) : Set Nat := Set.Ico (0x7fff00000000 + 0x2000 * h)
  (0x7fff00000000 + 0x2000 * h + 0x2000)

/-- Each new thread has a stack at the place of its handle. -/
def Placed (steps : List (Step (World ω))) : Prop :=
  ∀ step ∈ steps, step.call.Creates →
    ∃ stack, Stacked step stack ∧ stack.range = placeOf step.result

/-- Each new thread has a stack and starts at the end of it. -/
def AtTheEnd (steps : List (Step (World ω))) : Prop :=
  ∀ step ∈ steps, step.call.Creates →
    ∃ stack, Stacked step stack ∧ stack.rsp = stack.vaddr + 0x1000 * stack.nrPages

/-- Threads of one process with different handles have stacks apart from each other. -/
def Apart (process : Ptr → π) (steps : List (Step (World ω))) : Prop :=
  ∀ a ∈ steps, ∀ b ∈ steps, process a.caller = process b.caller → a.result ≠ b.result →
    ∀ stack stack', Stacked a stack → Stacked b stack' → Disjoint stack.range stack'.range

/-- The handles that are next where threads are created, in one process, differ in the low 19
bits or not at all. -/
def LowBitsDiffer (process : Ptr → π) (steps : List (Step (World ω))) : Prop :=
  ∀ a ∈ steps, ∀ b ∈ steps, process a.caller = process b.caller → a.call.Creates →
    b.call.Creates → a.before.om.nextHandle ≠ b.before.om.nextHandle →
    a.before.om.nextHandle % 2 ^ 19 ≠ b.before.om.nextHandle % 2 ^ 19

end Model

section Steps
variable {ω π : Type} [DecidableEq π] {services : Services ω} {process : Ptr → π}
  {steps : List (Step (World ω))} {step : Step (World ω)}

theorem of_runAll_cons {ω : Type} {services : Services ω} {caller : Ptr} {call : Call}
    {calls : List (Ptr × Call)} {s : State ω} {steps : List (Step ω)}
    (run : runAll services process ((caller, call) :: calls) s = .ok steps) :
    ∃ r s' later, (call.run services process caller).run s = .ok (r, s') ∧
      runAll services process calls s' = .ok later ∧
      steps = ⟨s, caller, call, r, s'⟩ :: later := by
  rw [runAll] at run
  cases ran : (call.run services process caller).run s with
  | error e =>
      rw [ran] at run
      cases run
  | ok p =>
      obtain ⟨r, s'⟩ := p
      rw [ran] at run
      change (do let steps ← runAll services process calls s'; Except.ok (_ :: steps)) = _ at run
      cases rest : runAll services process calls s' with
      | error e =>
          rw [rest] at run
          cases run
      | ok later =>
          rw [rest] at run
          cases run
          exact ⟨r, s', later, rfl, rest, rfl⟩

theorem step_run {ω : Type} {services : Services ω} {calls : List (Ptr × Call)} {s : State ω}
    {steps : List (Step ω)} (run : runAll services process calls s = .ok steps) :
    ∀ step ∈ steps, (step.call.run services process step.caller).run step.before =
      .ok (step.result, step.after) := by
  induction calls generalizing s steps with
  | nil =>
      cases run
      exact nofun
  | cons first calls ih =>
      obtain ⟨r, s', later, ran, rest, rfl⟩ := of_runAll_cons run
      exact List.forall_mem_cons.mpr ⟨ran, ih rest⟩

theorem register_run {ω : Type} {s s' : State ω} {caller : Ptr} {object : Object} {h : Nat}
    (run : (register caller object).run s = .ok (h, s')) :
    h = s.om.nextHandle ∧ s'.om.nextHandle = (s.om.nextHandle + 1) % 2 ^ 64 ∧
      s'.world = s.world := by
  rw [register, bind_ok (run_get_eq s)] at run
  obtain ⟨⟨h', om⟩, s₁, lifted, rest⟩ := of_bind_ok run
  cases added : s.om.objects.add s.om.nextHandle
      (⟨caller, some object⟩ : ObjectDescriptor Ptr Object) with
  | error e =>
      rw [registerObject, added] at lifted
      cases lifted
  | ok objects =>
      rw [registerObject, added] at lifted
      cases lifted
      cases rest
      exact ⟨rfl, rfl, rfl⟩

/-- A created thread gets the next handle, and its stack is placed by this handle. -/
theorem sysCreateThread_run {s s' : State (World ω)} {caller : Ptr} {entryPoint arg h : Nat}
    (run : (sysCreateThread (withStacks services) caller entryPoint arg).run s = .ok (h, s')) :
    h = s.om.nextHandle ∧ s'.om.nextHandle = (s.om.nextHandle + 1) % 2 ^ 64 ∧
      ∃ t, s'.world.userStacks =
        (t, allocateUserStack (stackAddr s.om.nextHandle) 0x2000) :: s.world.userStacks := by
  rw [sysCreateThread] at run
  obtain ⟨t, s₁, created, run⟩ := of_bind_ok run
  obtain ⟨h', s₂, registered, run⟩ := of_bind_ok run
  cases created
  obtain ⟨rfl, next, world⟩ := register_run registered
  cases run
  refine ⟨rfl, next, (services.createThread caller entryPoint s.world.rest).1, ?_⟩
  change _ :: s₂.world.userStacks = _
  rw [world]

theorem stacked_iff
    (run : (step.call.run (withStacks services) process step.caller).run step.before =
      .ok (step.result, step.after)) (creates : step.call.Creates) (stack : UserStack) :
    (Stacked step stack ↔ stack = allocateUserStack (stackAddr step.result) 0x2000) ∧
      step.result = step.before.om.nextHandle := by
  obtain ⟨entryPoint, arg, call⟩ := creates
  rw [call] at run
  obtain ⟨handle, -, t, mapped⟩ := sysCreateThread_run run
  rw [← handle] at mapped
  refine ⟨⟨?_, ?_⟩, handle⟩
  · rintro ⟨-, t', same⟩
    rw [mapped] at same
    cases same
    rfl
  · rintro rfl
    exact ⟨⟨entryPoint, arg, call⟩, t, mapped⟩

end Steps

section Places

/-- The product counts the handle modulo 2^19. -/
theorem stackAddr_eq (h : Nat) : stackAddr h = 0x7fff00000000 + 0x2000 * (h % 2 ^ 19) := by
  rw [stackAddr]
  omega

theorem range_eq (h : Nat) :
    (allocateUserStack (stackAddr h) 0x2000).range = placeOf (h % 2 ^ 19) := by
  rw [stackAddr_eq]
  rfl

theorem rsp_eq (h : Nat) : (allocateUserStack (stackAddr h) 0x2000).rsp =
    stackAddr h + 0x1000 * (allocateUserStack (stackAddr h) 0x2000).nrPages := by
  have bound : stackAddr h + 0x2000 < 2 ^ 64 := by
    rw [stackAddr_eq]
    omega
  exact Nat.mod_eq_of_lt bound

theorem placeOf_disjoint_iff (h h' : Nat) : Disjoint (placeOf h) (placeOf h') ↔ h ≠ h' := by
  rw [placeOf, placeOf, Set.Ico_disjoint_Ico]
  omega

theorem placeOf_inj {h h' : Nat} : placeOf h = placeOf h' ↔ h = h' := by
  refine ⟨fun same => ?_, congrArg placeOf⟩
  by_contra ne
  have apart := (placeOf_disjoint_iff h h').mpr ne
  rw [same, disjoint_self] at apart
  exact (Set.nonempty_Ico.mpr (by omega)).ne_empty apart

end Places

section Runs
variable {ω π : Type} [DecidableEq π] {services : Services ω} {process : Ptr → π}
  {steps : List (Step (World ω))}

/-- The steps are runs of their calls. -/
def Executed (services : Services ω) (process : Ptr → π) (steps : List (Step ω)) : Prop :=
  ∀ step ∈ steps, (step.call.run services process step.caller).run step.before =
    .ok (step.result, step.after)

theorem placed_iff (ran : Executed (withStacks services) process steps) :
    Placed steps ↔
      ∀ step ∈ steps, step.call.Creates → step.before.om.nextHandle < 2 ^ 19 := by
  refine forall₃_congr fun step mem creates => ?_
  obtain ⟨handle, _⟩ := stacked_iff (ran step mem) creates
    (allocateUserStack (stackAddr step.result) 0x2000)
  simp only [(stacked_iff (ran step mem) creates _).1, exists_eq_left, range_eq, placeOf_inj]
  rw [(stacked_iff (ran step mem) creates ⟨0, 0, 0⟩).2]
  omega

theorem atTheEnd (ran : Executed (withStacks services) process steps) : AtTheEnd steps := by
  intro step mem creates
  have stacked := (stacked_iff (ran step mem) creates _).1.mpr rfl
  exact ⟨_, stacked, rsp_eq _⟩

theorem apart_iff (ran : Executed (withStacks services) process steps) :
    Apart process steps ↔ LowBitsDiffer process steps := by
  constructor
  · intro apart a ha b hb same creates creates' ne
    obtain ⟨stacked, handle⟩ := stacked_iff (ran a ha) creates
      (allocateUserStack (stackAddr a.result) 0x2000)
    obtain ⟨stacked', handle'⟩ := stacked_iff (ran b hb) creates'
      (allocateUserStack (stackAddr b.result) 0x2000)
    rw [← handle, ← handle'] at ne ⊢
    have disjoint := apart a ha b hb same ne _ _ (stacked.mpr rfl) (stacked'.mpr rfl)
    rwa [range_eq, range_eq, placeOf_disjoint_iff] at disjoint
  · intro differ a ha b hb same ne stack stack' stacked stacked'
    obtain ⟨is, handle⟩ := stacked_iff (ran a ha) stacked.creates stack
    obtain ⟨is', handle'⟩ := stacked_iff (ran b hb) stacked'.creates stack'
    have low := differ a ha b hb same stacked.creates stacked'.creates
    rw [← handle, ← handle'] at low
    rw [is.mp stacked, is'.mp stacked', range_eq, range_eq, placeOf_disjoint_iff]
    exact low ne

/-- Directories that are opened one after another move the counter on. -/
theorem directories_run (caller : Ptr) (calls : List (Ptr × Call)) (n : Nat)
    {s : State (World Unit)} {steps : List (Step (World Unit))}
    (run : runAll (withStacks oneDirectory) process
      (List.replicate n (caller, .opendir 0 0) ++ calls) s = .ok steps)
    (few : s.om.nextHandle + n < 2 ^ 64) :
    ∃ s' later, runAll (withStacks oneDirectory) process calls s' = .ok later ∧ later ⊆ steps ∧
      s'.om.nextHandle = s.om.nextHandle + n := by
  induction n generalizing s steps with
  | zero => exact ⟨s, steps, run, List.Subset.refl _, rfl⟩
  | succ n ih =>
      obtain ⟨r, s₁, rest, opened, run', rfl⟩ := of_runAll_cons run
      obtain ⟨_, next, _⟩ := register_run
        (opened : (register caller ⟨.directory, 0⟩).run { s with world := _ } = .ok (r, s₁))
      rw [Nat.mod_eq_of_lt (by omega)] at next
      obtain ⟨s', later, last, within, handle⟩ := ih run' (by omega)
      exact ⟨s', later, last, fun _ mem => List.mem_cons_of_mem _ (within mem), by omega⟩

end Runs

/-- In every run from boot, by any threads of any processes: the new threads have the stacks of
their handles if and only if the counter is below 2^19 wherever a thread is created. They have
stacks apart from each other if and only if no two of the handles in one process agree in their
low 19 bits; they start at the end of what they have in any case. -/
theorem stacks_iff {ω π : Type} [DecidableEq π] (services : Services ω) (process : Ptr → π)
    (rest : ω) (calls : List (Ptr × Call)) :
    ∃ steps, runAll (withStacks services) process calls (boot ⟨rest, []⟩) = .ok steps ∧
      steps.map (fun step => (step.caller, step.call)) = calls ∧
      (Placed steps ∧ Apart process steps ∧ AtTheEnd steps ↔
        ∀ step ∈ steps, step.call.Creates → step.before.om.nextHandle < 2 ^ 19) ∧
      (Apart process steps ∧ AtTheEnd steps ↔ LowBitsDiffer process steps) := by
  obtain ⟨steps, run, same, -⟩ :=
    runAll_iff (withStacks services) process calls (Holds.boot ⟨rest, []⟩)
  have ran : Executed (withStacks services) process steps := step_run run
  have ends := atTheEnd ran
  refine ⟨steps, run, same, ?_, by rw [apart_iff ran, and_iff_left ends]⟩
  rw [placed_iff ran, apart_iff ran, and_iff_left ends, and_iff_left_iff_imp]
  intro low a ha b hb _ creates creates' ne
  rwa [Nat.mod_eq_of_lt (low a ha creates), Nat.mod_eq_of_lt (low b hb creates')]

/-- Thread 0 creates a thread, opens directories and creates another thread. -/
def twoThreads : List (Ptr × Call) :=
  (0, .createThread 0 0) :: (List.replicate (2 ^ 19 - 1) (0, .opendir 0 0) ++
    [(0, .createThread 0 0)])

/-- With 2^19 - 1 directories between them both threads have the same stack. -/
theorem stacks_shared : ∃ steps,
    runAll (withStacks oneDirectory) id twoThreads (boot ⟨(), []⟩) = .ok steps ∧
      ¬ Apart id steps := by
  obtain ⟨steps, run, -, -⟩ :=
    runAll_iff (withStacks oneDirectory) id twoThreads (Holds.boot ⟨(), []⟩)
  refine ⟨steps, run, fun apart => ?_⟩
  obtain ⟨r, s₁, rest, created, run', rfl⟩ := of_runAll_cons run
  have second : s₁.om.nextHandle = 2 := (sysCreateThread_run created).2.1
  obtain ⟨s₂, later, last, within, handle⟩ :=
    directories_run 0 [(0, .createThread 0 0)] (2 ^ 19 - 1) run' (by rw [second]; decide)
  obtain ⟨r', s₃, _, _, _, rfl⟩ := of_runAll_cons last
  have differ := (apart_iff (step_run run)).mp apart _ List.mem_cons_self _
    (List.mem_cons_of_mem _ (within List.mem_cons_self)) rfl ⟨0, 0, rfl⟩ ⟨0, 0, rfl⟩
  dsimp only at differ
  rw [handle, second] at differ
  exact differ (by decide) (by decide)

end Infos.Kernel.Syscall
