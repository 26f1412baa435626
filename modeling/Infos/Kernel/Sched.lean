import Infos.Lib.Exec
import Mathlib.Data.List.Nodup

/-!
# The scheduler, threads and events

A change of an entity's state triggers its `state_changed` event, which wakes
the threads waiting on it, which changes their states in turn.
-/
namespace Infos.Kernel
open Infos.Lib Function

inductive SchedulingEntityState where
  | stopped
  | sleeping
  | runnable
  | running
  deriving DecidableEq, Repr

/-- The address of a scheduling entity; every entity is a thread. -/
abbrev EntityId := Nat

structure SchedulingEntity where
  cpuRuntime : UInt64
  execStartTime : UInt64
  state : SchedulingEntityState

inductive EventId where
  /-- `state_changed` of an entity. -/
  | entity (e : EntityId)
  /-- `state_changed` of a process. -/
  | process (p : Nat)
  | other (n : Nat)
  deriving DecidableEq, Repr

inductive SchedulingAlgorithm where
  | rr
  | fifo
  | cfs
  deriving DecidableEq, Repr

inductive ThreadPrivilege where
  | kernel
  | user
  deriving DecidableEq, Repr

/-- The threads of a process are separate objects. -/
structure Process where
  kernelProcess : Bool
  terminated : Bool
  threads : List EntityId
  nodup : threads.Nodup

/-- `runqueue` are the nodes of the chosen algorithm's list, `waiters` the wake queues of all
events, `currentThread` the thread the processor returns to, `processes` the process objects. -/
structure State where
  active : Bool
  algorithm : Option SchedulingAlgorithm
  current : Option EntityId
  idleEntity : EntityId
  runqueue : List EntityId
  entities : EntityId → SchedulingEntity
  waiters : EventId → List EntityId
  currentThread : Option EntityId
  processes : Nat → Process
  runtime : UInt64

def State.boot : State where
  active := false
  algorithm := none
  current := none
  idleEntity := 0
  runqueue := []
  entities := fun _ => ⟨0, 0, .stopped⟩
  waiters := fun _ => []
  currentThread := none
  processes := fun _ => ⟨false, false, [], List.nodup_nil⟩
  runtime := 0

def State.stateOf (s : State) (e : EntityId) : SchedulingEntityState := (s.entities e).state

/-- `count()` of the run queue. `_count` is an `unsigned int` that moves by one with every node
that comes or goes. -/
def State.count (s : State) : Nat := s.runqueue.length % 2 ^ 32

/-- `first()` of the run queue: `assert(_elems)`. -/
def State.first (s : State) : Exec State (Option EntityId) :=
  match s.runqueue with
  | [] => throw .assertion
  | front :: _ => pure (some front)

/-! ### Algorithms -/

def addToRunqueue (e : EntityId) : Exec State Unit :=
  modify fun s => { s with runqueue := s.runqueue ++ [e] }

/-- `List::remove` takes out the first node with this element, if any. -/
def removeFromRunqueue (e : EntityId) : Exec State Unit :=
  modify fun s => { s with runqueue := s.runqueue.erase e }

/-- The scan of the completely fair scheduler, with the best entity so far. -/
def minRuntimeEntity (cpuRuntime : EntityId → UInt64) :
    List EntityId → Option (EntityId × UInt64) → Option EntityId
  | [], best => best.map Prod.fst
  | e :: rest, none => minRuntimeEntity cpuRuntime rest (some (e, cpuRuntime e))
  | e :: rest, some (b, least) =>
      if cpuRuntime e < least then minRuntimeEntity cpuRuntime rest (some (e, cpuRuntime e))
      else minRuntimeEntity cpuRuntime rest (some (b, least))

/-- All three ask the counter, not the nodes, whether there is anything to run. -/
def pickNextEntity : SchedulingAlgorithm → Exec State (Option EntityId)
  | .rr => do
      let s ← get
      if s.count = 0 then pure none
      else
        match s.runqueue with
        | [] => throw .assertion
        | next :: rest => do
            modify fun s => { s with runqueue := rest ++ [next] }
            pure (some next)
  | .fifo => do
      let s ← get
      if s.count = 0 then pure none else s.first
  | .cfs => do
      let s ← get
      if s.count = 0 then pure none
      else if s.count = 1 then s.first
      else pure (minRuntimeEntity (fun e => (s.entities e).cpuRuntime) s.runqueue none)

/-! ### State changes -/

def recordState (e : EntityId) (state : SchedulingEntityState) : Exec State Unit :=
  modify fun s => { s with entities := update s.entities e { s.entities e with state } }

/-- The loop of `WakeQueue::wake`. A nested `wake` of the same queue frees the node the
iterator stands on. -/
def wakeLoop (wakeUp : EntityId → Exec State Unit) (ev : EventId) :
    List EntityId → Exec State Unit
  | [] => pure ()
  | waiter :: rest => do
      wakeUp waiter
      if (← get).waiters ev = [] then throw .useAfterFree else wakeLoop wakeUp ev rest

def wake (wakeUp : EntityId → Exec State Unit) (ev : EventId) : Exec State Unit := do
  wakeLoop wakeUp ev ((← get).waiters ev)
  modify fun s => { s with waiters := update s.waiters ev [] }

/-- The conditions that `set_entity_state` checks before it records the new state. -/
def updateRunqueue (e : EntityId) (old new : SchedulingEntityState) : Exec State Unit :=
  match new with
  | .runnable => if old = .stopped ∨ old = .sleeping then addToRunqueue e else pure ()
  | .stopped => if old = .runnable ∨ old = .running then removeFromRunqueue e else pure ()
  | .sleeping => if old = .runnable ∨ old = .running then removeFromRunqueue e else pure ()
  | .running => assertThat (old == .runnable)

/-- `fuel` bounds the depth of nested wake-ups. -/
def setEntityState : Nat → EntityId → SchedulingEntityState → Exec State Unit
  | 0, _, _ => throw .outOfFuel
  | fuel + 1, e, state => do
      assertThat (← get).algorithm.isSome
      let old := (← get).stateOf e
      if old = state then pure ()
      else do
        updateRunqueue e old state
        recordState e state
        wake (fun waiter => setEntityState fuel waiter .runnable) (.entity e)

/-! ### Scheduling -/

def activate (e : EntityId) (prev : Option EntityId) : Exec State Bool := do
  assertThat ((← get).stateOf e == .runnable)
  if prev = some e then pure true
  else do
    modify fun s => { s with currentThread := some e }
    pure true

def setCurrent (e : EntityId) : Exec State Unit := modify fun s => { s with current := some e }

/-- The part of `schedule` that switches to `next`. -/
def switchTo (next : EntityId) : Exec State Unit := do
  if ← activate next (← get).current then setCurrent next
  else do
    let idle := (← get).idleEntity
    if ← activate idle (← get).current then setCurrent idle else throw .aborted

/-- `_current->update_exec_start_time(owner().runtime());` -/
def updateExecStartTime : Exec State Unit := do
  match (← get).current with
  | none => throw .nullDeref
  | some e =>
      modify fun s =>
        { s with entities := update s.entities e { s.entities e with execStartTime := s.runtime } }

def schedule : Exec State Unit := do
  let s ← get
  if s.active = false then pure ()
  else
    match s.algorithm with
    | none => pure ()
    | some algorithm => do
        let next := (← pickNextEntity algorithm).getD s.idleEntity
        if some next ≠ s.current then switchTo next
        updateExecStartTime

/-- `operator-` of `Duration` subtracts its left operand. -/
def Duration.sub (l r : UInt64) : UInt64 := r - l

/-- `operator-` of `TimepointImpl` swaps its operands once more. -/
def Timepoint.sub (lhs rhs : UInt64) : UInt64 := Duration.sub rhs lhs

def updateRuntime (ticks : UInt64) : Exec State Unit :=
  modify fun s => { s with runtime := s.runtime + ticks }

def updateAccounting : Exec State Unit := do
  match (← get).current with
  | none => pure ()
  | some e =>
      modify fun s =>
        let old := s.entities e
        let delta := Timepoint.sub s.runtime old.execStartTime
        let new := { old with cpuRuntime := old.cpuRuntime + delta, execStartTime := s.runtime }
        { s with entities := update s.entities e new }

/-- `Scheduler::init`: `idle` is the main thread of the new idle process, `algo` what was found
under the name on the command line. -/
def init (fuel : Nat) (idle : EntityId) (algo : Option SchedulingAlgorithm) :
    Exec State Bool := do
  modify fun s => { s with idleEntity := idle }
  match algo with
  | none => pure false
  | some algorithm => do
      modify fun s => { s with algorithm := some algorithm }
      setEntityState fuel idle .runnable
      let _ ← activate idle none
      removeFromRunqueue idle
      pure true

/-- `Scheduler::run` up to its endless loop. -/
def run : Exec State Unit := modify fun s => { s with active := true }

/-! ### Threads and events -/

def Thread.start (fuel : Nat) (t : EntityId) : Exec State Unit := setEntityState fuel t .runnable

/-- The change of state, then a yield if the thread is the running one. -/
def Thread.change (fuel : Nat) (t : EntityId) (state : SchedulingEntityState) :
    Exec State Unit := do
  setEntityState fuel t state
  if (← get).currentThread = some t then schedule

def Thread.stop (fuel : Nat) (t : EntityId) : Exec State Unit := Thread.change fuel t .stopped

def Thread.sleep (fuel : Nat) (t : EntityId) : Exec State Unit := Thread.change fuel t .sleeping

def Thread.wakeUp (fuel : Nat) (t : EntityId) : Exec State Unit := setEntityState fuel t .runnable

def Event.trigger (fuel : Nat) (ev : EventId) : Exec State Unit := wake (Thread.wakeUp fuel) ev

def WakeQueue.sleep (fuel : Nat) (ev : EventId) (t : EntityId) : Exec State Unit := do
  modify fun s => { s with waiters := update s.waiters ev (s.waiters ev ++ [t]) }
  Thread.sleep fuel t

/-- `wait` is a call of the running thread. -/
def Event.wait (fuel : Nat) (ev : EventId) : Exec State Unit := do
  match (← get).currentThread with
  | none => throw .nullDeref
  | some t => WakeQueue.sleep fuel ev t

end Infos.Kernel
