import Infos.Kernel.Sched

/-!
# Processes
-/
namespace Infos.Kernel
open Infos.Lib Function

def Process.withThread (p : Process) (t : EntityId) (fresh : t ∉ p.threads) : Process :=
  { p with
    threads := p.threads ++ [t]
    nodup := List.nodup_append'.mpr
      ⟨p.nodup, List.nodup_singleton t, List.disjoint_singleton.mpr fresh⟩ }

def State.withProcess (s : State) (p : Nat) (process : Process) : State :=
  { s with processes := update s.processes p process }

/-- `t` is the address of the new thread, which no other thread of the process has. -/
def createThread (p : Nat) (privilege : ThreadPrivilege) (t : EntityId) : Exec State Unit := do
  let s ← get
  assertThat (!((s.processes p).kernelProcess && privilege == .user))
  if fresh : t ∉ (s.processes p).threads then
    set (s.withProcess p ((s.processes p).withThread t fresh))
  else throw .aborted

/-- How a call ends for the thread that makes it. -/
inductive Outcome where
  | returned
  | descheduled
  deriving DecidableEq, Repr

/-- The loop of `terminate`, run by `caller` until it loses the processor. -/
def stopThreads (fuel : Nat) (caller : Option EntityId) : List EntityId → Exec State Outcome
  | [] => pure .returned
  | thread :: rest => do
      Thread.stop fuel thread
      if (← get).currentThread = caller then stopThreads fuel caller rest
      else pure .descheduled

def terminate (fuel : Nat) (p : Nat) : Exec State Outcome := do
  modify fun s => s.withProcess p { s.processes p with terminated := true }
  Event.trigger fuel (.process p)
  let s ← get
  stopThreads fuel s.currentThread (s.processes p).threads

end Infos.Kernel
