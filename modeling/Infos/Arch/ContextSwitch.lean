import Infos.Lib.Exec
import Infos.Lib.SaveAreas

/-!
# Interrupts and context switches

The entry code of `trap.S`, what `set_current_thread` switches, and the stack a thread starts
with. A handler is C code: it leaves the registers and memory as it likes, but not the contexts
that are saved.
-/
namespace Infos.Arch.ContextSwitch
open Infos.Lib Infos.Lib.SaveAreas Function

abbrev ThreadId := Nat

inductive Gpr where
  | rax | rbx | rcx | rdx | rsi | rdi | rbp | r8 | r9 | r10 | r11 | r12 | r13 | r14 | r15
  deriving DecidableEq

/-- The order in which `save_context` pushes them. -/
def saveOrder : List Gpr :=
  [.rax, .rbx, .rcx, .rdx, .rsi, .rdi, .rbp, .r8, .r9, .r10, .r11, .r12, .r13, .r14, .r15]

structure Cpu where
  gpr : Gpr → UInt64
  rip : UInt64
  cs : UInt64
  rflags : UInt64
  rsp : UInt64
  ss : UInt64

def Cpu.User (cpu : Cpu) : Prop := cpu.cs &&& 3 = 3

instance (cpu : Cpu) : Decidable cpu.User := inferInstanceAs (Decidable (_ = _))

/-- `X86Context` behind its `previous_context`. -/
structure X86Context where
  cpu : Cpu
  extra : UInt64

def X86Context.words (c : X86Context) : List UInt64 :=
  saveOrder.reverse.map c.cpu.gpr ++
    [c.extra, c.cpu.rip, c.cpu.cs, c.cpu.rflags, c.cpu.rsp, c.cpu.ss]

/-- `sizeof(X86Context)` in words -/
def contextWords : Nat := 22

structure ThreadContext where
  /-- Where the `ThreadContext` itself lies. -/
  address : UInt64
  nativeContext : UInt64
  kernelStack : UInt64

/-- `handlers` has for each thread the handlers in progress on its stack, the latest first, each
by what `Thread::current().context().native_context` is when it starts. `leaving` is set from
`set_current_thread` to the end of the handler that calls it. -/
structure Machine where
  cpu : Cpu
  mem : Words
  cr3 : UInt64
  rsp0 : UInt64
  irqEntryPoints : UInt8 → UInt64
  currentThread : Option ThreadId
  contexts : ThreadId → Option ThreadContext
  pgtBase : ThreadId → UInt64
  entryArguments : ThreadId → Nat
  handlers : ThreadId → List UInt64
  leaving : Bool

namespace Machine

def stack (m : Machine) : Stack := { mem := m.mem, sp := m.cpu.rsp }

/-! ### Entry -/

/-- The interrupt that is delivered: by the processor, by a device or by an `int`. -/
inductive Cause where
  | exception (nr : UInt8)
  | external (nr : UInt8)
  | software (nr : UInt8)

def Cause.vector : Cause → UInt8
  | .exception nr | .external nr | .software nr => nr

/-- The vectors that `trap.S` defines with `has_arg`. -/
def hasArg (nr : UInt8) : Bool := nr ∈ [8, 10, 11, 12, 13, 14, 17, 30]

/-- The exceptions for which the processor pushes an error code. -/
def Cause.pushesCode : Cause → Bool
  | .exception nr => nr ∈ [8, 10, 11, 12, 13, 14, 17, 21, 29, 30]
  | _ => false

/-- 21 and 29 come with control-flow enforcement and encrypted state, which stay off. The
gates of the kernel let user code trap with 3 and 0x81 alone, and the kernel traps with 0x80. -/
def Cause.Possible (cpu : Cpu) : Cause → Prop
  | .exception nr => nr < 32 ∧ nr ≠ 21 ∧ nr ≠ 29
  | .external nr => 32 ≤ nr ∧ cpu.rflags &&& 0x200 ≠ 0
  | .software nr => if cpu.User then nr = 3 ∨ nr = 0x81 else nr = 0x80

/-- Where the processor starts to push, which it aligns. -/
def entryStack (m : Machine) : UInt64 :=
  (if m.cpu.User then m.rsp0 else m.cpu.rsp) &&& ~~~15

/-- What the processor does before the first instruction of `__irq`. An interrupt gate clears
`IF`, `TF`, `NT` and `RF`. -/
def deliver (cause : Cause) (code : UInt64) (m : Machine) : Machine :=
  let s : Stack := { mem := m.mem, sp := m.entryStack }
  let s := s.pushAll [m.cpu.ss, m.cpu.rsp, m.cpu.rflags, m.cpu.cs, m.cpu.rip]
  let s := if cause.pushesCode then s.push code else s
  { m with
    mem := s.mem
    cpu :=
      { m.cpu with
        rip := m.irqEntryPoints cause.vector
        cs := 0x08
        rflags := m.cpu.rflags &&& ~~~0x14300
        rsp := s.sp
        ss := if m.cpu.User then 0 else m.cpu.ss } }

/-- `call get_current_thread_context` leaves its return address below the stack. -/
def callContext (m : Machine) (s : Stack) : Except Fault (ThreadId × ThreadContext × Stack) :=
  match m.currentThread with
  | none => .error .nullDeref
  | some t =>
      match m.contexts t with
      | none => .error .nullDeref
      | some context => .ok (t, context, (s.push m.cpu.rip).drop)

def saveContext (hasArg : Bool) (m : Machine) : Except Fault Machine := do
  let s := if hasArg then m.stack else m.stack.push 0
  let s := s.pushAll (saveOrder.map m.cpu.gpr)
  let (t, context, s) ← m.callContext s
  let s := s.push context.nativeContext
  pure
    { m with
      mem := s.mem
      cpu := { m.cpu with gpr := update m.cpu.gpr .rax context.address, rsp := s.sp }
      contexts := update m.contexts t (some { context with nativeContext := s.sp })
      handlers := update m.handlers t (s.sp :: m.handlers t) }

/-- `defirq` up to the call of `__handle_raw_irq`. -/
def interrupt (cause : Cause) (code : UInt64) (m : Machine) : Except Fault Machine := do
  let m ← (m.deliver cause code).saveContext (hasArg cause.vector)
  let nr := cause.vector.toUInt64
  pure { m with cpu := { m.cpu with gpr := update m.cpu.gpr .rdi nr } }

/-! ### Return -/

def popAll (regs : List Gpr) (s : Stack) (gpr : Gpr → UInt64) : Stack × (Gpr → UInt64) :=
  match regs with
  | [] => (s, gpr)
  | r :: regs => popAll regs s.drop (update gpr r s.top)

def iretq (m : Machine) : Machine :=
  let s := m.stack
  { m with
    cpu :=
      { m.cpu with
        rip := s.top
        cs := s.drop.top
        rflags := s.drop.drop.top
        rsp := s.drop.drop.drop.top
        ss := s.drop.drop.drop.drop.top } }

/-- The handler that returns is the latest of its thread, unless it has left the thread. -/
def returned (m : Machine) (t : ThreadId) : ThreadId → List UInt64 :=
  if m.leaving then m.handlers else update m.handlers t (m.handlers t).tail

def restoreContext (m : Machine) : Except Fault Machine := do
  let (t, context, s) ← m.callContext m.stack
  let s := { s with sp := context.nativeContext }
  let previous := s.top
  let (s, gpr) := popAll saveOrder.reverse s.drop (update m.cpu.gpr .rax context.address)
  let s := s.drop
  pure
    { m with
      mem := s.mem
      cpu := { m.cpu with gpr := gpr, rsp := s.sp }
      contexts := update m.contexts t (some { context with nativeContext := previous })
      handlers := m.returned t
      leaving := false }

/-- `defirq` from the return of `__handle_raw_irq` on. -/
def returnFromInterrupt (m : Machine) : Except Fault Machine := do
  let m ← m.restoreContext
  pure m.iretq

/-! ### Threads -/

/-- The handler that switches is the latest of the thread it leaves. -/
def switched (m : Machine) : ThreadId → List UInt64 :=
  match m.currentThread with
  | none => m.handlers
  | some old => update m.handlers old (m.handlers old).tail

def setCurrentThread (t : ThreadId) (m : Machine) : Except Fault Machine :=
  match m.contexts t with
  | none => .error .nullDeref
  | some context =>
      .ok
        { m with
          cr3 := m.pgtBase t
          rsp0 := context.kernelStack
          currentThread := some t
          handlers := m.switched
          leaving := m.currentThread.isSome }

/-- `Thread::prepare_initial_stack`: the stack grows down from `kernel_stack`. -/
def prepareInitialStack (kernel : Bool) (entryPoint kernelStack : UInt64) (mem : Words) : Stack :=
  let stack : Stack := { mem := mem, sp := kernelStack }
  let stack := stack.pushAll
    [if kernel then 0x10 else 0x23, 0, 0x202, if kernel then 0x8 else 0x1b, entryPoint, 0]
  let stack := stack.pushAll [0, 0, 0, 0, 0, 0, 0, 0, 0, 0, 0, 0, 0, 0, 0]
  let stack := stack.push 0
  { stack with mem := update stack.mem (stack.sp.toNat + 8 + 8 * 19) kernelStack }

def createThread (t : ThreadId) (kernel : Bool) (entryPoint kernelStack address pgtBase : UInt64)
    (m : Machine) : Machine :=
  let stack := prepareInitialStack kernel entryPoint kernelStack m.mem
  { m with
    mem := stack.mem
    contexts := update m.contexts t
      (some { address := address, nativeContext := stack.sp, kernelStack := kernelStack })
    pgtBase := update m.pgtBase t pgtBase
    entryArguments := update m.entryArguments t 0
    handlers := update m.handlers t [] }

/-- The fields of `X86Context` behind `previous_context`, by their place. -/
def field : Gpr → Nat
  | .r15 => 0 | .r14 => 1 | .r13 => 2 | .r12 => 3 | .r11 => 4 | .r10 => 5 | .r9 => 6 | .r8 => 7
  | .rbp => 8 | .rdi => 9 | .rsi => 10 | .rdx => 11 | .rcx => 12 | .rbx => 13 | .rax => 14

def rspField : Nat := 19

/-- A store through a pointer to an `X86Context`. -/
def storeField (context : UInt64) (i : Nat) (v : UInt64) (m : Machine) : Except Fault Machine :=
  if context = 0 then .error .nullDeref
  else .ok { m with mem := update m.mem (context.toNat + 8 + 8 * i) v }

def argumentRegister : Nat → Option Gpr
  | 0 => some .rdi
  | 1 => some .rsi
  | 2 => some .rdx
  | 3 => some .rcx
  | _ => none

def addEntryArgument (t : ThreadId) (arg : UInt64) (m : Machine) : Except Fault Machine :=
  match m.contexts t with
  | none => .error .nullDeref
  | some context =>
      match argumentRegister (m.entryArguments t) with
      | none => .ok m
      | some r => do
          let m ← m.storeField context.nativeContext (field r) arg
          pure { m with entryArguments := update m.entryArguments t (m.entryArguments t + 1) }

/-- `Thread::allocate_user_stack`, once the pages are there. -/
def allocateUserStack (t : ThreadId) (vaddr size : UInt64) (m : Machine) :
    Except Fault Machine :=
  match m.contexts t with
  | none => .error .nullDeref
  | some context => m.storeField context.nativeContext rspField (vaddr + size)

/-- The end of `user_syscall_handler`: `ctx->rax` gets the result, where `ctx` was read when the
handler started. -/
def setResult (result : UInt64) (m : Machine) : Except Fault Machine :=
  match m.currentThread with
  | none => .error .nullDeref
  | some t =>
      match m.handlers t with
      | [] => .error .nullDeref
      | ctx :: _ => m.storeField ctx (field .rax) result

end Machine

/-! ### Runs -/

inductive Op where
  | execute (cpu : Cpu) (mem : Words)
  | interrupt (cause : Machine.Cause) (code : UInt64)
  | returnFromInterrupt
  | setCurrentThread (t : ThreadId)
  | setResult (result : UInt64)
  | createThread (t : ThreadId) (kernel : Bool) (entryPoint kernelStack address pgtBase : UInt64)
  | addEntryArgument (t : ThreadId) (arg : UInt64)
  | allocateUserStack (t : ThreadId) (vaddr size : UInt64)

def Op.exec : Op → Machine → Except Fault Machine
  | .execute cpu mem, m => .ok { m with cpu := cpu, mem := mem }
  | .interrupt cause code, m => m.interrupt cause code
  | .returnFromInterrupt, m => m.returnFromInterrupt
  | .setCurrentThread t, m => m.setCurrentThread t
  | .setResult result, m => m.setResult result
  | .createThread t kernel entryPoint kernelStack address pgtBase, m =>
      .ok (m.createThread t kernel entryPoint kernelStack address pgtBase)
  | .addEntryArgument t arg, m => m.addEntryArgument t arg
  | .allocateUserStack t vaddr size, m => m.allocateUserStack t vaddr size

namespace Machine

/-- `a` is part of a saved context. -/
def IsSaved (m : Machine) (a : Nat) : Prop :=
  ∃ t context, m.contexts t = some context ∧ Saved contextWords m.mem context.nativeContext a

end Machine

/-- `KERNEL_STACK_SIZE` -/
def kernelStackSize : Nat := 8192

def ThreadContext.InStack (context : ThreadContext) (a : Nat) : Prop :=
  context.kernelStack.toNat - kernelStackSize ≤ a ∧ a < context.kernelStack.toNat

/-- The `n` words below `top` are neither part of a saved context nor of the stack of a thread
that is not running. -/
structure Machine.Free (m : Machine) (top : UInt64) (n : Nat) : Prop where
  room : 8 * n < top.toNat
  unsaved : ∀ a, top.toNat - 8 * n ≤ a → a < top.toNat → ¬ m.IsSaved a
  own : ∀ a, top.toNat - 8 * n ≤ a → a < top.toNat → ∀ t context, m.contexts t = some context →
    m.currentThread ≠ some t → ¬ context.InStack a

/-- What the code around the operations keeps to. User code reaches no memory of the kernel, and
kernel code that can be interrupted runs on the stack of the current thread, below what is saved
there. -/
def Op.Valid (m : Machine) : Op → Prop
  | .execute cpu mem => (cpu.User ↔ m.cpu.User) ∧ ∀ a, m.IsSaved a → mem a = m.mem a
  | .interrupt cause _ =>
      m.leaving = false ∧ m.currentThread.isSome ∧ cause.Possible m.cpu ∧
        (¬ m.cpu.User → m.Free m.entryStack contextWords)
  | .returnFromInterrupt =>
      ¬ m.cpu.User ∧ ¬ m.IsSaved (m.cpu.rsp - 8).toNat ∧
        ∃ t, m.currentThread = some t ∧ (m.leaving = false → m.handlers t ≠ [])
  | .setCurrentThread t =>
      ¬ m.cpu.User ∧ m.leaving = false ∧ (m.contexts t).isSome ∧ m.currentThread ≠ some t ∧
        ∀ old, m.currentThread = some old → m.handlers old ≠ []
  | .setResult _ =>
      ¬ m.cpu.User ∧ m.leaving = false ∧ ∃ t, m.currentThread = some t ∧ m.handlers t ≠ []
  | .createThread t _ _ kernelStack _ _ =>
      ¬ m.cpu.User ∧ m.contexts t = none ∧ kernelStackSize < kernelStack.toNat ∧
        ∀ a, kernelStack.toNat - kernelStackSize ≤ a → a < kernelStack.toNat →
          ¬ m.IsSaved a ∧ ∀ t context, m.contexts t = some context → ¬ context.InStack a
  | .addEntryArgument t _ | .allocateUserStack t _ _ =>
      ∃ context, m.contexts t = some context ∧ context.nativeContext ≠ 0

/-- From `start`, the operations lead to a state. -/
inductive Runs (start : Machine) : List Op → Machine → Prop
  | nil : Runs start [] start
  | snoc {ops : List Op} {op : Op} {m m' : Machine} :
      Runs start ops m → op.Valid m → op.exec m = .ok m' → Runs start (ops ++ [op]) m'

/-- The kernel starts with no thread. -/
structure Boot (m : Machine) : Prop where
  kernel : ¬ m.cpu.User
  noThread : ∀ t, m.contexts t = none
  noCurrent : m.currentThread = none
  noHandler : ∀ t, m.handlers t = []
  stays : m.leaving = false

/-! ### What it is for -/

/-- Each thread has the computations that were interrupted on it, the latest first. -/
structure Threads where
  cpu : Cpu
  current : Option ThreadId
  suspended : ThreadId → List X86Context
  entryArguments : ThreadId → Nat

def X86Context.setGpr (c : X86Context) (r : Gpr) (v : UInt64) : X86Context :=
  { c with cpu := { c.cpu with gpr := update c.cpu.gpr r v } }

/-- A thread starts at its entry point, with interrupts on. -/
def X86Context.initial (kernel : Bool) (entryPoint kernelStack : UInt64) : X86Context where
  cpu :=
    { gpr := fun _ => 0
      rip := entryPoint
      cs := if kernel then 0x8 else 0x1b
      rflags := 0x202
      rsp := kernelStack
      ss := if kernel then 0x10 else 0x23 }
  extra := 0

inductive Threads.Step : Op → Threads → Threads → Prop
  | execute {a : Threads} {cpu : Cpu} {mem : Words} : (cpu.User ↔ a.cpu.User) →
      Step (.execute cpu mem) a { a with cpu := cpu }
  | interrupt {a : Threads} {cause : Machine.Cause} {code extra : UInt64} {t : ThreadId}
      {cpu : Cpu} : a.current = some t → ¬ cpu.User →
      Step (.interrupt cause code) a
        { a with cpu := cpu, suspended := update a.suspended t (⟨a.cpu, extra⟩ :: a.suspended t) }
  | returnFromInterrupt {a : Threads} {t : ThreadId} {c : X86Context} {rest : List X86Context} :
      a.current = some t → a.suspended t = c :: rest →
      Step .returnFromInterrupt a
        { a with cpu := c.cpu, suspended := update a.suspended t rest }
  | setCurrentThread {a : Threads} {t : ThreadId} :
      Step (.setCurrentThread t) a { a with current := some t }
  | setResult {a : Threads} {t : ThreadId} {c : X86Context} {rest : List X86Context}
      {result : UInt64} : a.current = some t → a.suspended t = c :: rest →
      Step (.setResult result) a
        { a with suspended := update a.suspended t (c.setGpr .rax result :: rest) }
  | createThread {a : Threads} {t : ThreadId} {kernel : Bool}
      {entryPoint kernelStack address pgtBase : UInt64} : a.suspended t = [] →
      Step (.createThread t kernel entryPoint kernelStack address pgtBase) a
        { a with
          suspended := update a.suspended t [.initial kernel entryPoint kernelStack]
          entryArguments := update a.entryArguments t 0 }
  | addEntryArgument {a : Threads} {t : ThreadId} {arg : UInt64} {r : Gpr} {c : X86Context}
      {rest : List X86Context} : Machine.argumentRegister (a.entryArguments t) = some r →
      a.suspended t = c :: rest →
      Step (.addEntryArgument t arg) a
        { a with
          suspended := update a.suspended t (c.setGpr r arg :: rest)
          entryArguments := update a.entryArguments t (a.entryArguments t + 1) }
  | noRegister {a : Threads} {t : ThreadId} {arg : UInt64} :
      Machine.argumentRegister (a.entryArguments t) = none → Step (.addEntryArgument t arg) a a
  | allocateUserStack {a : Threads} {t : ThreadId} {vaddr size : UInt64} {c : X86Context}
      {rest : List X86Context} : a.suspended t = c :: rest →
      Step (.allocateUserStack t vaddr size) a
        { a with
          suspended := update a.suspended t
            ({ c with cpu := { c.cpu with rsp := vaddr + size } } :: rest) }

inductive Threads.Runs (start : Threads) : List Op → Threads → Prop
  | nil : Runs start [] start
  | snoc {ops : List Op} {op : Op} {a a' : Threads} :
      Runs start ops a → Step op a a' → Runs start (ops ++ [op]) a'

end Infos.Arch.ContextSwitch
