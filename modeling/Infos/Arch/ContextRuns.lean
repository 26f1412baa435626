import Infos.Arch.ContextSwitch
import Infos.Lib.Words

/-!
# Runs of interrupts and context switches

A thread goes on with exactly the registers it was interrupted with, whatever else ran and was
interrupted in between, but for the result of a system call.
-/
namespace Infos.Arch.ContextSwitch
open Infos.Lib Infos.Lib.SaveAreas Function

section Entry
variable {m : Machine} {cause : Machine.Cause} {w v : UInt64} {s : Stack} {t : ThreadId}
  {context : ThreadContext}

theorem push_drop_push : ((s.push w).drop.push v) = s.push v := by
  rw [Stack.drop, Stack.push, Stack.push, Stack.push]
  simp

theorem pushAll_append (s : Stack) (ws us : List UInt64) :
    s.pushAll (ws ++ us) = (s.pushAll ws).pushAll us := List.foldl_append

theorem pushAll_one (s : Stack) (w : UInt64) : s.pushAll [w] = s.push w := rfl

/-- `save_context` and the processor agree on who pushes the error code. -/
theorem hasArg_eq (possible : cause.Possible m.cpu) :
    Machine.hasArg cause.vector = cause.pushesCode := by
  cases cause with
  | exception nr =>
      obtain ⟨_, not21, not29⟩ := possible
      simp only [Machine.hasArg, Machine.Cause.vector, Machine.Cause.pushesCode, List.mem_cons,
        List.not_mem_nil, or_false, decide_eq_decide]
      grind
  | external nr =>
      obtain ⟨device, _⟩ := possible
      simp only [Machine.hasArg, Machine.Cause.vector, Machine.Cause.pushesCode, List.mem_cons,
        List.not_mem_nil, or_false, decide_eq_false_iff_not]
      grind
  | software nr =>
      simp only [Machine.Cause.Possible] at possible
      simp only [Machine.hasArg, Machine.Cause.vector, Machine.Cause.pushesCode, List.mem_cons,
        List.not_mem_nil, or_false, decide_eq_false_iff_not]
      split at possible
      · grind
      · grind

/-- What the processor and `save_context` push. -/
def entryWords (cpu : Cpu) (extra native : UInt64) : List UInt64 :=
  [cpu.ss, cpu.rsp, cpu.rflags, cpu.cs, cpu.rip] ++ [extra] ++ saveOrder.map cpu.gpr ++ [native]

theorem reverse_entryWords (cpu : Cpu) (extra native : UInt64) :
    (entryWords cpu extra native).reverse = native :: X86Context.words ⟨cpu, extra⟩ := rfl

/-- The processor as `__handle_raw_irq` finds it. -/
def handlerCpu (m : Machine) (cause : Machine.Cause) (context : ThreadContext) (sp : UInt64) :
    Cpu where
  gpr := update (update m.cpu.gpr .rax context.address) .rdi cause.vector.toUInt64
  rip := m.irqEntryPoints cause.vector
  cs := 0x08
  rflags := m.cpu.rflags &&& ~~~0x14300
  rsp := sp
  ss := if m.cpu.User then 0 else m.cpu.ss

theorem handlerCpu_kernel (sp : UInt64) : ¬ (handlerCpu m cause context sp).User := by
  intro user
  have ring : (0x08 : UInt64) &&& 3 = 3 := user
  exact absurd ring (by decide)

/-- The context is saved just below the entry stack, and the current thread points to it. -/
theorem interrupt_run (code : UInt64) (current : m.currentThread = some t)
    (known : m.contexts t = some context) (possible : cause.Possible m.cpu) :
    ∃ extra, ∀ s, s = Stack.pushAll { mem := m.mem, sp := m.entryStack }
        (entryWords m.cpu extra context.nativeContext) →
      m.interrupt cause code = .ok
        { m with
          mem := s.mem
          cpu := handlerCpu m cause context s.sp
          contexts := update m.contexts t (some { context with nativeContext := s.sp })
          handlers := update m.handlers t (s.sp :: m.handlers t) } := by
  refine ⟨if cause.pushesCode then code else 0, ?_⟩
  rintro s rfl
  rw [Machine.interrupt, Machine.saveContext, hasArg_eq possible]
  cases coded : cause.pushesCode
  all_goals
    simp only [entryWords, pushAll_append, pushAll_one, handlerCpu, Machine.deliver, Machine.stack,
      Machine.callContext, current, known, coded, bind, Except.bind, pure, Except.pure,
      push_drop_push, Bool.false_eq_true, reduceIte]

end Entry

section Return
variable {m : Machine} {s : Stack} {t : ThreadId} {context : ThreadContext} {w : UInt64}
  {regs : List Gpr} {f : Gpr → UInt64} {rest : List UInt64}

theorem popAll_run (gpr : Gpr → UInt64) (h : s.Holds (regs.map f ++ w :: rest)) :
    ∃ s', Machine.popAll regs s gpr = (s', fun r => if r ∈ regs then f r else gpr r) ∧
      s'.mem = s.mem ∧ s'.Holds (w :: rest) := by
  induction regs generalizing s gpr with
  | nil => exact ⟨s, by simp [Machine.popAll], rfl, h⟩
  | cons r regs ih =>
      have next : s.drop.Holds (regs.map f ++ w :: rest) := by
        cases regs with
        | nil => exact h.drop
        | cons _ _ => exact h.drop
      obtain ⟨s', popped, same, holds⟩ := ih (update gpr r s.top) next
      refine ⟨s', ?_, same, holds⟩
      rw [Machine.popAll, popped]
      congr 1
      funext r'
      have first : s.top = f r := h.top
      by_cases here : r' = r
      · subst here
        simp [first]
      · simp [here]

theorem mem_saveOrder (r : Gpr) : r ∈ saveOrder.reverse := by
  cases r <;> decide

theorem iretq_run {rip cs rflags rsp ss : UInt64} (stack : m.stack = s)
    (h : s.Holds [rip, cs, rflags, rsp, ss]) :
    m.iretq = { m with cpu := ⟨m.cpu.gpr, rip, cs, rflags, rsp, ss⟩ } := by
  subst stack
  have second := h.drop
  have third := second.drop
  have fourth := third.drop
  rw [Machine.iretq, h.top, second.top, third.top, fourth.top, fourth.drop.top]

theorem return_run (current : m.currentThread = some t) (known : m.contexts t = some context)
    {c : X86Context} (h : Stack.Holds
      { mem := (m.stack.push m.cpu.rip).mem, sp := context.nativeContext } (w :: c.words)) :
    m.returnFromInterrupt = .ok
      { m with
        mem := (m.stack.push m.cpu.rip).mem
        cpu := c.cpu
        contexts := update m.contexts t (some { context with nativeContext := w })
        handlers := m.returned t
        leaving := false } := by
  have behind : Stack.Holds
      (Stack.drop { mem := (m.stack.push m.cpu.rip).mem, sp := context.nativeContext })
      (saveOrder.reverse.map c.cpu.gpr ++ c.extra ::
        [c.cpu.rip, c.cpu.cs, c.cpu.rflags, c.cpu.rsp, c.cpu.ss]) := h.drop
  obtain ⟨s', popped, same, holds⟩ :=
    popAll_run (update m.cpu.gpr .rax context.address) behind
  have registers : (fun r => if r ∈ saveOrder.reverse then c.cpu.gpr r
      else update m.cpu.gpr .rax context.address r) = c.cpu.gpr := by
    funext r
    rw [if_pos (mem_saveOrder r)]
  rw [registers] at popped
  have link : Stack.top { mem := (m.stack.push m.cpu.rip).mem, sp := context.nativeContext } = w :=
    h.top
  have restored : m.restoreContext = .ok
      { m with
        mem := s'.drop.mem
        cpu := { m.cpu with gpr := c.cpu.gpr, rsp := s'.drop.sp }
        contexts := update m.contexts t (some { context with nativeContext := w })
        handlers := m.returned t
        leaving := false } := by
    rw [Machine.restoreContext, ← link]
    simp only [Machine.callContext, current, known, bind, Except.bind, pure, Except.pure]
    change Machine.popAll _ (Stack.drop _) _ = _ at popped
    rw [show (m.stack.push m.cpu.rip).drop.mem = (m.stack.push m.cpu.rip).mem from rfl, popped]
  have frame := holds.drop
  rw [Machine.returnFromInterrupt, restored]
  refine congrArg Except.ok (Eq.trans (iretq_run (s := s'.drop) ?_ frame) ?_)
  · rfl
  · rw [show s'.drop.mem = (m.stack.push m.cpu.rip).mem from same]

end Return

/-! ### What is saved -/

/-- Each thread has its saved contexts to itself, and keeps away the stacks of the others. -/
structure Stacks (mem : Words) (contexts : ThreadId → Option ThreadContext)
    (suspended : ThreadId → List X86Context) : Prop where
  chain : ∀ {t context}, contexts t = some context →
    Chain contextWords mem context.nativeContext ((suspended t).map X86Context.words)
  apart : ∀ {t t' context context'}, contexts t = some context → contexts t' = some context' →
    t ≠ t' → ∀ a, Saved contextWords mem context.nativeContext a →
      ¬ Saved contextWords mem context'.nativeContext a ∧ ¬ context'.InStack a
  stacksApart : ∀ {t t' context context'}, contexts t = some context → contexts t' = some context' →
    t ≠ t' → ∀ a, context.InStack a → ¬ context'.InStack a
  room : ∀ {t context}, contexts t = some context → kernelStackSize < context.kernelStack.toNat

theorem words_length (c : X86Context) : c.words.length + 1 = contextWords := rfl

section Stacks
variable {mem mem' : Words} {contexts : ThreadId → Option ThreadContext}
  {suspended : ThreadId → List X86Context} {t t' : ThreadId} {context other : ThreadContext}
  {c c' : X86Context} {rest : List X86Context} {p : UInt64}

def Unsaved (mem : Words) (contexts : ThreadId → Option ThreadContext) (a : Nat) : Prop :=
  ∀ t context, contexts t = some context → ¬ Saved contextWords mem context.nativeContext a

theorem Stacks.congr (h : Stacks mem contexts suspended)
    (same : ∀ a, ¬ Unsaved mem contexts a → mem' a = mem a) : Stacks mem' contexts suspended := by
  have agree : ∀ {t context}, contexts t = some context →
      ∀ a, Saved contextWords mem context.nativeContext a → mem' a = mem a := by
    intro t context known a there
    exact same a fun unsaved => unsaved t context known there
  constructor
  · exact fun known => (h.chain known).congr (by decide) (agree known)
  · intro t t' context context' known known' ne a
    rw [saved_congr (by decide) (agree known), saved_congr (by decide) (agree known')]
    exact h.apart known known' ne a
  · exact h.stacksApart
  · exact h.room

theorem update_known {new : ThreadContext} (known : update contexts t (some new) t' = some other) :
    t' = t ∧ other = new ∨ t' ≠ t ∧ contexts t' = some other := by
  by_cases same : t' = t
  · subst same
    rw [update_self] at known
    cases known
    exact .inl ⟨rfl, rfl⟩
  · rw [update_of_ne same] at known
    exact .inr ⟨same, known⟩

theorem Stacks.replace (h : Stacks mem contexts suspended) {new : ThreadContext}
    {list : List X86Context} (room : kernelStackSize < new.kernelStack.toNat)
    (chain : Chain contextWords mem new.nativeContext (list.map X86Context.words))
    (own : ∀ t' other, contexts t' = some other → t' ≠ t → ∀ a,
      (Saved contextWords mem new.nativeContext a ∨ new.InStack a →
        ¬ Saved contextWords mem other.nativeContext a ∧ ¬ other.InStack a)) :
    Stacks mem (update contexts t (some new)) (update suspended t list) := by
  constructor
  · intro t' context known
    rcases update_known known with ⟨rfl, rfl⟩ | ⟨ne, known⟩
    · rw [update_self]
      exact chain
    · rw [update_of_ne ne]
      exact h.chain known
  · intro t₁ t₂ context₁ context₂ known₁ known₂ ne a saved
    rcases update_known known₁ with ⟨rfl, rfl⟩ | ⟨ne₁, old₁⟩
    · rw [update_of_ne ne.symm] at known₂
      exact own t₂ context₂ known₂ ne.symm a (.inl saved)
    · rcases update_known known₂ with ⟨rfl, rfl⟩ | ⟨_, old₂⟩
      · have theirs := own t₁ context₁ old₁ ne₁ a
        exact ⟨fun mine => (theirs (.inl mine)).1 saved, fun mine => (theirs (.inr mine)).1 saved⟩
      · exact h.apart old₁ old₂ ne a saved
  · intro t₁ t₂ context₁ context₂ known₁ known₂ ne a inside
    rcases update_known known₁ with ⟨rfl, rfl⟩ | ⟨ne₁, old₁⟩
    · rw [update_of_ne ne.symm] at known₂
      exact (own t₂ context₂ known₂ ne.symm a (.inr inside)).2
    · rcases update_known known₂ with ⟨rfl, rfl⟩ | ⟨_, old₂⟩
      · exact fun mine => (own t₁ context₁ old₁ ne₁ a (.inr mine)).2 inside
      · exact h.stacksApart old₁ old₂ ne a inside
  · intro t' context known
    rcases update_known known with ⟨rfl, rfl⟩ | ⟨_, known⟩
    · exact room
    · exact h.room known

theorem Stacks.pop (h : Stacks mem contexts suspended) (known : contexts t = some context)
    (latest : suspended t = c :: rest) :
    Stacks mem
      (update contexts t (some { context with nativeContext := mem context.nativeContext.toNat }))
      (update suspended t rest) := by
  have chain := h.chain known
  rw [latest] at chain
  have room : kernelStackSize < context.kernelStack.toNat := h.room known
  refine h.replace room chain.2.2.2.2.2 ?_
  rintro t' other known' ne a (saved | inside)
  · exact h.apart known known' ne.symm a (.further chain.1 saved)
  · refine ⟨fun theirs => ?_, h.stacksApart known known' ne.symm a inside⟩
    exact (h.apart known' known ne a theirs).2 inside

theorem Stacks.push (h : Stacks mem contexts suspended) (known : contexts t = some context)
    (some_p : p ≠ 0) (fits : p.toNat + 8 * contextWords ≤ 2 ^ 64)
    (here : At mem' p.toNat (context.nativeContext :: c.words))
    (same : ∀ a, ¬ Unsaved mem contexts a → mem' a = mem a)
    (free : ∀ a, p.toNat ≤ a → a < p.toNat + 8 * contextWords → Unsaved mem contexts a ∧
      ∀ t' other, contexts t' = some other → t' ≠ t → ¬ other.InStack a) :
    Stacks mem' (update contexts t (some { context with nativeContext := p }))
      (update suspended t (c :: suspended t)) := by
  have agree : ∀ {t context}, contexts t = some context →
      ∀ a, Saved contextWords mem context.nativeContext a → mem' a = mem a := by
    intro t context known a there
    exact same a fun unsaved => unsaved t context known there
  have link : mem' p.toNat = context.nativeContext := here.1
  have room : kernelStackSize < context.kernelStack.toNat := h.room known
  refine (h.congr same).replace room ?_ ?_
  · refine (h.chain known).save (by decide) some_p (words_length c) fits here ?_ (agree known)
    exact fun a from_p below => (free a from_p below).1 t context known
  · rintro t' other known' ne a mine
    rw [saved_cons some_p, link, saved_congr (by decide) (agree known)] at mine
    rw [saved_congr (by decide) (agree known')]
    rcases mine with (⟨from_p, below⟩ | saved) | inside
    · have none := free a from_p below
      exact ⟨none.1 t' other known', none.2 t' other known' ne⟩
    · exact h.apart known known' ne.symm a saved
    · refine ⟨fun theirs => ?_, h.stacksApart known known' ne.symm a inside⟩
      exact (h.apart known' known ne a theirs).2 inside

theorem Stacks.store (h : Stacks mem contexts suspended) (known : contexts t = some context)
    (latest : suspended t = c :: rest) {i : Nat} (inside : i < c.words.length) {v : UInt64}
    (words : c'.words = c.words.set i v) :
    Stacks (update mem (context.nativeContext.toNat + 8 + 8 * i) v) contexts
      (update suspended t (c' :: rest)) := by
  have chain := h.chain known
  rw [latest] at chain
  obtain ⟨mine, _⟩ := chain.store_saved inside
  have extent := (chain.store_links (by decide) inside v (show Links mem _ [] by trivial)).2
  have others : ∀ t' other, contexts t' = some other → t' ≠ t → ∀ a,
      Saved contextWords mem other.nativeContext a →
        update mem (context.nativeContext.toNat + 8 + 8 * i) v a = mem a := by
    intro t' other known' ne a there
    refine update_of_ne ?_ ..
    rintro rfl
    exact (h.apart known known' ne.symm _ mine).1 there
  have saved_iff : ∀ {t' other}, contexts t' = some other → ∀ a,
      Saved contextWords (update mem (context.nativeContext.toNat + 8 + 8 * i) v)
        other.nativeContext a ↔ Saved contextWords mem other.nativeContext a := by
    intro t' other known' a
    by_cases same : t' = t
    · subst same
      cases known.symm.trans known'
      exact extent a
    · exact saved_congr (by decide) (others t' other known' same)
  constructor
  · intro t' other known'
    by_cases same : t' = t
    · subst same
      cases known.symm.trans known'
      rw [update_self, List.map_cons, words]
      exact chain.store (by decide) inside v
    · rw [update_of_ne same]
      exact (h.chain known').congr (by decide) (others t' other known' same)
  · intro t₁ t₂ context₁ context₂ known₁ known₂ ne a
    rw [saved_iff known₁, saved_iff known₂]
    exact h.apart known₁ known₂ ne a
  · exact h.stacksApart
  · exact h.room

end Stacks

/-! ### Steps -/

/-- The processor is on the stack of the thread, and a handler that returns is one of the thread. -/
def Machine.OnStack (m : Machine) (t : ThreadId) : Prop :=
  m.currentThread = some t ∧ m.leaving = false

/-- The machine has the threads' computations where they belong. -/
structure Represents (m : Machine) (a : Threads) : Prop where
  cpu : a.cpu = m.cpu
  current : a.current = m.currentThread
  arguments : a.entryArguments = m.entryArguments
  saved : Stacks m.mem m.contexts a.suspended
  unknown : ∀ t, m.contexts t = none → a.suspended t = []
  running : ∀ t, m.currentThread = some t → ∃ context, m.contexts t = some context ∧
    m.rsp0 = context.kernelStack ∧ m.cr3 = m.pgtBase t
  own : ∀ t context, m.contexts t = some context → m.OnStack t →
    Links m.mem context.nativeContext (m.handlers t)
  left : ∀ t context, m.contexts t = some context → ¬ m.OnStack t →
    Links m.mem context.nativeContext (context.nativeContext :: m.handlers t)
  boot : m.currentThread = none → m.leaving = false ∧ ∀ t, m.handlers t = []
  outermost : ∀ t, ∀ c ∈ (a.suspended t).dropLast, ¬ c.cpu.User
  user : m.cpu.User → m.leaving = false ∧ ∃ t, m.currentThread = some t ∧ a.suspended t = []

section Steps
variable {m m' : Machine} {a : Threads} {t : ThreadId} {context : ThreadContext} {p : UInt64}

theorem not_unsaved {x : Nat} : ¬ Unsaved m.mem m.contexts x ↔ m.IsSaved x := by
  rw [Unsaved, Machine.IsSaved]
  simp only [not_forall, not_not]
  constructor
  · rintro ⟨t, context, known, there⟩
    exact ⟨t, context, known, there⟩
  · rintro ⟨t, context, known, there⟩
    exact ⟨t, context, known, there⟩

theorem saved_agree {mem' : Words} (same : ∀ x, m.IsSaved x → mem' x = m.mem x)
    (known : m.contexts t = some context) :
    ∀ x, Saved contextWords m.mem context.nativeContext x → mem' x = m.mem x :=
  fun x there => same x ⟨t, context, known, there⟩

theorem Represents.latest (h : Represents m a) (known : m.contexts t = some context)
    (some_context : context.nativeContext ≠ 0) : ∃ c rest, a.suspended t = c :: rest := by
  have chain := h.saved.chain known
  cases listed : a.suspended t with
  | nil =>
      rw [listed] at chain
      exact absurd chain some_context
  | cons c rest => exact ⟨c, rest, rfl⟩

theorem Represents.execute (h : Represents m a) {cpu : Cpu} {mem : Words}
    (valid : (Op.execute cpu mem).Valid m) : Represents { m with cpu := cpu, mem := mem }
      { a with cpu := cpu } := by
  obtain ⟨ring, same⟩ := valid
  refine { h with cpu := rfl, saved := ?_, own := ?_, left := ?_, user := ?_ }
  · exact h.saved.congr fun x there => same x (not_unsaved.mp there)
  · exact fun t context known onStack => (h.own t context known onStack).congr (by decide)
      (saved_agree same known)
  · exact fun t context known away => (h.left t context known away).congr (by decide)
      (saved_agree same known)
  · exact fun user => h.user (ring.mp user)

theorem and_or_rest (x m : BitVec 64) : x = (x &&& ~~~m) ||| (x &&& m) := by
  apply BitVec.eq_of_getLsbD_eq
  intro i inside
  rw [BitVec.getLsbD_or, BitVec.getLsbD_and, BitVec.getLsbD_and, BitVec.getLsbD_not,
    decide_eq_true inside]
  cases x.getLsbD i <;> cases m.getLsbD i <;> rfl

theorem aligned_bounds (x : UInt64) :
    (x &&& ~~~15).toNat ≤ x.toNat ∧ x.toNat ≤ (x &&& ~~~15).toNat + 15 := by
  have split := congrArg BitVec.toNat (and_or_rest x.toBitVec 15#64)
  rw [BitVec.toNat_or, BitVec.toNat_and, BitVec.toNat_and] at split
  have sum := or_le_add (x.toBitVec.toNat &&& (~~~15#64).toNat) (x.toBitVec.toNat &&& (15#64).toNat)
  have low : x.toBitVec.toNat &&& (15#64).toNat ≤ 15 := Nat.and_le_right
  have high : x.toBitVec.toNat &&& (~~~15#64).toNat ≤ x.toBitVec.toNat := Nat.and_le_left
  rw [← split] at sum
  change x.toBitVec.toNat &&& (~~~15#64).toNat ≤ x.toBitVec.toNat ∧
    x.toBitVec.toNat ≤ (x.toBitVec.toNat &&& (~~~15#64).toNat) + 15
  omega

/-- User code is interrupted with nothing on its kernel stack. -/
theorem Represents.free (h : Represents m a) (current : m.currentThread = some t)
    (kernel : ¬ m.cpu.User → m.Free m.entryStack contextWords) :
    m.Free m.entryStack contextWords := by
  by_cases user : m.cpu.User
  · obtain ⟨_, t', current', none⟩ := h.user user
    cases current.symm.trans current'
    obtain ⟨context, known, rsp0, _⟩ := h.running t current
    have top : m.entryStack = context.kernelStack &&& ~~~15 := by
      rw [Machine.entryStack, if_pos user, rsp0]
    obtain ⟨le, near⟩ := aligned_bounds context.kernelStack
    rw [← top] at le near
    have room : 8192 < context.kernelStack.toNat := h.saved.room known
    have inStack : ∀ x, m.entryStack.toNat - 8 * contextWords ≤ x → x < m.entryStack.toNat →
        context.InStack x := by
      intro x from_x below
      rw [contextWords] at from_x
      refine ⟨?_, Nat.lt_of_lt_of_le below le⟩
      rw [kernelStackSize]
      omega
    have chain := h.saved.chain known
    rw [none] at chain
    refine ⟨?_, ?_, ?_⟩
    · rw [contextWords]
      omega
    · rintro x from_x below ⟨t', other, known', there⟩
      by_cases same : t' = t
      · subst same
        cases known.symm.trans known'
        rw [show context.nativeContext = 0 from chain] at there
        exact not_saved_zero there
      · exact (h.saved.apart known' known same x there).2 (inStack x from_x below)
    · intro x from_x below t' other known' ne
      refine h.saved.stacksApart known known' ?_ x (inStack x from_x below)
      rintro rfl
      exact ne current
  · exact kernel user

theorem unknown_update {contexts contexts' : ThreadId → Option ThreadContext}
    {suspended : ThreadId → List X86Context} {list : List X86Context}
    (h : ∀ t, contexts t = none → suspended t = [])
    (known : ∀ t', contexts' t' = none → t' ≠ t ∧ contexts t' = none) (t' : ThreadId)
    (none : contexts' t' = none) : update suspended t list t' = [] := by
  obtain ⟨ne, none⟩ := known t' none
  rw [update_of_ne ne]
  exact h t' none

theorem update_unknown {contexts : ThreadId → Option ThreadContext} {new : ThreadContext}
    (t' : ThreadId) (none : update contexts t (some new) t' = none) :
    t' ≠ t ∧ contexts t' = Option.none := by
  by_cases same : t' = t
  · subst same
    rw [update_self] at none
    cases none
  · rw [update_of_ne same] at none
    exact ⟨same, none⟩

theorem outermost_update {suspended : ThreadId → List X86Context} {list : List X86Context}
    (h : ∀ t, ∀ c ∈ (suspended t).dropLast, ¬ c.cpu.User)
    (own : ∀ c ∈ list.dropLast, ¬ c.cpu.User) (t' : ThreadId) :
    ∀ c ∈ (update suspended t list t').dropLast, ¬ c.cpu.User := by
  by_cases same : t' = t
  · subst same
    rwa [update_self]
  · rw [update_of_ne same]
    exact h t'

theorem Represents.interrupt (h : Represents m a) {cause : Machine.Cause} {code : UInt64}
    (valid : (Op.interrupt cause code).Valid m) :
    ∃ m' a', m.interrupt cause code = .ok m' ∧ Threads.Step (.interrupt cause code) a a' ∧
      Represents m' a' := by
  obtain ⟨stays, isSome, possible, kernel⟩ := valid
  obtain ⟨t, current⟩ := Option.isSome_iff_exists.mp isSome
  obtain ⟨context, known, rsp0, cr3⟩ := h.running t current
  have free := h.free current kernel
  obtain ⟨extra, run⟩ := interrupt_run code current known possible
  obtain ⟨s, pushed⟩ : ∃ s, s = Stack.pushAll { mem := m.mem, sp := m.entryStack }
    (entryWords m.cpu extra context.nativeContext) := ⟨_, rfl⟩
  have length : (entryWords m.cpu extra context.nativeContext).length = contextWords := rfl
  have room := free.room
  have enough : 8 * (entryWords m.cpu extra context.nativeContext).length ≤
      m.entryStack.toNat := Nat.le_of_lt room
  have sp : s.sp.toNat = m.entryStack.toNat - 8 * contextWords := by
    rw [pushed]
    exact Stack.sp_pushAll enough
  have here : At s.mem s.sp.toNat
      (context.nativeContext :: X86Context.words ⟨m.cpu, extra⟩) := by
    have all := Stack.at_pushAll (s := { mem := m.mem, sp := m.entryStack }) enough
      (show At m.mem m.entryStack.toNat [] by trivial)
    rw [List.append_nil, reverse_entryWords, ← pushed] at all
    exact all
  have same : ∀ x, m.IsSaved x → s.mem x = m.mem x := by
    intro x there
    rw [pushed]
    refine Stack.mem_pushAll enough ?_
    rcases Nat.lt_or_ge x (m.entryStack.toNat - 8 * contextWords) with below | from_x
    · exact .inl below
    · exact .inr (Nat.le_of_not_lt fun inside => free.unsaved x from_x inside there)
  have some_p : s.sp ≠ 0 := by
    intro none
    rw [none] at sp
    change 0 = _ at sp
    omega
  have bound := m.entryStack.toNat_lt
  have kernel : ¬ (handlerCpu m cause context s.sp).User := handlerCpu_kernel s.sp
  refine ⟨_, _, run s pushed, @Threads.Step.interrupt a cause code extra t _
    (h.current.trans current) kernel, ?_⟩
  refine
    { cpu := rfl
      current := h.current
      arguments := h.arguments
      saved := ?_
      unknown := ?_
      running := ?_
      own := ?_
      left := ?_
      boot := fun none => absurd (none.symm.trans current) nofun
      outermost := ?_
      user := fun user => absurd user (handlerCpu_kernel s.sp) }
  · rw [h.cpu]
    refine h.saved.push known some_p ?_ here (fun x there => same x (not_unsaved.mp there)) ?_
    · omega
    · intro x from_x below
      rw [sp] at from_x below
      have below' : x < m.entryStack.toNat := by omega
      refine ⟨fun t' other known' there => ?_, fun t' other known' ne => ?_⟩
      · exact free.unsaved x from_x below' ⟨t', other, known', there⟩
      refine free.own x from_x below' t' other known' ?_
      rw [current]
      exact fun same => ne (Option.some.inj same).symm
  · exact unknown_update h.unknown update_unknown
  · intro t' current'
    cases current.symm.trans current'
    exact ⟨_, update_self .., rsp0, cr3⟩
  · intro t' other known' onStack
    cases current.symm.trans onStack.1
    cases (update_self ..).symm.trans known'
    have before := (h.own t context known onStack).congr (by decide) (saved_agree same known)
    have now : update m.handlers t (s.sp :: m.handlers t) t = s.sp :: m.handlers t :=
      update_self ..
    change Links s.mem s.sp (update m.handlers t (s.sp :: m.handlers t) t)
    rw [now]
    refine ⟨rfl, some_p, ?_⟩
    rw [here.1]
    exact before
  · intro t' other known' away
    have ne : t' ≠ t := by
      rintro rfl
      exact away ⟨current, stays⟩
    have known' : m.contexts t' = some other := (update_of_ne ne ..).symm.trans known'
    have before := (h.left t' other known' away).congr (by decide) (saved_agree same known')
    have now : update m.handlers t (s.sp :: m.handlers t) t' = m.handlers t' :=
      update_of_ne ne ..
    change Links s.mem other.nativeContext
      (other.nativeContext :: update m.handlers t (s.sp :: m.handlers t) t')
    rwa [now]
  · refine outermost_update h.outermost ?_
    cases old : a.suspended t with
    | nil => exact nofun
    | cons c rest =>
        rw [List.dropLast_cons_cons]
        intro c' mem
        rcases List.mem_cons.mp mem with rfl | mem
        · intro user
          rw [h.cpu] at user
          obtain ⟨_, t', current', none⟩ := h.user user
          cases current.symm.trans current'
          rw [old] at none
          cases none
        · refine h.outermost t c' ?_
          rwa [old]

theorem outermost_tail {suspended : ThreadId → List X86Context} {c : X86Context}
    {rest : List X86Context} (h : ∀ t, ∀ c ∈ (suspended t).dropLast, ¬ c.cpu.User)
    (latest : suspended t = c :: rest) :
    (∀ c' ∈ rest.dropLast, ¬ c'.cpu.User) ∧ (c.cpu.User → rest = []) := by
  have all := h t
  rw [latest] at all
  cases rest with
  | nil => exact ⟨nofun, fun _ => rfl⟩
  | cons d rest =>
      rw [List.dropLast_cons_cons] at all
      refine ⟨fun c' mem => all c' (List.mem_cons_of_mem c mem), fun user => ?_⟩
      exact absurd user (all c List.mem_cons_self)

theorem Represents.returnFromInterrupt (h : Represents m a)
    (valid : Op.returnFromInterrupt.Valid m) :
    ∃ m' a', m.returnFromInterrupt = .ok m' ∧ Threads.Step .returnFromInterrupt a a' ∧
      Represents m' a' := by
  obtain ⟨kernel, unsaved, t, current, inHandler⟩ := valid
  obtain ⟨context, known, rsp0, cr3⟩ := h.running t current
  -- the current thread has a context, left behind or saved by the handler that returns
  have some_context : context.nativeContext ≠ 0 := by
    by_cases stays : m.leaving = false
    · have linked := h.own t context known ⟨current, stays⟩
      cases hs : m.handlers t with
      | nil => exact absurd hs (inHandler stays)
      | cons p ps =>
          rw [hs] at linked
          exact linked.2.1
    · exact (h.left t context known fun onStack => stays onStack.2).2.1
  obtain ⟨c, rest, latest⟩ := h.latest known some_context
  obtain ⟨mem, written⟩ : ∃ mem, mem = (m.stack.push m.cpu.rip).mem := ⟨_, rfl⟩
  have same : ∀ x, m.IsSaved x → mem x = m.mem x := by
    intro x there
    rw [written]
    refine update_of_ne ?_ ..
    rintro rfl
    exact unsaved there
  have saved : Stacks mem m.contexts a.suspended :=
    h.saved.congr fun x there => same x (not_unsaved.mp there)
  have chain := saved.chain known
  rw [latest] at chain
  have link : mem context.nativeContext.toNat = m.mem context.nativeContext.toNat :=
    saved_agree same known _ (.start (by decide) some_context)
  obtain ⟨inner, outer⟩ := outermost_tail h.outermost latest
  have run := return_run current known (c := c) (w := mem context.nativeContext.toNat)
    (by rw [← written]; exact chain.holds)
  rw [← written] at run
  refine ⟨_, _, run, .returnFromInterrupt (h.current.trans current) latest, ?_⟩
  refine
    { cpu := rfl
      current := h.current
      arguments := h.arguments
      saved := saved.pop known latest
      unknown := unknown_update h.unknown update_unknown
      running := ?_
      own := ?_
      left := ?_
      boot := fun none => absurd (none.symm.trans current) nofun
      outermost := outermost_update h.outermost inner
      user := fun user => ⟨rfl, t, current, (update_self ..).trans (outer user)⟩ }
  · intro t' current'
    cases current.symm.trans current'
    exact ⟨_, update_self .., rsp0, cr3⟩
  · intro t' other known' onStack
    cases current.symm.trans onStack.1
    cases (update_self ..).symm.trans known'
    change Links mem (mem context.nativeContext.toNat) (m.returned t t)
    rw [Machine.returned, link]
    by_cases stays : m.leaving = false
    · have linked := (h.own t context known ⟨current, stays⟩).congr (by decide)
        (saved_agree same known)
      rw [stays, if_neg (by decide), update_self]
      cases hs : m.handlers t with
      | nil => trivial
      | cons p ps =>
          rw [hs] at linked
          rw [← link]
          exact linked.2.2
    · have linked := (h.left t context known fun onStack => stays onStack.2).congr (by decide)
        (saved_agree same known)
      rw [if_pos (Bool.eq_true_of_not_eq_false stays), ← link]
      exact linked.2.2
  · intro t' other known' away
    have ne : t' ≠ t := by
      rintro rfl
      exact away ⟨current, rfl⟩
    have known' : m.contexts t' = some other := (update_of_ne ne ..).symm.trans known'
    have before := (h.left t' other known' fun onStack => ne ?_).congr (by decide)
      (saved_agree same known')
    · change Links mem other.nativeContext (other.nativeContext :: m.returned t t')
      have now : m.returned t t' = m.handlers t' := by
        unfold Machine.returned
        split
        · rfl
        · exact update_of_ne ne ..
      rwa [now]
    · exact (Option.some.inj (current.symm.trans onStack.1)).symm

theorem Represents.setCurrentThread (h : Represents m a)
    (valid : (Op.setCurrentThread t).Valid m) :
    ∃ m' a', m.setCurrentThread t = .ok m' ∧ Threads.Step (.setCurrentThread t) a a' ∧
      Represents m' a' := by
  obtain ⟨kernel, stays, isSome, other, inHandler⟩ := valid
  obtain ⟨context, known⟩ := Option.isSome_iff_exists.mp isSome
  have run : m.setCurrentThread t = .ok
      { m with
        cr3 := m.pgtBase t
        rsp0 := context.kernelStack
        currentThread := some t
        handlers := m.switched
        leaving := m.currentThread.isSome } := by
    rw [Machine.setCurrentThread, known]
  refine ⟨_, _, run, .setCurrentThread, ?_⟩
  have linked : ∀ t' context', m.contexts t' = some context' →
      Links m.mem context'.nativeContext (context'.nativeContext :: m.switched t') := by
    intro t' context' known'
    rw [Machine.switched]
    cases was : m.currentThread with
    | none => exact h.left t' context' known' fun onStack => nomatch was.symm.trans onStack.1
    | some old =>
        dsimp only
        by_cases same : t' = old
        · subst same
          rw [update_self]
          have before := h.own t' context' known' ⟨was, stays⟩
          cases hs : m.handlers t' with
          | nil => exact absurd hs (inHandler t' was)
          | cons p ps =>
              rw [hs] at before
              exact ⟨rfl, before.2⟩
        · rw [update_of_ne same]
          refine h.left t' context' known' fun onStack => same ?_
          exact (Option.some.inj (was.symm.trans onStack.1)).symm
  refine
    { cpu := h.cpu
      current := rfl
      arguments := h.arguments
      saved := h.saved
      unknown := h.unknown
      running := ?_
      own := ?_
      left := ?_
      boot := nofun
      outermost := h.outermost
      user := fun user => absurd user kernel }
  · intro t' current'
    cases current'
    exact ⟨context, known, rfl, rfl⟩
  · intro t' context' known' onStack
    have isNone : m.currentThread.isSome = false := onStack.2
    have none : m.currentThread = none :=
      Option.isNone_iff_eq_none.mp (Option.isSome_eq_false_iff.mp isNone)
    have empty : m.switched t' = [] := by
      rw [Machine.switched, none]
      exact (h.boot none).2 t'
    change Links m.mem context'.nativeContext (m.switched t')
    rw [empty]
    trivial
  · exact fun t' context' known' _ => linked t' context' known'

theorem words_setGpr (c : X86Context) (r : Gpr) (v : UInt64) :
    (c.setGpr r v).words = c.words.set (Machine.field r) v := by
  cases r <;> rfl

theorem Represents.store (h : Represents m a) (known : m.contexts t = some context)
    {c c' : X86Context} {rest : List X86Context} (latest : a.suspended t = c :: rest) {i : Nat}
    (inside : i < c.words.length) {v : UInt64} (words : c'.words = c.words.set i v)
    (ring : c'.cpu.User ↔ c.cpu.User) :
    Represents { m with mem := update m.mem (context.nativeContext.toNat + 8 + 8 * i) v }
      { a with suspended := update a.suspended t (c' :: rest) } := by
  have chain := h.saved.chain known
  rw [latest] at chain
  obtain ⟨mine, _⟩ := chain.store_saved inside
  have links : ∀ t' other ps, m.contexts t' = some other → Links m.mem other.nativeContext ps →
      Links (update m.mem (context.nativeContext.toNat + 8 + 8 * i) v) other.nativeContext ps := by
    intro t' other ps known' linked
    by_cases same : t' = t
    · subst same
      cases known.symm.trans known'
      exact (chain.store_links (by decide) inside v linked).1
    · refine linked.congr (n := contextWords) (by decide) fun x there => update_of_ne ?_ ..
      rintro rfl
      exact (h.saved.apart known known' (Ne.symm same) _ mine).1 there
  refine
    { h with
      saved := h.saved.store known latest inside words
      unknown := unknown_update h.unknown fun t' none => ⟨?_, none⟩
      own := fun t' other known' onStack => links t' other _ known' (h.own t' other known' onStack)
      left := fun t' other known' away => links t' other _ known' (h.left t' other known' away)
      outermost := outermost_update h.outermost ?_
      user := ?_ }
  · rintro rfl
    exact nomatch known.symm.trans none
  · have all := h.outermost t
    rw [latest] at all
    cases rest with
    | nil => exact nofun
    | cons d rest =>
        rw [List.dropLast_cons_cons] at all ⊢
        intro c₁ mem
        rcases List.mem_cons.mp mem with rfl | mem
        · rw [ring]
          exact all c List.mem_cons_self
        · exact all c₁ (List.mem_cons_of_mem c mem)
  · intro user
    obtain ⟨stays, t', current, none⟩ := h.user user
    refine ⟨stays, t', current, ?_⟩
    by_cases same : t' = t
    · subst same
      rw [latest] at none
      cases none
    · exact (update_of_ne same ..).trans none

theorem storeField_run {i : Nat} {v : UInt64} (some_context : p ≠ 0) :
    m.storeField p i v = .ok { m with mem := update m.mem (p.toNat + 8 + 8 * i) v } :=
  if_neg some_context

theorem field_inside (c : X86Context) (r : Gpr) : Machine.field r < c.words.length := by
  change Machine.field r < 21
  cases r <;> decide

theorem setResult_eq {result : UInt64} {ps : List UInt64} (current : m.currentThread = some t)
    (handlers : m.handlers t = p :: ps) :
    m.setResult result = m.storeField p (Machine.field .rax) result := by
  rw [Machine.setResult, current]
  dsimp only
  rw [handlers]

theorem Represents.setResult (h : Represents m a) {result : UInt64}
    (valid : (Op.setResult result).Valid m) :
    ∃ m' a', m.setResult result = .ok m' ∧ Threads.Step (.setResult result) a a' ∧
      Represents m' a' := by
  obtain ⟨_, stays, t, current, inHandler⟩ := valid
  obtain ⟨context, known, _⟩ := h.running t current
  have linked := h.own t context known ⟨current, stays⟩
  cases hs : m.handlers t with
  | nil => exact absurd hs inHandler
  | cons ctx ps =>
      rw [hs] at linked
      -- what the handler read when it started is the latest context again
      obtain ⟨rfl, some_context, _⟩ := linked
      obtain ⟨c, rest, latest⟩ := h.latest known some_context
      refine ⟨_, _, ?_, .setResult (h.current.trans current) latest,
        h.store known latest (field_inside c .rax) (words_setGpr c .rax result) Iff.rfl⟩
      exact (setResult_eq current hs).trans (storeField_run some_context)

theorem Represents.withArguments (h : Represents m a) (arguments : ThreadId → Nat) :
    Represents { m with entryArguments := arguments } { a with entryArguments := arguments } :=
  { h with arguments := rfl }

theorem Represents.addEntryArgument (h : Represents m a) {arg : UInt64}
    (valid : (Op.addEntryArgument t arg).Valid m) :
    ∃ m' a', m.addEntryArgument t arg = .ok m' ∧ Threads.Step (.addEntryArgument t arg) a a' ∧
      Represents m' a' := by
  obtain ⟨context, known, some_context⟩ := valid
  obtain ⟨c, rest, latest⟩ := h.latest known some_context
  cases register : Machine.argumentRegister (m.entryArguments t) with
  | none =>
      refine ⟨m, a, ?_, .noRegister ?_, h⟩
      · rw [Machine.addEntryArgument, known]
        dsimp only
        rw [register]
      · rwa [h.arguments]
  | some r =>
      have stored := h.store known latest (field_inside c r) (words_setGpr c r arg) Iff.rfl
      have counted := stored.withArguments (update a.entryArguments t (a.entryArguments t + 1))
      refine ⟨_, _, ?_, .addEntryArgument (by rwa [h.arguments]) latest, counted⟩
      rw [Machine.addEntryArgument, known]
      dsimp only
      rw [register]
      dsimp only
      rw [storeField_run some_context, h.arguments]
      rfl

theorem Represents.allocateUserStack (h : Represents m a) {vaddr size : UInt64}
    (valid : (Op.allocateUserStack t vaddr size).Valid m) :
    ∃ m' a', m.allocateUserStack t vaddr size = .ok m' ∧
      Threads.Step (.allocateUserStack t vaddr size) a a' ∧ Represents m' a' := by
  obtain ⟨context, known, some_context⟩ := valid
  obtain ⟨c, rest, latest⟩ := h.latest known some_context
  have inside : Machine.rspField < c.words.length := by
    change 19 < 21
    decide
  have stored : Represents _ { a with
      suspended := update a.suspended t
        ({ c with cpu := { c.cpu with rsp := vaddr + size } } :: rest) } :=
    h.store known latest inside rfl Iff.rfl
  refine ⟨_, _, ?_, .allocateUserStack latest, stored⟩
  rw [Machine.allocateUserStack, known]
  exact storeField_run some_context

theorem prepareInitialStack_run {kernel : Bool} {entryPoint kernelStack : UInt64} {mem : Words}
    (room : kernelStackSize < kernelStack.toNat) {s : Stack}
    (prepared : s = Machine.prepareInitialStack kernel entryPoint kernelStack mem) :
    s.sp.toNat = kernelStack.toNat - 8 * contextWords ∧
      At s.mem s.sp.toNat (0 :: (X86Context.initial kernel entryPoint kernelStack).words) ∧
      ∀ x, x < kernelStack.toNat - 8 * contextWords ∨ kernelStack.toNat ≤ x → s.mem x = mem x := by
  obtain ⟨pushed, words⟩ : ∃ ws : List UInt64, ws = [if kernel then 0x10 else 0x23, 0, 0x202,
    if kernel then 0x8 else 0x1b, entryPoint, 0] ++
      [0, 0, 0, 0, 0, 0, 0, 0, 0, 0, 0, 0, 0, 0, 0] ++ [0] := ⟨_, rfl⟩
  obtain ⟨s₁, stack⟩ : ∃ s₁, s₁ = Stack.pushAll { mem := mem, sp := kernelStack } pushed :=
    ⟨_, rfl⟩
  have length : pushed.length = contextWords := by
    rw [words]
    rfl
  rw [kernelStackSize] at room
  have enough : 8 * pushed.length ≤ kernelStack.toNat := by
    rw [length, contextWords]
    omega
  have sp : s₁.sp.toNat = kernelStack.toNat - 8 * contextWords := by
    rw [stack, ← length]
    exact Stack.sp_pushAll enough
  have all : At s₁.mem s₁.sp.toNat (pushed.reverse ++ []) := by
    rw [stack]
    exact Stack.at_pushAll enough (show At mem kernelStack.toNat [] by trivial)
  have same : ∀ x, x < kernelStack.toNat - 8 * contextWords ∨ kernelStack.toNat ≤ x →
      s₁.mem x = mem x := by
    intro x out
    rw [stack]
    rw [← length] at out
    exact Stack.mem_pushAll enough out
  have eq : s = { s₁ with mem := update s₁.mem (s₁.sp.toNat + 8 + 8 * 19) kernelStack } := by
    rw [prepared, stack, words, pushAll_append, pushAll_append]
    rfl
  rw [contextWords] at sp same ⊢
  rw [eq]
  refine ⟨sp, ?_, fun x out => ?_⟩
  · rw [words] at all
    change At s₁.mem s₁.sp.toNat (0 :: (X86Context.initial kernel entryPoint 0).words) at all
    refine ⟨(update_of_ne ?_ ..).trans all.1, all.2.set 19 kernelStack⟩
    change s₁.sp.toNat ≠ s₁.sp.toNat + 8 + 8 * 19
    omega
  · refine (update_of_ne ?_ ..).trans (same x out)
    omega

theorem Represents.createThread (h : Represents m a) {kernel : Bool}
    {entryPoint kernelStack address pgtBase : UInt64}
    (valid : (Op.createThread t kernel entryPoint kernelStack address pgtBase).Valid m) :
    ∃ a', Threads.Step (.createThread t kernel entryPoint kernelStack address pgtBase) a a' ∧
      Represents (m.createThread t kernel entryPoint kernelStack address pgtBase) a' := by
  obtain ⟨inKernel, unknown, room, free⟩ := valid
  obtain ⟨s, prepared⟩ : ∃ s, s = Machine.prepareInitialStack kernel entryPoint kernelStack m.mem :=
    ⟨_, rfl⟩
  obtain ⟨sp, here, written⟩ := prepareInitialStack_run room prepared
  rw [kernelStackSize] at free
  have room' : 8192 < kernelStack.toNat := room
  have bound := kernelStack.toNat_lt
  rw [contextWords] at sp written
  have some_p : s.sp ≠ 0 := by
    intro none
    rw [none] at sp
    change 0 = _ at sp
    omega
  have same : ∀ x, m.IsSaved x → s.mem x = m.mem x := by
    intro x there
    refine written x ?_
    rcases Nat.lt_or_ge x (kernelStack.toNat - 8 * 22) with below | from_x
    · exact .inl below
    · exact .inr (Nat.le_of_not_lt fun inside => (free x (by omega) inside).1 there)
  have saved : Stacks s.mem m.contexts a.suspended :=
    h.saved.congr fun x there => same x (not_unsaved.mp there)
  have chain : Chain contextWords s.mem s.sp
      (List.map X86Context.words [.initial kernel entryPoint kernelStack]) := by
    refine ⟨some_p, rfl, ?_, here.2, ?_, here.1⟩
    · rw [contextWords]
      omega
    · intro x _ _ there
      rw [here.1] at there
      exact not_saved_zero there
  have inStack : ∀ x, Saved contextWords s.mem s.sp x →
      kernelStack.toNat - 8192 ≤ x ∧ x < kernelStack.toNat := by
    intro x there
    rcases (saved_cons some_p).mp there with ⟨from_p, below⟩ | there
    · rw [contextWords] at below
      omega
    · rw [here.1] at there
      exact absurd there not_saved_zero
  refine ⟨_, .createThread (h.unknown t unknown), ?_⟩
  have created : m.createThread t kernel entryPoint kernelStack address pgtBase =
      { m with
        mem := s.mem
        contexts := update m.contexts t
          (some { address := address, nativeContext := s.sp, kernelStack := kernelStack })
        pgtBase := update m.pgtBase t pgtBase
        entryArguments := update m.entryArguments t 0
        handlers := update m.handlers t [] } := by
    rw [prepared]
    rfl
  rw [created, h.arguments]
  refine
    { h with
      arguments := rfl
      saved := ?_
      unknown := unknown_update h.unknown update_unknown
      running := ?_
      own := ?_
      left := ?_
      boot := ?_
      outermost := outermost_update h.outermost nofun
      user := fun user => absurd user inKernel }
  · refine saved.replace room chain ?_
    intro t' other known' ne x mine
    have inside : kernelStack.toNat - 8192 ≤ x ∧ x < kernelStack.toNat := by
      rcases mine with there | inside
      · exact inStack x there
      · exact inside
    obtain ⟨unsaved, foreign⟩ := free x inside.1 inside.2
    refine ⟨fun there => unsaved ⟨t', other, known', ?_⟩, foreign t' other known'⟩
    exact (saved_congr (by decide) (saved_agree same known')).mp there
  · intro t' current
    obtain ⟨context, known, rsp0, cr3⟩ := h.running t' current
    have ne : t' ≠ t := by
      rintro rfl
      exact nomatch unknown.symm.trans known
    exact ⟨context, (update_of_ne ne ..).trans known, rsp0, cr3.trans (update_of_ne ne ..).symm⟩
  · intro t' other known' onStack
    obtain ⟨context, known, _⟩ := h.running t' onStack.1
    have ne : t' ≠ t := by
      rintro rfl
      exact nomatch unknown.symm.trans known
    have known' : m.contexts t' = some other := (update_of_ne ne ..).symm.trans known'
    change Links s.mem other.nativeContext (update m.handlers t [] t')
    rw [update_of_ne ne]
    exact (h.own t' other known' onStack).congr (by decide) (saved_agree same known')
  · intro t' other known' away
    change Links s.mem other.nativeContext (other.nativeContext :: update m.handlers t [] t')
    rcases update_known known' with ⟨rfl, rfl⟩ | ⟨ne, known'⟩
    · rw [update_self]
      exact ⟨rfl, some_p, trivial⟩
    · rw [update_of_ne ne]
      exact (h.left t' other known' away).congr (by decide) (saved_agree same known')
  · intro none
    refine ⟨(h.boot none).1, fun t' => ?_⟩
    change update m.handlers t [] t' = []
    rw [update_apply, (h.boot none).2 t']
    exact ite_self _

/-- Every operation goes through, as the threads' computations say. -/
theorem Represents.step (h : Represents m a) {op : Op} (valid : op.Valid m) :
    ∃ m' a', op.exec m = .ok m' ∧ Threads.Step op a a' ∧ Represents m' a' := by
  cases op with
  | execute cpu mem =>
      exact ⟨_, _, rfl, .execute (h.cpu ▸ valid.1), h.execute valid⟩
  | interrupt cause code => exact h.interrupt valid
  | returnFromInterrupt => exact h.returnFromInterrupt valid
  | setCurrentThread t => exact h.setCurrentThread valid
  | setResult result => exact h.setResult valid
  | createThread t kernel entryPoint kernelStack address pgtBase =>
      obtain ⟨a', step, represents⟩ := h.createThread valid
      exact ⟨_, a', rfl, step, represents⟩
  | addEntryArgument t arg => exact h.addEntryArgument valid
  | allocateUserStack t vaddr size => exact h.allocateUserStack valid

end Steps

/-! ### Runs -/

/-- Before there are threads. -/
def Machine.threads (m : Machine) : Threads where
  cpu := m.cpu
  current := none
  suspended := fun _ => []
  entryArguments := m.entryArguments

theorem Boot.represents {m : Machine} (boot : Boot m) : Represents m m.threads where
  cpu := rfl
  current := boot.noCurrent.symm
  arguments := rfl
  saved :=
    { chain := fun {t _} known => nomatch (boot.noThread t).symm.trans known
      apart := fun {t _ _ _} known => nomatch (boot.noThread t).symm.trans known
      stacksApart := fun {t _ _ _} known => nomatch (boot.noThread t).symm.trans known
      room := fun {t _} known => nomatch (boot.noThread t).symm.trans known }
  unknown := fun _ _ => rfl
  running := fun _ current => nomatch boot.noCurrent.symm.trans current
  own := fun t _ known => nomatch (boot.noThread t).symm.trans known
  left := fun t _ known => nomatch (boot.noThread t).symm.trans known
  boot := fun _ => ⟨boot.stays, boot.noHandler⟩
  outermost := fun _ => nofun
  user := fun user => absurd user boot.kernel

/-- In every run the machine does with each thread what its suspended computations say: the
latest goes on with the registers it was interrupted with, and no operation faults. -/
theorem threads_resume {m₀ m : Machine} {ops : List Op} (boot : Boot m₀) (run : Runs m₀ ops m) :
    ∃ a, Threads.Runs m₀.threads ops a ∧ a.cpu = m.cpu ∧ a.current = m.currentThread ∧
      ∀ op : Op, op.Valid m → ∃ m' a', op.exec m = .ok m' ∧ Threads.Step op a a' ∧
        a'.cpu = m'.cpu := by
  have all : ∃ a, Threads.Runs m₀.threads ops a ∧ Represents m a := by
    induction run with
    | nil => exact ⟨_, .nil, boot.represents⟩
    | snoc _ valid exec ih =>
        obtain ⟨a, runs, represents⟩ := ih
        obtain ⟨m', a', exec', step, represents'⟩ := represents.step valid
        cases exec.symm.trans exec'
        exact ⟨a', runs.snoc step, represents'⟩
  obtain ⟨a, runs, represents⟩ := all
  refine ⟨a, runs, represents.cpu, represents.current, fun op valid => ?_⟩
  obtain ⟨m', a', exec, step, represents'⟩ := represents.step valid
  exact ⟨m', a', exec, step, represents'.cpu⟩

/-- The kernel as it starts its idle thread. -/
def bootMachine : Machine where
  cpu := { gpr := fun _ => 0, rip := 0, cs := 0x08, rflags := 0x2, rsp := 0x9000, ss := 0x10 }
  mem := fun _ => 0
  cr3 := 0
  rsp0 := 0
  irqEntryPoints := fun _ => 0
  currentThread := none
  contexts := fun _ => none
  pgtBase := fun _ => 0
  entryArguments := fun _ => 0
  handlers := fun _ => []
  leaving := false

theorem bootMachine_boot : Boot bootMachine where
  kernel := by decide
  noThread := fun _ => rfl
  noCurrent := rfl
  noHandler := fun _ => rfl
  stays := rfl

/-- With the idle thread. -/
def idleMachine : Machine := bootMachine.createThread 0 true 0x1000 0x8000 0x100 0x3000

/-- The idle thread's registers once it waits for interrupts. -/
def waitingCpu : Cpu :=
  { gpr := fun _ => 5, rip := 0x1234, cs := 0x08, rflags := 0x202, rsp := 0x9000, ss := 0x10 }

/-- A timer interrupt finds the idle thread waiting, and returns to it. -/
def idleInterrupted : List Op :=
  [.createThread 0 true 0x1000 0x8000 0x100 0x3000, .setCurrentThread 0,
    .execute waitingCpu idleMachine.mem, .interrupt (.external 32) 0, .returnFromInterrupt]

/-- Only one thread has saved contexts. -/
theorem isSaved_only {m : Machine} {context : ThreadContext} {t : ThreadId} {a : Nat}
    (own : m.contexts t = some context) (others : ∀ u, u ≠ t → m.contexts u = none) :
    m.IsSaved a ↔ Saved contextWords m.mem context.nativeContext a := by
  constructor
  · rintro ⟨u, context', known, saved⟩
    by_cases same : u = t
    · cases (same ▸ known).symm.trans own
      exact saved
    · cases known.symm.trans (others u same)
  · exact fun saved => ⟨t, context, own, saved⟩

theorem idleInterrupted_runs : ∃ m, Runs bootMachine idleInterrupted m ∧ m.cpu = waitingCpu := by
  have created : Op.Valid bootMachine (.createThread 0 true 0x1000 0x8000 0x100 0x3000) := by
    refine ⟨by decide, rfl, by decide, fun a _ _ => ⟨?_, fun _ _ known => nomatch known⟩⟩
    rintro ⟨_, _, known, _⟩
    cases known
  have switch : Op.Valid idleMachine (.setCurrentThread 0) := ⟨by decide, rfl, rfl, nofun, nofun⟩
  have switched := Runs.snoc (Runs.snoc .nil created rfl) switch rfl
  have waiting := switched.snoc
    (show Op.Valid _ (.execute waitingCpu idleMachine.mem) from ⟨by decide, fun _ _ => rfl⟩) rfl
  have interrupted := waiting.snoc (show Op.Valid _ (.interrupt (.external 32) 0) from ?_) rfl
  have resumed := interrupted.snoc (show Op.Valid _ .returnFromInterrupt from ?_) rfl
  · refine ⟨_, resumed, ?_⟩
    change Cpu.mk _ _ _ _ _ _ = Cpu.mk _ _ _ _ _ _
    congr 1
    funext r
    cases r <;> rfl
  · -- the return address is pushed just below the context it goes back to
    refine ⟨by decide, fun saved => ?_, 0, rfl, fun _ => nofun⟩
    have saved : Saved contextWords _ 0x8f50 0x8f48 :=
      (isSaved_only (t := 0) rfl fun _ other =>
        (update_of_ne other ..).trans (update_of_ne other ..)).mp saved
    rcases (saved_cons (by decide)).mp saved with ⟨above, _⟩ | saved
    · exact absurd above (by decide)
    have saved : Saved contextWords _ 0x7f50 0x8f48 := saved
    rcases (saved_cons (by decide)).mp saved with ⟨_, below⟩ | saved
    · exact absurd below (by decide)
    exact not_saved_zero saved
  · refine ⟨rfl, rfl, ⟨by decide, by decide⟩, fun _ => ⟨by decide, fun a above _ saved => ?_,
      fun a _ _ u context known other => ?_⟩⟩
    · -- the interrupt is saved above the context that `createThread` saved
      have saved : Saved contextWords idleMachine.mem 0x7f50 a :=
        (isSaved_only (t := 0) rfl fun _ other => update_of_ne other ..).mp saved
      rcases (saved_cons (by decide)).mp saved with ⟨_, below⟩ | saved
      · have low : a < 0x8000 := below
        have high : 0x9000 - 176 ≤ a := above
        omega
      · exact not_saved_zero saved
    · have known : update bootMachine.contexts 0 _ u = some context := known
      rw [update_of_ne fun same => other (congrArg some same.symm)] at known
      cases known

theorem threads_resume_boot : ∃ (m : Machine) (a : Threads), Runs bootMachine idleInterrupted m ∧
    Threads.Runs bootMachine.threads idleInterrupted a ∧ a.cpu = m.cpu ∧
      a.current = m.currentThread ∧ m.cpu = waitingCpu := by
  obtain ⟨m, run, same⟩ := idleInterrupted_runs
  obtain ⟨a, runs, cpu, current, _⟩ := threads_resume bootMachine_boot run
  exact ⟨m, a, run, runs, cpu, current, same⟩

end Infos.Arch.ContextSwitch
