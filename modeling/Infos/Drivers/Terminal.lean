import Infos.Lib.Exec
import Infos.Lib.Ring

/-!
# The read buffer of a terminal

Keys are appended to a ring of 64 bytes and read from it. A reader that finds
the two indices equal waits; the event that wakes it is left out.
-/
namespace Infos.Drivers
open Infos.Lib Function

structure Terminal where
  readBuffer : Vector UInt8 64
  readBufferHead : UInt8
  readBufferTail : UInt8
  deriving DecidableEq

namespace Terminal

/-- The constructor leaves the bytes of the buffer as they were. -/
def new (memory : Vector UInt8 64) : Terminal := ⟨memory, 0, 0⟩

def appendToReadBuffer (c : UInt8) : Exec Terminal Unit := do
  let t ← get
  if h : t.readBufferTail.toNat < 64 then
    set { t with
      readBuffer := t.readBuffer.set t.readBufferTail.toNat c
      readBufferTail := (t.readBufferTail + 1) % 64 }
  else throw .outOfBounds

/-- One round of the loop of `read`; `none` is a wait. -/
def readElem : Exec Terminal (Option UInt8) := do
  let t ← get
  if t.readBufferHead = t.readBufferTail then pure none
  else if h : t.readBufferHead.toNat < 64 then do
    set { t with readBufferHead := (t.readBufferHead + 1) % 64 }
    pure (some t.readBuffer[t.readBufferHead.toNat])
  else throw .outOfBounds

/-- What `read` of `size` bytes stores before it first waits. -/
def readUntilWait : Nat → Exec Terminal (List UInt8)
  | 0 => pure []
  | size + 1 => do
      match ← readElem with
      | none => pure []
      | some elem => do pure (elem :: (← readUntilWait size))

/-- The bytes that can still be read. -/
def unread (t : Terminal) : List UInt8 :=
  match (readUntilWait 64).run t with
  | .ok (bytes, _) => bytes
  | .error _ => []

/-! ### The ring -/

structure Bounded (t : Terminal) : Prop where
  head : t.readBufferHead.toNat < 64
  tail : t.readBufferTail.toNat < 64

def cells (t : Terminal) (i : Nat) : UInt8 := if h : i < 64 then t.readBuffer[i] else 0

def contents (t : Terminal) : List UInt8 :=
  Ring.contents t.cells 64 t.readBufferHead.toNat t.readBufferTail.toNat

theorem Bounded.new (memory : Vector UInt8 64) : (Terminal.new memory).Bounded :=
  ⟨show (0 : UInt8).toNat < 64 by decide, show (0 : UInt8).toNat < 64 by decide⟩

theorem contents_new (memory : Vector UInt8 64) : (Terminal.new memory).contents = [] :=
  Ring.contents_empty _ (Bounded.new memory).head

theorem toNat_next (i : UInt8) : ((i + 1) % 64).toNat = (i.toNat + 1) % 64 := by
  rw [UInt8.toNat_mod, UInt8.toNat_add]
  simp only [UInt8.reduceToNat]
  omega

section Calls
variable {t : Terminal}

theorem Bounded.length_lt (h : t.Bounded) : t.contents.length < 64 := by
  rw [contents, Ring.length_contents]
  exact Ring.length_lt h.head

/-- An append to a ring with 63 unread bytes leaves none. -/
theorem Bounded.append_run (h : t.Bounded) (c : UInt8) :
    ∃ t', (appendToReadBuffer c).run t = .ok ((), t') ∧ t'.Bounded ∧
      t'.contents = if t.contents.length = 63 then [] else t.contents ++ [c] := by
  let t' : Terminal := { t with
    readBuffer := t.readBuffer.set t.readBufferTail.toNat c h.tail
    readBufferTail := (t.readBufferTail + 1) % 64 }
  have next : t'.readBufferTail.toNat = (t.readBufferTail.toNat + 1) % 64 := toNat_next _
  have stored : t'.cells = update t.cells t.readBufferTail.toNat c := by
    funext i
    simp only [cells, update_apply]
    split_ifs with bound here here
    · subst here
      exact Vector.getElem_set_self h.tail
    · exact Vector.getElem_set_ne h.tail bound (Ne.symm here)
    · exact absurd (here ▸ h.tail) bound
    · rfl
  refine ⟨t', ?_, ⟨h.head, ?_⟩, ?_⟩
  · unfold appendToReadBuffer
    rw [bind_ok (run_get_eq t), dif_pos h.tail]
    rfl
  · rw [next]
    exact Nat.mod_lt _ (by decide)
  · unfold contents
    rw [stored, next, Ring.length_contents]
    split_ifs with full
    · exact Ring.contents_push_last _ _ h.head h.tail (congrArg (· + 1) full)
    · apply Ring.contents_push _ _ h.head h.tail
      omega

theorem Bounded.readElem_run (h : t.Bounded) :
    ∃ t', readElem.run t = .ok (t.contents.head?, t') ∧ t'.Bounded ∧
      t'.contents = t.contents.tail := by
  unfold readElem
  rw [bind_ok (run_get_eq t)]
  split_ifs with empty inside
  · have none : t.contents = [] := by
      rw [contents, empty]
      exact Ring.contents_empty _ h.tail
    rw [none]
    exact ⟨t, rfl, h, none⟩
  · let t' : Terminal := { t with readBufferHead := (t.readBufferHead + 1) % 64 }
    have next : t'.readBufferHead.toNat = (t.readBufferHead.toNat + 1) % 64 := toNat_next _
    have pop : t.contents = t.readBuffer[t.readBufferHead.toNat] :: t'.contents := by
      unfold contents
      rw [Ring.contents_pop _ h.head h.tail fun same => empty (UInt8.toNat.inj same), next]
      congr 1
      exact dif_pos inside
    rw [pop]
    refine ⟨t', rfl, ⟨?_, h.tail⟩, rfl⟩
    rw [next]
    exact Nat.mod_lt _ (by decide)
  · exact absurd h.head inside

theorem Bounded.readUntilWait_run {size : Nat} (h : t.Bounded) (fits : t.contents.length ≤ size) :
    ∃ t', (readUntilWait size).run t = .ok (t.contents, t') := by
  induction size generalizing t with
  | zero =>
      rw [List.length_eq_zero_iff.mp (Nat.le_zero.mp fits)]
      exact ⟨t, rfl⟩
  | succ size ih =>
      obtain ⟨t₁, run, h₁, rest⟩ := h.readElem_run
      unfold readUntilWait
      rw [bind_ok run]
      cases contents : t.contents with
      | nil => exact ⟨t₁, rfl⟩
      | cons elem bytes =>
          rw [contents] at fits rest
          rw [List.tail_cons] at rest
          obtain ⟨t', run'⟩ := ih h₁ (rest ▸ Nat.le_of_succ_le_succ fits)
          refine ⟨t', ?_⟩
          rw [← rest]
          exact bind_ok run'

theorem Bounded.unread_eq (h : t.Bounded) : t.unread = t.contents := by
  obtain ⟨t', run⟩ := h.readUntilWait_run (Nat.le_of_lt h.length_lt)
  rw [unread, run]

end Calls

/-! ### Runs -/

inductive Op where
  | append (c : UInt8)
  | remove
  deriving DecidableEq

/-- The bytes delivered by a sequence of appends and removals. -/
def runOps : List Op → Exec Terminal (List UInt8)
  | [] => pure []
  | .append c :: ops => do
      appendToReadBuffer c
      runOps ops
  | .remove :: ops => do
      let elem ← readElem
      pure (elem.toList ++ (← runOps ops))

def appended : List Op → List UInt8
  | [] => []
  | .append c :: ops => c :: appended ops
  | .remove :: ops => appended ops

/-- What has been delivered and what can still be read, in this order, was appended. -/
theorem Bounded.runOps_run {t : Terminal} (h : t.Bounded) (ops : List Op) :
    ∃ out t', (runOps ops).run t = .ok (out, t') ∧ t'.Bounded ∧
      (out ++ t'.contents).Sublist (t.contents ++ appended ops) := by
  induction ops generalizing t with
  | nil =>
      refine ⟨[], t, rfl, h, ?_⟩
      rw [appended, List.append_nil]
      exact List.Sublist.refl _
  | cons op ops ih =>
      cases op with
      | append c =>
          obtain ⟨t₁, run, h₁, stored⟩ := h.append_run c
          obtain ⟨out, t', run', h', kept⟩ := ih h₁
          refine ⟨out, t', (bind_ok run).trans run', h', kept.trans ?_⟩
          rw [stored, appended]
          split_ifs
          · exact (List.sublist_cons_self c _).trans (List.sublist_append_right _ _)
          · simp
      | remove =>
          obtain ⟨t₁, run, h₁, rest⟩ := h.readElem_run
          obtain ⟨out, t', run', h', kept⟩ := ih h₁
          refine ⟨_, t', (bind_ok run).trans (bind_ok run'), h', ?_⟩
          rw [rest] at kept
          rw [appended]
          cases contents : t.contents with
          | nil =>
              rw [contents] at kept
              exact kept
          | cons elem bytes =>
              rw [contents] at kept
              exact kept.cons_cons elem

/-- An append makes one more byte readable or, to a full ring, discards at most one byte. A ring
with 64 unread bytes would look empty. -/
def Lossless (t : Terminal) (c : UInt8) : Prop :=
  ∃ t', (appendToReadBuffer c).run t = .ok ((), t') ∧
    (t'.unread.length = t.unread.length + 1 ∨
      t.unread.length = 63 ∧ t.unread.length ≤ t'.unread.length)

structure Fifo (start : Terminal) (ops : List Op) : Prop where
  inOrder : ∃ out t, (runOps ops).run start = .ok (out, t) ∧ out.Sublist (appended ops)
  lossless : ∀ past c rest, ops = past ++ .append c :: rest →
    ∃ out t, (runOps past).run start = .ok (out, t) ∧ t.Lossless c

theorem Bounded.lossless_iff {t : Terminal} (h : t.Bounded) (c : UInt8) :
    t.Lossless c ↔ t.unread.length ≠ 63 := by
  obtain ⟨t', run, h', stored⟩ := h.append_run c
  rw [← h.unread_eq, ← h'.unread_eq] at stored
  constructor
  · rintro ⟨t'', run', gained⟩ full
    cases run.symm.trans run'
    rw [if_pos full] at stored
    rw [stored, full] at gained
    rcases gained with more | ⟨_, kept⟩
    · exact absurd more nofun
    · exact absurd kept (by decide)
  · intro room
    rw [if_neg room] at stored
    refine ⟨t', run, Or.inl ?_⟩
    rw [stored, List.length_append, List.length_singleton]

/-- The input is a lossless queue exactly where no byte is appended to 63 unread ones. -/
theorem read_buffer_fifo_iff (memory : Vector UInt8 64) (ops : List Op) :
    Fifo (new memory) ops ↔ ∀ past c rest, ops = past ++ .append c :: rest →
      ∀ out t, (runOps past).run (new memory) = .ok (out, t) → t.unread.length ≠ 63 := by
  have start : (new memory).Bounded := .new memory
  constructor
  · intro fifo past c rest split out t run
    obtain ⟨out₁, t₁, run₁, h₁, _⟩ := start.runOps_run past
    obtain ⟨out₂, t₂, run₂, lossless⟩ := fifo.lossless past c rest split
    cases run.symm.trans run₁
    cases run.symm.trans run₂
    exact (h₁.lossless_iff c).mp lossless
  · intro room
    constructor
    case inOrder =>
      obtain ⟨out, t, run, _, kept⟩ := start.runOps_run ops
      rw [contents_new, List.nil_append] at kept
      exact ⟨out, t, run, (List.sublist_append_left _ _).trans kept⟩
    case lossless =>
      intro past c rest split
      obtain ⟨out, t, run, h, _⟩ := start.runOps_run past
      exact ⟨out, t, run, (h.lossless_iff c).mpr (room past c rest split out t run)⟩

/-- After 64 keys that nobody read none can be read. -/
theorem read_buffer_overflow :
    ¬ Fifo (new (Vector.replicate 64 0)) (List.replicate 64 (.append 97)) := by
  intro fifo
  obtain ⟨out, t, run, lossless⟩ := fifo.lossless (List.replicate 63 (.append 97)) 97 [] rfl
  obtain ⟨_, t', run', full⟩ := of_endsWith (x := runOps (List.replicate 63 (.append 97)))
    (s := new (Vector.replicate 64 0)) (p := fun _ t => t.unread.length = 63) (by decide +kernel)
  cases run.symm.trans run'
  obtain ⟨_, _, run₁, h, _⟩ := (Bounded.new _).runOps_run (List.replicate 63 (.append 97))
  cases run.symm.trans run₁
  exact (h.lossless_iff 97).mp lossless (of_decide_eq_true full)

end Terminal
end Infos.Drivers
