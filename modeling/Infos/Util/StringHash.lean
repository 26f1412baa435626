import Infos.Util.StringObjects

/-!
# The cached hash over whole runs
-/
namespace Infos.Util.StringObjects
open Infos.Lib Function

/-- An object with the string `text`, and with its hash if it has one. -/
structure Holds (blocks : BlockId → Option (List UInt8)) (o : StringObject) (text : List UInt8) :
    Prop where
  data : ∀ b, o.data = some b → blocks b = some (text ++ [0])
  null : o.data = none → text = []
  size : o.size = text.length
  small : text.length < 2 ^ 32
  ascii : ∀ c ∈ text, c < 128
  hash : o.hasHash = true → o.hash = fnv1a text

structure Inv (s : Heap) : Prop where
  holds : ∀ id o, s.objects id = some o → ∃ text, Holds s.blocks o text
  freshBlock : ∀ b, s.nextBlock ≤ b → s.blocks b = none

section Hash
variable {text : List UInt8} {c : UInt8}

theorem signed_of_ascii (h : c < 128) : c.toInt8.toInt64.toUInt64 = c.toUInt64 := by
  have all : ∀ n < 128, (UInt8.ofNat n).toInt8.toInt64.toUInt64 = (UInt8.ofNat n).toUInt64 := by
    decide +kernel
  simpa using all c.toNat (UInt8.lt_iff_toNat_lt.mp h)

theorem foldl_ascii (ascii : ∀ c ∈ text, c < 128) (hash : UInt64) :
    text.foldl (fun hash c => (hash ^^^ c.toInt8.toInt64.toUInt64) * 1099511628211) hash =
      text.foldl (fun hash c => (hash ^^^ c.toUInt64) * 1099511628211) hash := by
  induction text generalizing hash with
  | nil => rw [List.foldl_nil, List.foldl_nil]
  | cons c text ih =>
      obtain ⟨first, rest⟩ := List.forall_mem_cons.mp ascii
      rw [List.foldl_cons, List.foldl_cons, signed_of_ascii first]
      exact ih rest _

theorem computeHash_ascii (ascii : ∀ c ∈ text, c < 128) : computeHash text = fnv1a text :=
  foldl_ascii ascii _

end Hash

section Steps
variable {s s' : Heap} {o : StringObject} {text read : List UInt8} {this str id : ObjectId}
  {data : Option BlockId}

theorem object_run {t : Heap} (run : (object id).run s = .ok (o, t)) :
    t = s ∧ s.objects id = some o := by
  unfold object at run
  rw [bind_ok (run_get_eq s)] at run
  cases found : s.objects id with
  | none =>
      rw [found] at run
      cases run
  | some o' =>
      simp only [found, run_pure_eq, Except.ok.injEq, Prod.mk.injEq] at run
      exact ⟨run.2.symm, congrArg some run.1⟩

theorem readBytes_run (run : (readBytes o).run s = .ok (read, s')) :
    s' = s ∧ s.bytes o = .ok read := by
  unfold readBytes at run
  rw [bind_ok (run_get_eq s)] at run
  cases result : s.bytes o with
  | error e =>
      rw [result] at run
      cases run
  | ok read' =>
      rw [result, lift_ok] at run
      cases run
      exact ⟨rfl, rfl⟩

theorem Holds.bytes (h : Holds s.blocks o text) : s.bytes o = .ok text := by
  have fits : ¬ 2 ^ 32 ≤ o.size := by
    rw [h.size]
    exact Nat.not_le.mpr h.small
  unfold Heap.bytes
  rw [if_neg fits]
  by_cases empty : o.size = 0
  · have none : text = [] := List.length_eq_zero_iff.mp (h.size.symm.trans empty)
    rw [if_pos empty, none]
  · rw [if_neg empty]
    cases at_data : o.data with
    | none =>
        rw [h.size, h.null at_data] at empty
        exact absurd rfl empty
    | some b =>
        simp only [h.data b at_data, h.size]
        rw [if_pos (by simp), List.take_left]

theorem Holds.congr {blocks : BlockId → Option (List UInt8)} (h : Holds s.blocks o text)
    (same : ∀ b, o.data = some b → blocks b = s.blocks b) : Holds blocks o text where
  data b at_b := (same b at_b).trans (h.data b at_b)
  null := h.null
  size := h.size
  small := h.small
  ascii := h.ascii
  hash := h.hash

theorem Inv.old (h : Inv s) {o : StringObject} (holds : Holds s.blocks o text) {b : BlockId}
    (at_b : o.data = some b) : b ≠ s.nextBlock := by
  rintro rfl
  have none := h.freshBlock s.nextBlock le_rfl
  rw [holds.data _ at_b] at none
  cases none

theorem delete_run (run : (delete data).run s = .ok ((), s')) :
    s'.objects = s.objects ∧ s'.nextObject = s.nextObject ∧ s'.nextBlock = s.nextBlock ∧
      ∀ b, s'.blocks b = if data = some b then none else s.blocks b := by
  cases data with
  | none =>
      cases run
      exact ⟨rfl, rfl, rfl, fun b => (if_neg nofun).symm⟩
  | some b =>
      unfold delete at run
      rw [bind_ok (run_get_eq s)] at run
      cases live : s.blocks b with
      | none =>
          rw [live] at run
          cases run
      | some bytes =>
          simp only [live, run_set_eq, Except.ok.injEq, Prod.mk.injEq, true_and] at run
          subst run
          refine ⟨rfl, rfl, rfl, fun b' => ?_⟩
          by_cases same : b = b'
          · simp [same]
          · simp [same, update_of_ne (Ne.symm same)]

/-- The strings but one, whose block may be gone. -/
structure InvBut (s : Heap) (this : ObjectId) : Prop where
  holds : ∀ id o, id ≠ this → s.objects id = some o → ∃ text, Holds s.blocks o text
  freshBlock : ∀ b, s.nextBlock ≤ b → s.blocks b = none

theorem Inv.delete (h : Inv s) (found : s.objects this = some o) (unshared : ¬ s.Shared this)
    (run : (delete o.data).run s = .ok ((), s')) : InvBut s' this ∧ s'.objects = s.objects := by
  obtain ⟨objects, _, nextBlock, blocks⟩ := delete_run run
  refine ⟨⟨fun id o' other at_id => ?_, fun b above => ?_⟩, objects⟩
  · rw [objects] at at_id
    obtain ⟨text, holds⟩ := h.holds id o' at_id
    refine ⟨text, holds.congr fun b at_b => ?_⟩
    rw [blocks, if_neg]
    exact fun at_this => unshared ⟨id, o, o', b, other, found, at_id, at_this, at_b⟩
  · rw [blocks]
    split_ifs
    · rfl
    · exact h.freshBlock b (nextBlock ▸ above)

theorem InvBut.set (h : InvBut s this) (holds : Holds s.blocks o text) (next : ObjectId) :
    Inv ⟨update s.objects this (some o), next, s.blocks, s.nextBlock⟩ where
  holds id o' found := by
    change update s.objects this (some o) id = some o' at found
    by_cases here : id = this
    · rw [here, update_self] at found
      cases found
      exact ⟨text, holds⟩
    · rw [update_of_ne here] at found
      exact h.holds id o' here found
  freshBlock := h.freshBlock

theorem InvBut.alloc (h : InvBut s this) (bytes : List UInt8) :
    InvBut { s with
      blocks := update s.blocks s.nextBlock (some bytes), nextBlock := s.nextBlock + 1 } this where
  holds id o other found := by
    obtain ⟨text, holds⟩ := h.holds id o other found
    refine ⟨text, holds.congr fun b at_b => update_of_ne ?_ _ _⟩
    rintro rfl
    have none := h.freshBlock s.nextBlock le_rfl
    rw [holds.data _ at_b] at none
    cases none
  freshBlock b above := by
    have other : b ≠ s.nextBlock := Nat.ne_of_gt above
    exact (update_of_ne other _ _).trans (h.freshBlock b (Nat.le_of_succ_le above))

theorem InvBut.make (h : InvBut s this) (at_data : o.data = some s.nextBlock)
    (size : o.size = text.length) (small : text.length < 2 ^ 32) (ascii : ∀ c ∈ text, c < 128)
    (hash : o.hasHash = true → o.hash = fnv1a text) (next : ObjectId) :
    Inv ⟨update s.objects this (some o), next, update s.blocks s.nextBlock (some (text ++ [0])),
      s.nextBlock + 1⟩ := by
  refine (h.alloc (text ++ [0])).set
    ⟨fun b at_b => ?_, fun none => ?_, size, small, ascii, hash⟩ next
  · cases at_data.symm.trans at_b
    exact update_self _ _ _
  · cases at_data.symm.trans none

theorem Inv.but (h : Inv s) (this : ObjectId) : InvBut s this :=
  ⟨fun id o _ => h.holds id o, h.freshBlock⟩

/-! ### The operations -/

theorem Inv.newString (h : Inv s) (small : read.length < 2 ^ 32) (ascii : ∀ c ∈ read, c < 128)
    (run : (newString read).run s = .ok (id, s')) : Inv s' := by
  cases run
  exact (h.but s.nextObject).make rfl rfl small ascii
    (fun cached => absurd cached Bool.false_ne_true) _

theorem Inv.newStrings (h : Inv s) {parts : List (List UInt8)}
    (within : ∀ part ∈ parts, StringSplit.Within (· < 128) part)
    (run : (newStrings parts).run s = .ok ((), s')) : Inv s' := by
  induction parts generalizing s with
  | nil =>
      cases run
      exact h
  | cons part parts ih =>
      obtain ⟨first, behind⟩ := List.forall_mem_cons.mp within
      obtain ⟨id, t, made, rest⟩ := of_bind_ok run
      exact ih (h.newString first.1 first.2 made) behind rest

theorem Inv.readBytes (h : Inv s) (found : s.objects id = some o)
    (run : (readBytes o).run s = .ok (read, s')) : s' = s ∧ Holds s.blocks o read := by
  obtain ⟨rfl, bytes⟩ := readBytes_run run
  obtain ⟨text, holds⟩ := h.holds id o found
  cases bytes.symm.trans holds.bytes
  exact ⟨rfl, holds⟩

theorem Inv.object_read {α : Type} {f : StringObject → List UInt8 → Exec Heap α} {a : α} (h : Inv s)
    (run : (do
      let o ← object str
      let bytes ← StringObjects.readBytes o
      f o bytes : Exec Heap α).run s = .ok (a, s')) :
    ∃ o bytes, s.objects str = some o ∧ Holds s.blocks o bytes ∧
      (f o bytes).run s = .ok (a, s') := by
  obtain ⟨o, t, got, run₁⟩ := of_bind_ok run
  obtain ⟨rfl, found⟩ := object_run got
  obtain ⟨bytes, t', copied, run₂⟩ := of_bind_ok run₁
  obtain ⟨rfl, holds⟩ := h.readBytes found copied
  exact ⟨o, bytes, found, holds, run₂⟩

theorem Inv.copyConstruct (h : Inv s) (run : (copyConstruct str).run s = .ok (id, s')) :
    Inv s' := by
  obtain ⟨o, text, found, holds, made⟩ := h.object_read run
  cases made
  exact (h.but s.nextObject).make (o := ⟨o.size, some s.nextBlock, o.hasHash, o.hash⟩) rfl
    holds.size holds.small holds.ascii holds.hash _

theorem Inv.moveConstruct (h : Inv s) (careful : ∀ o, s.objects str = some o → o.hasHash = false)
    (run : (moveConstruct str).run s = .ok (id, s')) : Inv s' := by
  obtain ⟨o, t, got, made⟩ := of_bind_ok run
  obtain ⟨rfl, found⟩ := object_run got
  obtain ⟨text, holds⟩ := h.holds str o found
  cases made
  have kept : Holds t.blocks ⟨o.size, o.data, o.hasHash, if o.hasHash then 1 else 0⟩ text :=
    ⟨holds.data, holds.null, holds.size, holds.small, holds.ascii,
      fun cached => absurd ((careful o found).symm.trans cached) Bool.false_ne_true⟩
  exact (h.but t.nextObject).set kept _

theorem Inv.deleted {α : Type} {f : StringObject → StringObject → Exec Heap α} {a : α} (h : Inv s)
    (same : this ≠ str) (unshared : ¬ s.Shared this)
    (run : (do
      let o ← object this
      StringObjects.delete o.data
      let str ← object str
      f o str : Exec Heap α).run s = .ok (a, s')) :
    ∃ o o' t, InvBut t this ∧ s.objects str = some o' ∧ (∃ text, Holds t.blocks o' text) ∧
      (f o o').run t = .ok (a, s') := by
  obtain ⟨o, t, got, run₁⟩ := of_bind_ok run
  obtain ⟨rfl, found⟩ := object_run got
  obtain ⟨_, t₁, deleted, run₂⟩ := of_bind_ok run₁
  obtain ⟨but, objects⟩ := h.delete found unshared deleted
  obtain ⟨o', t₂, got', run₃⟩ := of_bind_ok run₂
  obtain ⟨rfl, found'⟩ := object_run got'
  exact ⟨o, o', t₂, but, objects ▸ found', but.holds str o' same.symm found', run₃⟩

theorem Inv.assign (h : Inv s) (careful : this ≠ str → ¬ s.Shared this)
    (run : (assign this str).run s = .ok ((), s')) : Inv s' := by
  unfold StringObjects.assign at run
  split_ifs at run with same
  · cases run
    exact h
  · obtain ⟨o, o', t, but, _, ⟨text, holds⟩, rest⟩ := h.deleted same (careful same) run
    obtain ⟨bytes, t', copied, stored⟩ := of_bind_ok rest
    obtain ⟨rfl, read⟩ := readBytes_run copied
    cases read.symm.trans holds.bytes
    cases stored
    exact but.make (o := ⟨o'.size, some t'.nextBlock, false, o.hash⟩) rfl holds.size holds.small
      holds.ascii (fun cached => absurd cached Bool.false_ne_true) _

theorem Inv.moveAssign (h : Inv s)
    (careful : this ≠ str → ¬ s.Shared this ∧
      ∀ o, s.objects str = some o → o.hasHash = true → o.size = 0)
    (run : (moveAssign this str).run s = .ok ((), s')) : Inv s' := by
  unfold StringObjects.moveAssign at run
  split_ifs at run with same
  · cases run
    exact h
  · obtain ⟨unshared, uncached⟩ := careful same
    obtain ⟨o, o', t, but, found, ⟨text, holds⟩, stored⟩ := h.deleted same unshared run
    have moved := but.set (o := ⟨o'.size, o'.data, o'.hasHash, o'.hash⟩) holds t.nextObject
    cases stored
    have kept : Holds t.blocks ⟨0, none, o'.hasHash, o'.hash⟩ [] := by
      refine ⟨by simp, fun _ => rfl, rfl, by simp, by simp, fun cached => ?_⟩
      have empty : text = [] := List.length_eq_zero_iff.mp
        (holds.size.symm.trans (uncached o' found cached))
      exact empty ▸ holds.hash cached
    exact (moved.but str).set kept _

theorem plus_ok {l r read : List UInt8} (run : plus l r = .ok read) :
    read = l ++ r ∧ read.length < 2 ^ 32 := by
  unfold plus at run
  dsimp only at run
  split_ifs at run with fits
  cases run
  refine ⟨rfl, ?_⟩
  rw [List.length_append]
  omega

theorem Inv.made (h : Inv s) {result : Except Fault (List UInt8)}
    (within : ∀ bytes, result = .ok bytes → bytes.length < 2 ^ 32 ∧ ∀ c ∈ bytes, c < 128)
    (run : (do StringObjects.newString (← lift result) : Exec Heap ObjectId).run s =
      .ok (id, s')) : Inv s' := by
  cases result with
  | error e => cases run
  | ok bytes =>
      rw [bind_ok (lift_ok _ s)] at run
      exact h.newString (within bytes rfl).1 (within bytes rfl).2 run

theorem Inv.concat {l r : ObjectId} (h : Inv s) (run : (concat l r).run s = .ok (id, s')) :
    Inv s' := by
  unfold StringObjects.concat at run
  obtain ⟨o, left, _, holds, run₁⟩ := h.object_read run
  obtain ⟨o', right, _, holds', run₂⟩ := h.object_read run₁
  refine h.made (fun bytes joined => ?_) run₂
  obtain ⟨rfl, short⟩ := plus_ok joined
  refine ⟨short, fun c mem => ?_⟩
  rcases List.mem_append.mp mem with front | behind
  · exact holds.ascii c front
  · exact holds'.ascii c behind

theorem Inv.concatChar {l : ObjectId} {r : UInt8} (h : Inv s) (careful : r < 128)
    (run : (concatChar l r).run s = .ok (id, s')) : Inv s' := by
  obtain ⟨o, left, _, holds, run₁⟩ := h.object_read run
  refine h.made (fun bytes joined => ?_) run₁
  obtain ⟨rfl, short⟩ := StringSplit.plusChar_ok joined
  refine ⟨short, fun c mem => ?_⟩
  rcases List.mem_append.mp mem with front | behind
  · exact holds.ascii c front
  · exact List.mem_singleton.mp behind ▸ careful

theorem Inv.splitString {fuel : Nat} {delim : UInt8} {removeEmpty : Bool} (h : Inv s)
    (run : (splitString fuel this delim removeEmpty).run s = .ok ((), s')) : Inv s' := by
  obtain ⟨o, text, _, holds, run₁⟩ := h.object_read run
  cases parts : StringSplit.split fuel text delim removeEmpty with
  | error e =>
      rw [parts] at run₁
      cases run₁
  | ok r =>
      rw [parts, bind_ok (lift_ok _ s)] at run₁
      refine h.newStrings ?_ run₁
      exact StringSplit.splitLoop_within holds.ascii ⟨by simp, by simp⟩ (by simp [CountedList.nil])
        parts

/-- `get_hash` returns the hash of the contents, and stores it. -/
theorem Inv.getHash_run (h : Inv s) (found : s.objects this = some o) :
    ∃ text s', s.bytes o = .ok text ∧ (getHash this).run s = .ok (fnv1a text, s') ∧ Inv s' := by
  obtain ⟨text, holds⟩ := h.holds this o found
  have got : (object this).run s = .ok (o, s) := by
    unfold object
    rw [bind_ok (run_get_eq s)]
    simp only [found]
    rfl
  unfold getHash
  rw [bind_ok got]
  cases cached : o.hasHash with
  | true => exact ⟨text, s, holds.bytes, by rw [holds.hash cached]; rfl, h⟩
  | false =>
      have read : (StringObjects.readBytes o).run s = .ok (text, s) := by
        unfold StringObjects.readBytes
        rw [bind_ok (run_get_eq s), holds.bytes]
        rfl
      have hashed : Holds s.blocks ⟨o.size, o.data, true, computeHash text⟩ text :=
        ⟨holds.data, holds.null, holds.size, holds.small, holds.ascii,
          fun _ => computeHash_ascii holds.ascii⟩
      have stored := (h.but this).set hashed s.nextObject
      refine ⟨text, _, holds.bytes, ?_, stored⟩
      rw [if_neg Bool.false_ne_true, bind_ok read, ← computeHash_ascii holds.ascii]
      rfl

theorem Inv.destroy (h : Inv s) (careful : ¬ s.Shared this)
    (run : (destroy this).run s = .ok ((), s')) : Inv s' := by
  obtain ⟨o, t, got, run₁⟩ := of_bind_ok run
  obtain ⟨rfl, found⟩ := object_run got
  obtain ⟨_, t₁, deleted, run₂⟩ := of_bind_ok run₁
  obtain ⟨but, _⟩ := h.delete found careful deleted
  cases run₂
  refine ⟨fun id o' at_id => ?_, but.freshBlock⟩
  change update t₁.objects this none id = some o' at at_id
  by_cases here : id = this
  · rw [here, update_self] at at_id
    cases at_id
  · rw [update_of_ne here] at at_id
    exact but.holds id o' here at_id

/-- A careful step keeps every hash. -/
theorem Inv.step {op : Op} (h : Inv s) (careful : op.Careful s)
    (run : op.run.run s = .ok ((), s')) : Inv s' := by
  cases op with
  | empty =>
      obtain ⟨id, t, made, rest⟩ := of_bind_ok run
      cases rest
      exact h.newString (by simp) (by simp) made
  | ofCString text =>
      obtain ⟨id, t, made, rest⟩ := of_bind_ok run
      cases rest
      unfold StringObjects.ofCString at made
      split_ifs at made with long
      · cases made
      · exact h.newString (Nat.lt_of_not_le long) careful made
  | copyConstruct str =>
      obtain ⟨id, t, made, rest⟩ := of_bind_ok run
      cases rest
      exact h.copyConstruct made
  | moveConstruct str =>
      obtain ⟨id, t, made, rest⟩ := of_bind_ok run
      cases rest
      exact h.moveConstruct careful made
  | assign this str => exact h.assign careful run
  | moveAssign this str => exact h.moveAssign careful run
  | concat l r =>
      obtain ⟨id, t, made, rest⟩ := of_bind_ok run
      cases rest
      exact h.concat made
  | concatChar l r =>
      obtain ⟨id, t, made, rest⟩ := of_bind_ok run
      cases rest
      exact h.concatChar careful made
  | split fuel this delim removeEmpty => exact h.splitString run
  | getHash this =>
      obtain ⟨hash, t, made, rest⟩ := of_bind_ok run
      cases rest
      obtain ⟨o, t', got, _⟩ := of_bind_ok made
      obtain ⟨text, t', _, run', inv⟩ := h.getHash_run (object_run got).2
      cases run'.symm.trans made
      exact inv
  | destroy this => exact h.destroy careful run

end Steps

theorem Reach.inv {s : Heap} (reached : careful.Reach s) : Inv s := by
  refine reached.invariant (fun start => ?_) ?_
  · cases start
    exact ⟨nofun, fun _ _ => rfl⟩
  · intro s s' op out h valid run
    exact Inv.step h valid run

/-- In a careful run the hash of every string is that of its bytes, and equal strings have equal
hashes. -/
theorem hash_of_bytes {s : Heap} (reached : careful.Reach s) :
    (∀ id o, s.objects id = some o → ∃ text s', s.bytes o = .ok text ∧
      (getHash id).run s = .ok (fnv1a text, s')) ∧
    ∀ id id' o o', s.objects id = some o → s.objects id' = some o' → s.bytes o = s.bytes o' →
      ∃ hash s₁ s₂, (getHash id).run s = .ok (hash, s₁) ∧ (getHash id').run s = .ok (hash, s₂) := by
  have h := Reach.inv reached
  constructor
  · intro id o found
    obtain ⟨text, s', bytes, run, _⟩ := h.getHash_run found
    exact ⟨text, s', bytes, run⟩
  · intro id id' o o' found found' same
    obtain ⟨text, s₁, bytes, run, _⟩ := h.getHash_run found
    obtain ⟨text', s₂, bytes', run', _⟩ := h.getHash_run found'
    rw [bytes, bytes'] at same
    cases same
    exact ⟨_, s₁, s₂, run, run'⟩

theorem reach_careful {s s' : Heap} (op : Op) (h : careful.Reach s) (valid : op.Careful s)
    (run : op.run.run s = .ok ((), s')) : careful.Reach s' := .step h valid run

theorem reach_step {s s' : Heap} (op : Op) (h : machine.Reach s)
    (run : op.run.run s = .ok ((), s')) : machine.Reach s' := .step h trivial run

/-- The heap with the string `a`. -/
def Heap.single : Heap :=
  ⟨update (fun _ => none) 0 (some ⟨1, some 0, false, 0⟩), 1,
    update (fun _ => none) 0 (some [97, 0]), 1⟩

theorem single_reached : careful.Reach .single :=
  have ascii : Op.Careful ⟨fun _ => none, 0, fun _ => none, 0⟩ (.ofCString [97]) :=
    List.forall_mem_singleton.mpr (by decide)
  reach_careful (.ofCString [97]) (.start rfl) ascii rfl

/-- A string is copied, then moved before it has a hash: copy and new string have one hash. -/
theorem hash_of_bytes_copied : ∃ s s₁ s₂, careful.Reach s ∧
    (getHash 1).run s = .ok (fnv1a [97], s₁) ∧ (getHash 2).run s = .ok (fnv1a [97], s₂) := by
  have moved := reach_careful (.moveConstruct 0)
    (reach_careful (.copyConstruct 0) single_reached trivial rfl)
    (fun o found => by cases found; rfl) rfl
  have reached := reach_careful (.getHash 1) moved trivial rfl
  obtain ⟨text, s₁, bytes, run⟩ := (hash_of_bytes reached).1 1 _ rfl
  obtain ⟨text', s₂, bytes', run'⟩ := (hash_of_bytes reached).1 2 _ rfl
  cases (bytes : Except.ok [97] = Except.ok text)
  cases (bytes' : Except.ok [97] = Except.ok text')
  exact ⟨_, s₁, s₂, reached, run, run'⟩

def contents (this : ObjectId) : Exec Heap (List UInt8) := do
  let o ← object this
  readBytes o

/-- A string that was moved with its hash, and one with the byte 128. -/
theorem hash_moved :
    (∃ s, machine.Reach s ∧ (∃ s', (contents 1).run s = .ok ([97], s')) ∧
      (∃ s', (getHash 1).run s = .ok (1, s')) ∧ fnv1a [97] ≠ 1) ∧
    ∃ s, machine.Reach s ∧ (∃ s', (contents 0).run s = .ok ([128], s')) ∧
      (∃ s', (getHash 0).run s = .ok (computeHash [128], s')) ∧
      computeHash [128] ≠ fnv1a [128] := by
  constructor
  · have moved : endsWith (Op.getHash 0).run .single (fun _ s =>
        endsWith (Op.moveConstruct 0).run s fun _ s' =>
          returns (contents 1) s' [97] && returns (getHash 1) s' 1) = true := by
      decide +kernel
    obtain ⟨_, s, hashed, rest⟩ := of_endsWith moved
    obtain ⟨_, s', run, both⟩ := of_endsWith rest
    obtain ⟨text, hash⟩ := Bool.and_eq_true_iff.mp both
    have single : machine.Reach .single := reach_step (.ofCString [97]) (.start rfl) rfl
    have reached : machine.Reach s' :=
      reach_step (.moveConstruct 0) (reach_step (.getHash 0) single hashed) run
    exact ⟨s', reached, of_returns text, of_returns hash, by decide +kernel⟩
  · have made : endsWith (Op.ofCString [128]).run ⟨fun _ => none, 0, fun _ => none, 0⟩ (fun _ s =>
        returns (contents 0) s [128] && returns (getHash 0) s (computeHash [128])) = true := by
      decide +kernel
    obtain ⟨_, s, run, both⟩ := of_endsWith made
    obtain ⟨text, hash⟩ := Bool.and_eq_true_iff.mp both
    have reached : machine.Reach s := reach_step (.ofCString [128]) (.start rfl) run
    exact ⟨s, reached, of_returns text, of_returns hash, by decide +kernel⟩

end Infos.Util.StringObjects
