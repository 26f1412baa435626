import Infos.Fs.Vfs
import Infos.Lib.Buffer
import Infos.Lib.Paths

/-!
# Looking a path up

The virtual file system over any physical file systems: `σ` is what they keep and
`π` is a physical node. The root node has the number 0.
-/
namespace Infos.Fs.LookupNode
open Infos.Lib Infos.Util Function
open Infos.Fs.Vfs (PfsId TempFSNode VfsId)

/-- The virtual functions of `PFSNode` that make or find children; `get_child` changes nothing. -/
structure Filesystems (σ π : Type) where
  getChild : σ → π → Vfs.Name → Option π
  mkdir : σ → π → Vfs.Name → Except Fault (Option π × σ)

structure VFSNode (π : Type) where
  pn : Option π
  children : Map HashType VfsId

structure State (σ π : Type) where
  pfs : σ
  vnodes : VfsId → VFSNode π
  nextV : VfsId

variable {σ π : Type} (fs : Filesystems σ π)

def newVFSNode (pn : π) : Exec (State σ π) VfsId := do
  let s ← get
  set { s with vnodes := update s.vnodes s.nextV ⟨some pn, .empty⟩, nextV := s.nextV + 1 }
  pure s.nextV

def addCached (v : VfsId) (name : Vfs.Name) (child : VfsId) : Exec (State σ π) Unit := do
  let s ← get
  let children ← lift ((s.vnodes v).children.add (getHash name) child)
  set { s with vnodes := update s.vnodes v { s.vnodes v with children } }

def getChild (v : VfsId) (name : Vfs.Name) : Exec (State σ π) (Option VfsId) := do
  let s ← get
  match (s.vnodes v).pn with
  | none => pure none
  | some pn =>
      match (s.vnodes v).children.tryGetValue (getHash name) with
      | some child => pure (some child)
      | none =>
          match fs.getChild s.pfs pn name with
          | none => pure none
          | some assoc => do
              let child ← newVFSNode assoc
              addCached v name child
              pure (some child)

def mkdir (v : VfsId) (name : Vfs.Name) : Exec (State σ π) (Option VfsId) := do
  let s ← get
  match (s.vnodes v).pn with
  | none => pure none
  | some pn => do
      let (dir, pfs) ← lift (fs.mkdir s.pfs pn name)
      set { s with pfs }
      match dir with
      | none => pure none
      | some _ => getChild fs v name

/-- `mount`, once the file system has returned its node `pn`. -/
def mount (v : VfsId) (pn : π) : Exec (State σ π) Unit :=
  modify fun s => { s with vnodes := update s.vnodes v ⟨some pn, .empty⟩ }

/-- The loop of `lookup_node`, from `path` and `current_node`. -/
def lookupLoop : Nat → List UInt8 → VfsId → Buffer → Exec (State σ π) (Option VfsId)
  | 0, _, _, _ => throw .outOfFuel
  | fuel + 1, path, currentNode, component => do
      let (path, _, component) ← lift (Buffer.copyToken 47 path component)
      let path := if path.head? = some 47 then path.tail else path
      let name ← lift component.cString
      if name.length = 0 then pure (some currentNode)
      else
        match ← getChild fs currentNode name with
        | none => pure none
        | some child => lookupLoop fuel path child component

/-- `spath` holds any bytes; its `c_str` ends at the first NUL. -/
def lookupNode (spath : List UInt8) : Exec (State σ π) (Option VfsId) :=
  match spath.takeWhile (· ≠ 0) with
  | [] => pure none
  | c :: path =>
      if c ≠ 47 then pure none
      else if path = [] then pure (some 0)
      else lookupLoop fs (path.length + 1) path 0 (.new 256)

/-! ### What a path says -/

/-- `get_child` over a list of names. -/
def follow (v : VfsId) : List Vfs.Name → Exec (State σ π) (Option VfsId)
  | [] => pure (some v)
  | name :: names => do
      match ← getChild fs v name with
      | none => pure none
      | some child => follow child names

/-- A node of the tree, or a physical node that no node of the tree wraps yet. -/
inductive Place (π : Type) where
  | vnode (v : VfsId)
  | pnode (pn : π)

def State.look (s : State σ π) : Place π → Vfs.Name → Option (Place π)
  | .vnode v, name =>
      match (s.vnodes v).pn with
      | none => none
      | some pn =>
          match (s.vnodes v).children.tryGetValue (getHash name) with
          | some child => some (.vnode child)
          | none => (fs.getChild s.pfs pn name).map .pnode
  | .pnode pn, name => (fs.getChild s.pfs pn name).map .pnode

/-- Whether there is a node below another one, under the given names. -/
def State.present (s : State σ π) (place : Place π) : List Vfs.Name → Bool
  | [] => true
  | name :: names =>
      match s.look fs place name with
      | none => false
      | some next => s.present next names

/-! ### Runs -/

inductive Op (π : Type) where
  | getChild (v : VfsId) (name : Vfs.Name)
  | mkdir (v : VfsId) (name : Vfs.Name)
  | mount (v : VfsId) (pn : π)
  | lookupNode (spath : List UInt8)

def Op.run : Op π → Exec (State σ π) Unit
  | .getChild v name => do let _ ← LookupNode.getChild fs v name
  | .mkdir v name => do let _ ← LookupNode.mkdir fs v name
  | .mount v pn => LookupNode.mount v pn
  | .lookupNode spath => do let _ ← LookupNode.lookupNode fs spath

def Op.Valid (s : State σ π) : Op π → Prop
  | .getChild v _ => v < s.nextV
  | .mkdir v _ => v < s.nextV
  | .mount v _ => v < s.nextV
  | .lookupNode _ => True

/-- It starts with the root node alone. -/
def machine : Machine (State σ π) (Op π) Unit where
  start s := s.nextV = 1 ∧ ∀ v, (s.vnodes v).children = .empty
  valid := Op.Valid
  run := Op.run fs

/-- A cached child is newer than the node that caches it. -/
structure Inv (s : State σ π) : Prop where
  pos : 0 < s.nextV
  sound : ∀ v, (s.vnodes v).children.Sound
  newer : ∀ v k c, (s.vnodes v).children.tryGetValue k = some c → v < c ∧ c < s.nextV

section Steps
variable {fs} {s s' : State σ π} {v c : VfsId} {name : Vfs.Name} {names : List Vfs.Name} {p : π}

theorem present_cons (s : State σ π) (place : Place π) (name : Vfs.Name) (names : List Vfs.Name) :
    s.present fs place (name :: names) = true ↔
      ∃ next, s.look fs place name = some next ∧ s.present fs next names = true := by
  rw [State.present]
  cases s.look fs place name <;> simp

theorem present_pnode (same : s'.pfs = s.pfs) (p : π) (names : List Vfs.Name) :
    s'.present fs (.pnode p) names = s.present fs (.pnode p) names := by
  induction names generalizing p with
  | nil => rfl
  | cons name names ih =>
      simp only [State.present, State.look, same]
      cases fs.getChild s.pfs p name with
      | none => rfl
      | some q => exact ih q

/-- What a walk down the tree leaves. -/
structure Walked (s s' : State σ π) : Prop where
  inv : Inv s'
  nextV : s.nextV ≤ s'.nextV
  pfs : s'.pfs = s.pfs

theorem Walked.trans {t : State σ π} (h : Walked s s') (h' : Walked s' t) : Walked s t :=
  ⟨h'.inv, h.nextV.trans h'.nextV, h'.pfs.trans h.pfs⟩

theorem Inv.wrap_run (h : Inv s) (old : v < s.nextV) (name : Vfs.Name) (p : π) :
    ∃ s', (do let child ← newVFSNode p
              addCached v name child
              pure (some child) : Exec (State σ π) (Option VfsId)).run s = .ok (some s.nextV, s') ∧
      Walked s s' ∧ s'.nextV = s.nextV + 1 ∧ s'.vnodes s.nextV = ⟨some p, .empty⟩ := by
  have other : v ≠ s.nextV := Nat.ne_of_lt old
  obtain ⟨children, run, sound, values⟩ := Map.add_spec (getHash name) s.nextV (h.sound v)
  let s₁ : State σ π :=
    { s with vnodes := update s.vnodes s.nextV ⟨some p, .empty⟩, nextV := s.nextV + 1 }
  have same : s₁.vnodes v = s.vnodes v := update_of_ne other _ _
  let s₂ : State σ π := { s₁ with vnodes := update s₁.vnodes v ⟨(s.vnodes v).pn, children⟩ }
  have records : ∀ x, x = v ∧ s₂.vnodes x = ⟨(s.vnodes v).pn, children⟩ ∨
      x ≠ v ∧ x = s.nextV ∧ s₂.vnodes x = ⟨some p, .empty⟩ ∨
      x ≠ v ∧ x ≠ s.nextV ∧ s₂.vnodes x = s.vnodes x :=
    Vfs.written_cases s.vnodes other ⟨some p, .empty⟩ ⟨(s.vnodes v).pn, children⟩
  have made : s₂.vnodes s.nextV = ⟨some p, .empty⟩ :=
    (update_of_ne other.symm _ _).trans (update_self _ _ _)
  refine ⟨s₂, ?_, ⟨⟨Nat.succ_pos _, fun w => ?_, fun w k c => ?_⟩, Nat.le_succ _, rfl⟩, rfl, made⟩
  · have created : (newVFSNode p).run s = .ok (s.nextV, s₁) := rfl
    rw [bind_ok created]
    unfold addCached
    simp only [bind_assoc]
    rw [bind_ok (run_get_eq s₁), same, run]
    rfl
  · rcases records w with ⟨rfl, record⟩ | ⟨_, rfl, record⟩ | ⟨_, _, record⟩
    · rw [record]
      exact sound
    · rw [record]
      exact Map.empty_sound
    · rw [record]
      exact h.sound w
  · intro cached
    change w < c ∧ c < s.nextV + 1
    rcases records w with ⟨rfl, record⟩ | ⟨_, rfl, record⟩ | ⟨_, _, record⟩
    · rw [record, values, update_apply] at cached
      split_ifs at cached with named
      · cases cached
        exact ⟨old, Nat.lt_succ_self _⟩
      · exact ⟨(h.newer w k c cached).1, Nat.lt_succ_of_lt (h.newer w k c cached).2⟩
    · rw [record] at cached
      cases cached
    · rw [record] at cached
      exact ⟨(h.newer w k c cached).1, Nat.lt_succ_of_lt (h.newer w k c cached).2⟩

theorem Inv.getChild_some {next : Place π} (h : Inv s) (old : v < s.nextV)
    (found : s.look fs (.vnode v) name = some next) :
    ∃ c s', (getChild fs v name).run s = .ok (some c, s') ∧ Walked s s' ∧ v < c ∧ c < s'.nextV ∧
      ∀ names, s'.present fs (.vnode c) names = s.present fs next names := by
  unfold getChild
  rw [bind_ok (run_get_eq s)]
  rw [State.look] at found
  cases at_v : (s.vnodes v).pn with
  | none => simp [at_v] at found
  | some pn =>
      cases hit : (s.vnodes v).children.tryGetValue (getHash name) with
      | some c =>
          simp only [at_v, hit, Option.some.injEq] at found ⊢
          subst found
          have newer := h.newer v _ c hit
          exact ⟨c, s, rfl, ⟨h, le_rfl, rfl⟩, newer.1, newer.2, fun _ => rfl⟩
      | none =>
          cases child : fs.getChild s.pfs pn name with
          | none => simp [at_v, hit, child] at found
          | some p =>
              simp only [at_v, hit, child, Option.map_some, Option.some.injEq] at found ⊢
              subst found
              obtain ⟨s', run, walked, nextV, made⟩ := h.wrap_run old name p
              refine ⟨s.nextV, s', run, walked, old, nextV ▸ Nat.lt_succ_self _, fun names => ?_⟩
              -- nothing is cached below a new node
              cases names with
              | nil => rfl
              | cons name' names =>
                  simp only [State.present, State.look, made, walked.pfs, Map.empty_tryGetValue]
                  cases fs.getChild s.pfs p name' with
                  | none => rfl
                  | some q => exact present_pnode walked.pfs q names

theorem getChild_none (absent : s.look fs (.vnode v) name = none) :
    (getChild fs v name).run s = .ok (none, s) := by
  unfold getChild
  rw [bind_ok (run_get_eq s)]
  rw [State.look] at absent
  cases at_v : (s.vnodes v).pn with
  | none => rfl
  | some pn =>
      cases hit : (s.vnodes v).children.tryGetValue (getHash name) with
      | some c => simp [at_v, hit] at absent
      | none =>
          cases child : fs.getChild s.pfs pn name with
          | none =>
              simp only [child]
              rfl
          | some p => simp [at_v, hit, child] at absent

/-! ### Walking down -/

theorem Inv.follow_run (fs : Filesystems σ π) (h : Inv s) (old : v < s.nextV)
    (names : List Vfs.Name) :
    ∃ r s', (follow fs v names).run s = .ok (r, s') ∧ Walked s s' ∧
      r.isSome = s.present fs (.vnode v) names ∧
      ∀ c, r = some c → v ≤ c ∧ c < s'.nextV ∧ (names ≠ [] → v < c) := by
  induction names generalizing v s with
  | nil =>
      refine ⟨some v, s, rfl, ⟨h, le_rfl, rfl⟩, rfl, ?_⟩
      intro c at_v
      cases at_v
      exact ⟨le_rfl, old, fun none => absurd rfl none⟩
  | cons name names ih =>
      unfold follow
      cases found : s.look fs (.vnode v) name with
      | none =>
          rw [bind_ok (getChild_none found)]
          exact ⟨none, s, rfl, ⟨h, le_rfl, rfl⟩, by simp [State.present, found], nofun⟩
      | some next =>
          obtain ⟨c, s₁, run, walked, newer, bound, below⟩ := h.getChild_some old found
          obtain ⟨r, s₂, run', walked', isSome, ends⟩ := ih walked.inv bound
          rw [bind_ok run]
          refine ⟨r, s₂, run', walked.trans walked', ?_, fun d at_d => ?_⟩
          · rw [isSome, below, State.present, found]
          · have end_d := ends d at_d
            exact ⟨newer.le.trans end_d.1, end_d.2.1, fun _ => newer.trans_le end_d.1⟩

theorem follow_append (v : VfsId) (names names' : List Vfs.Name) :
    follow fs v (names ++ names') = (do
      match ← follow fs v names with
      | none => pure none
      | some c => follow fs c names' : Exec (State σ π) (Option VfsId)) := by
  induction names generalizing v with
  | nil => simp [follow]
  | cons name names ih =>
      simp only [List.cons_append, follow, bind_assoc]
      congr 1
      funext child
      cases child with
      | none => rfl
      | some c => exact ih c

/-- The walk reads only names that fit: what is in front of a longer one is missing. -/
def State.Fits (fs : Filesystems σ π) (s : State σ π) (place : Place π) (names : List Vfs.Name) :
    Prop :=
  ∀ front name back, names = front ++ name :: back → s.present fs place front = true →
    name.length < 256

theorem fits_cons (place : Place π) :
    s.Fits fs place (name :: names) ↔
      name.length < 256 ∧ ∀ next, s.look fs place name = some next → s.Fits fs next names := by
  constructor
  · intro fits
    refine ⟨fits [] name names rfl rfl, fun next found front name' back split there => ?_⟩
    refine fits (name :: front) name' back (by rw [split]; rfl) ?_
    exact (present_cons _ _ _ _).mpr ⟨next, found, there⟩
  · rintro ⟨short, rest⟩ front name' back split there
    cases front with
    | nil =>
        obtain ⟨rfl, rfl⟩ := List.cons.inj split
        exact short
    | cons first front =>
        obtain ⟨rfl, tail⟩ := List.cons.inj split
        obtain ⟨next, found, there⟩ := (present_cons _ _ _ _).mp there
        exact rest next found front name' back tail there

theorem fits_congr {place place' : Place π}
    (same : ∀ names, s'.present fs place' names = s.present fs place names) :
    s'.Fits fs place' names ↔ s.Fits fs place names := by
  simp only [State.Fits, same]

theorem lookupLoop_succ {path : List UInt8} {b : Buffer} (fs : Filesystems σ π) (s : State σ π)
    (fuel : Nat) (v : VfsId)
    (proper : 0 ∉ path) (size : b.length = 256) :
    ∃ b' : Buffer, b'.length = max 256 ((path.takeWhile (· ≠ 47)).length + 1) ∧
      (lookupLoop fs (fuel + 1) path v b).run s =
        if (path.takeWhile (· ≠ 47)).length < 256 then
          if path.takeWhile (· ≠ 47) = [] then .ok (some v, s)
          else (do
            match ← getChild fs v (path.takeWhile (· ≠ 47)) with
            | none => pure none
            | some child => lookupLoop fs fuel (path.dropWhile (· ≠ 47)).tail child b' :
              Exec (State σ π) (Option VfsId)).run s
        else .error .outOfBounds := by
  have token0 : 0 ∉ path.takeWhile (· ≠ 47) :=
    fun mem => proper ((List.takeWhile_sublist _).subset mem)
  have read := Buffer.cString_append (b.drop ((path.takeWhile (· ≠ 47)).length + 1)) token0
  refine ⟨(path.takeWhile (· ≠ 47)).map some ++
    some 0 :: b.drop ((path.takeWhile (· ≠ 47)).length + 1), ?_, ?_⟩
  · simp only [List.length_append, List.length_map, List.length_cons, List.length_drop, size]
    omega
  · rw [lookupLoop]
    simp only [Buffer.copyToken_eq, size]
    split_ifs with fits empty
    · rw [bind_ok (lift_ok _ s)]
      simp only [empty]
      rfl
    · rw [bind_ok (lift_ok _ s)]
      simp only [read, skip_dropWhile]
      rw [bind_ok (lift_ok _ s), if_neg fun e => empty (List.length_eq_zero_iff.mp e)]
    · rfl

/-- The loop is a walk over the parts of the path in front of its first empty one. -/
theorem Inv.lookupLoop_run {fuel : Nat} {path : List UInt8} {b : Buffer} (h : Inv s)
    (old : v < s.nextV) (proper : 0 ∉ path) (size : b.length = 256) (enough : path.length < fuel) :
    (s.Fits fs (.vnode v) (leading 47 path) →
      (lookupLoop fs fuel path v b).run s = (follow fs v (leading 47 path)).run s) ∧
    (¬ s.Fits fs (.vnode v) (leading 47 path) →
      (lookupLoop fs fuel path v b).run s = .error .outOfBounds) := by
  induction fuel generalizing path v s b with
  | zero => omega
  | succ fuel ih =>
      obtain ⟨b', size', round⟩ := lookupLoop_succ fs s fuel v proper size
      have rest0 : 0 ∉ (path.dropWhile (· ≠ 47)).tail := fun mem =>
        proper ((List.dropWhile_sublist _).subset (List.mem_of_mem_tail mem))
      have whole := congrArg List.length
        (List.takeWhile_append_dropWhile (p := (· ≠ 47)) (l := path))
      rw [List.length_append] at whole
      rw [round, leading_takeWhile]
      generalize path.takeWhile (· ≠ 47) = token at size' whole ⊢
      have fewer : (path.dropWhile (· ≠ 47)).tail.length ≤ path.length - token.length := by
        rw [List.length_tail]
        omega
      generalize (path.dropWhile (· ≠ 47)).tail = rest at rest0 fewer ⊢
      by_cases empty : token = []
      · subst empty
        simp only [List.length_nil, Nat.zero_lt_succ, if_true, follow]
        exact ⟨fun _ => rfl, fun long => absurd (fun _ _ _ split => by simp at split) long⟩
      · have some : token.length ≠ 0 := fun e => empty (List.length_eq_zero_iff.mp e)
        simp only [empty, if_false, fits_cons]
        by_cases short : token.length < 256
        · simp only [short, if_true, true_and, follow]
          cases found : s.look fs (.vnode v) token with
          | none =>
              rw [bind_ok (getChild_none found), bind_ok (getChild_none found)]
              exact ⟨fun _ => rfl, fun long => absurd (by simp) long⟩
          | some next =>
              obtain ⟨c, s', run, walked, newer, bound, below⟩ := h.getChild_some old found
              have next_run := ih walked.inv bound rest0 (by omega : b'.length = 256) (by omega)
              rw [bind_ok run, bind_ok run]
              rw [fits_congr below] at next_run
              simpa using next_run
        · simp only [short, if_false, false_and, not_false_eq_true, false_implies, true_implies]
          exact ⟨trivial, trivial⟩

theorem Inv.lookupNode_run {rest : List UInt8} (fs : Filesystems σ π) (h : Inv s)
    (proper : 0 ∉ rest) :
    (s.Fits fs (.vnode 0) (leading 47 rest) →
      (lookupNode fs (47 :: rest)).run s = (follow fs 0 (leading 47 rest)).run s) ∧
    (¬ s.Fits fs (.vnode 0) (leading 47 rest) →
      (lookupNode fs (47 :: rest)).run s = .error .outOfBounds) := by
  have clean : rest.takeWhile (· ≠ 0) = rest :=
    List.takeWhile_eq_self_iff.mpr fun c mem => by simpa using fun e : c = 0 => proper (e ▸ mem)
  have whole : (47 :: rest).takeWhile (· ≠ 0) = 47 :: rest := by simpa using clean
  rw [lookupNode, whole]
  by_cases root : rest = []
  · subst root
    simp only [leading_nil]
    exact ⟨fun _ => rfl, fun long => absurd (fun _ _ _ split => by simp at split) long⟩
  · simp only [root, if_false, ne_eq, not_true_eq_false]
    exact h.lookupLoop_run h.pos proper (Buffer.length_new 256) (Nat.lt_succ_self _)

end Steps

section Runs
variable {fs} {s s' : State σ π} {v c : VfsId} {name : Vfs.Name}

theorem Inv.start (start : (machine fs).start s) : Inv s where
  pos := by
    rw [start.1]
    exact Nat.one_pos
  sound v := by
    rw [start.2 v]
    exact Map.empty_sound
  newer v k c cached := by
    rw [start.2 v] at cached
    cases cached

theorem Inv.getChild_kept {r : Option VfsId} (h : Inv s) (old : v < s.nextV)
    (run : (getChild fs v name).run s = .ok (r, s')) : Inv s' := by
  cases found : s.look fs (.vnode v) name with
  | none =>
      rw [getChild_none found] at run
      cases run
      exact h
  | some next =>
      obtain ⟨c, t, run', walked, _⟩ := h.getChild_some old found
      rw [run'] at run
      cases run
      exact walked.inv

theorem Inv.mkdir_kept {r : Option VfsId} (h : Inv s) (old : v < s.nextV)
    (run : (mkdir fs v name).run s = .ok (r, s')) : Inv s' := by
  unfold mkdir at run
  rw [bind_ok (run_get_eq s)] at run
  cases at_v : (s.vnodes v).pn with
  | none =>
      simp only [at_v] at run
      cases run
      exact h
  | some pn =>
      simp only [at_v] at run
      obtain ⟨⟨dir, pfs⟩, t, made, run⟩ := of_bind_ok run
      have same : t = s := by
        cases result : fs.mkdir s.pfs pn name with
        | error e =>
            rw [result] at made
            cases made
        | ok pair =>
            rw [result] at made
            cases made
            rfl
      subst same
      have changed : Inv { t with pfs } := ⟨h.pos, h.sound, h.newer⟩
      cases dir with
      | none =>
          cases run
          exact changed
      | some dir => exact changed.getChild_kept old run

theorem Inv.mount_kept (h : Inv s) (v : VfsId) (pn : π) :
    Inv { s with vnodes := update s.vnodes v ⟨some pn, .empty⟩ } where
  pos := h.pos
  sound w := by
    by_cases here : w = v
    · simp only [here, update_self, Map.empty_sound]
    · simpa only [update_of_ne here] using h.sound w
  newer w k c cached := by
    by_cases here : w = v
    · simp [here] at cached
    · exact h.newer w k c (by simpa only [update_of_ne here] using cached)

theorem lookupNode_text (spath : List UInt8) :
    lookupNode fs (spath.takeWhile (· ≠ 0)) = lookupNode fs spath := by
  simp only [lookupNode, List.takeWhile_idem]

theorem Inv.lookupNode_kept {spath : List UInt8} {r : Option VfsId} (h : Inv s)
    (run : (lookupNode fs spath).run s = .ok (r, s')) : Inv s' := by
  rw [← lookupNode_text] at run
  have proper := notMem_takeWhile 0 spath
  cases text : spath.takeWhile (· ≠ 0) with
  | nil =>
      rw [text] at run
      cases run
      exact h
  | cons c path =>
      rw [text] at run proper
      by_cases absolute : c = 47
      · subst absolute
        have rest0 : 0 ∉ path := fun mem => proper (List.mem_cons_of_mem 47 mem)
        obtain ⟨fits, long⟩ := h.lookupNode_run fs rest0
        by_cases short : s.Fits fs (.vnode 0) (leading 47 path)
        · obtain ⟨_, t, run', walked, _⟩ := h.follow_run fs h.pos (leading 47 path)
          rw [fits short, run'] at run
          cases run
          exact walked.inv
        · rw [long short] at run
          cases run
      · have skipped : (lookupNode fs (c :: path)).run s = .ok (none, s) := by
          have whole : (c :: path).takeWhile (· ≠ 0) = c :: path := by
            rw [← text, List.takeWhile_idem]
          rw [lookupNode, whole]
          simp only [ne_eq, absolute, not_false_eq_true, if_true]
          rfl
        rw [skipped] at run
        cases run
        exact h

theorem Reach.inv (reached : (machine fs).Reach s) : Inv s := by
  refine reached.invariant Inv.start ?_
  intro s s' op _ h valid run
  cases op with
  | getChild v name =>
      obtain ⟨_, _, run, rest⟩ := of_bind_ok run
      cases rest
      exact h.getChild_kept valid run
  | mkdir v name =>
      obtain ⟨_, _, run, rest⟩ := of_bind_ok run
      cases rest
      exact h.mkdir_kept valid run
  | mount v pn =>
      cases run
      exact h.mount_kept v pn
  | lookupNode spath =>
      obtain ⟨_, _, run, rest⟩ := of_bind_ok run
      cases rest
      exact h.lookupNode_kept run

end Runs
section Paths
variable {fs} {s : State σ π} {rest : List UInt8}

theorem fits_of_short {place : Place π} {names : List Vfs.Name}
    (short : ∀ c ∈ names, c.length < 256) : s.Fits fs place names := by
  rintro front name back rfl _
  exact short name (by simp)

theorem Inv.lookupNode_eq (h : Inv s) (proper : 0 ∉ rest)
    (short : ∀ c ∈ components 47 rest, c.length < 256)
    (cond : later 47 rest = [] ∨ s.present fs (.vnode 0) (leading 47 rest) = false) :
    (lookupNode fs (47 :: rest)).run s = (follow fs 0 (components 47 rest)).run s := by
  rw [components_eq_leading] at short ⊢
  have fits : s.Fits fs (.vnode 0) (leading 47 rest) :=
    fits_of_short fun c mem => short c (List.mem_append_left _ mem)
  rw [(h.lookupNode_run fs proper).1 fits]
  rcases cond with none | missing
  · rw [none, List.append_nil]
  · obtain ⟨r, s', run, _, isSome, _⟩ := h.follow_run fs h.pos (leading 47 rest)
    rw [missing] at isSome
    cases r with
    | some c => cases isSome
    | none =>
        rw [follow_append, bind_ok run]
        exact run

/-- A path is followed to its end exactly if there is no name behind an empty one, or nothing in
front of it. -/
theorem lookupNode_iff (reached : (machine fs).Reach s) (proper : 0 ∉ rest)
    (short : ∀ c ∈ components 47 rest, c.length < 256) :
    (∃ r s₁ s₂, (lookupNode fs (47 :: rest)).run s = .ok (r, s₁) ∧
      (follow fs 0 (components 47 rest)).run s = .ok (r, s₂)) ↔
    later 47 rest = [] ∨ s.present fs (.vnode 0) (leading 47 rest) = false := by
  have h := Reach.inv reached
  constructor
  · rintro ⟨r, s₁, s₂, run, spec⟩
    have fits : s.Fits fs (.vnode 0) (leading 47 rest) := fits_of_short fun c mem =>
      short c (by rw [components_eq_leading]; exact List.mem_append_left _ mem)
    obtain ⟨r', t, run', walked, isSome, ends⟩ := h.follow_run fs h.pos (leading 47 rest)
    rw [(h.lookupNode_run fs proper).1 fits, run'] at run
    cases run
    cases r with
    | none => exact .inr isSome.symm
    | some c =>
        refine .inl (Classical.byContradiction fun some => ?_)
        rw [components_eq_leading, follow_append, bind_ok run'] at spec
        obtain ⟨r'', t', spec', _, _, ends'⟩ :=
          walked.inv.follow_run fs (ends c rfl).2.1 (later 47 rest)
        rw [show (follow fs c (later 47 rest)).run s₁ = .ok (r'', t') from spec'] at spec
        cases spec
        exact Nat.lt_irrefl c ((ends' c rfl).2.2 some)
  · intro cond
    obtain ⟨r, s', run, _⟩ := h.follow_run fs h.pos (components 47 rest)
    exact ⟨r, s', s', (h.lookupNode_eq proper short cond).trans run, run⟩

end Paths

/-! ### Over tmpfs -/

structure TempFS where
  nodes : PfsId → TempFSNode
  next : PfsId

def tmpfs : Filesystems TempFS PfsId where
  getChild t p name := (t.nodes p).children.tryGetValue (getHash name)
  mkdir t p name := do
    let nodes := update t.nodes t.next ⟨name, .empty⟩
    let children ← (nodes p).children.add (getHash name) t.next
    .ok (some t.next, ⟨update nodes p { nodes p with children }, t.next + 1⟩)

/-- An empty tmpfs under the root node. -/
def tmpfsRoot : State TempFS PfsId where
  pfs := ⟨fun _ => ⟨[], .empty⟩, 1⟩
  vnodes v := ⟨if v = 0 then some 0 else none, .empty⟩
  nextV := 1

theorem tmpfsRoot_reached : (machine tmpfs).Reach tmpfsRoot := .start ⟨rfl, fun _ => rfl⟩

/-- With the directories `a` and `a/b`, the path `/a/b` is followed to its end. -/
theorem lookupNode_iff_directory : ∃ s, (machine tmpfs).Reach s ∧
    s.present tmpfs (.vnode 0) (leading 47 [97, 47, 98]) = true ∧
      ∃ r s₁ s₂, (lookupNode tmpfs [47, 97, 47, 98]).run s = .ok (r, s₁) ∧
        (follow tmpfs 0 (components 47 [97, 47, 98])).run s = .ok (r, s₂) := by
  have run : endsWith (mkdir tmpfs 0 [97]) tmpfsRoot (fun _ s =>
      decide (1 < s.nextV) && endsWith (mkdir tmpfs 1 [98]) s fun _ s =>
        s.present tmpfs (.vnode 0) (leading 47 [97, 47, 98])) = true := by decide +kernel
  obtain ⟨_, s, made, run⟩ := of_endsWith run
  obtain ⟨below, run⟩ := Bool.and_eq_true_iff.mp run
  have entered : 1 < s.nextV := of_decide_eq_true below
  obtain ⟨_, s', made', present⟩ := of_endsWith run
  have outer : ((machine tmpfs).run (.mkdir 0 [97])).run tmpfsRoot = .ok (_, s) := bind_ok made
  have inner : ((machine tmpfs).run (.mkdir 1 [98])).run s = .ok (_, s') := bind_ok made'
  have root : (machine tmpfs).valid tmpfsRoot (.mkdir 0 [97]) := Nat.one_pos
  have there : (machine tmpfs).valid s (.mkdir 1 [98]) := entered
  have reached : (machine tmpfs).Reach s' := .step (.step tmpfsRoot_reached root outer) there inner
  refine ⟨s', reached, present, (lookupNode_iff reached (by decide) (by decide)).mpr (.inl ?_)⟩
  decide

/-- With the directory `a`, the path `//a` leads to the root. -/
theorem lookupNode_slashes :
    ∃ s, (machine tmpfs).Reach s ∧
      (∃ s', (lookupNode tmpfs [47, 47, 97]).run s = .ok (some 0, s')) ∧
      ∃ s', (follow tmpfs 0 (components 47 [47, 97])).run s = .ok (some 1, s') := by
  have run : endsWith (mkdir tmpfs 0 [97]) tmpfsRoot (fun _ s =>
      returns (lookupNode tmpfs [47, 47, 97]) s (some 0) &&
      returns (follow tmpfs 0 (components 47 [47, 97])) s (some 1)) = true := by decide +kernel
  obtain ⟨_, s, made, both⟩ := of_endsWith run
  obtain ⟨looked, followed⟩ := Bool.and_eq_true_iff.mp both
  have step : (Op.run tmpfs (.mkdir 0 [97])).run tmpfsRoot = .ok ((), s) := bind_ok made
  have valid : (machine tmpfs).valid tmpfsRoot (.mkdir 0 [97]) := Nat.one_pos
  exact ⟨s, .step tmpfsRoot_reached valid step, of_returns looked, of_returns followed⟩

/-- A state of the virtual file system over tmpfs, without what its parents and mounts were. -/
def view (s : Vfs.VfsState) : State TempFS PfsId where
  pfs := ⟨s.pnodes, s.nextP⟩
  vnodes v := ⟨(s.vnodes v).pn, (s.vnodes v).children⟩
  nextV := s.nextV

theorem view_update (s : Vfs.VfsState) (v : VfsId) (node : Vfs.VFSNode) (nextV : VfsId) :
    view { s with vnodes := update s.vnodes v node, nextV } =
      { view s with vnodes := update (view s).vnodes v ⟨node.pn, node.children⟩, nextV } := by
  simp only [view, State.mk.injEq, true_and, and_true]
  funext w
  by_cases here : w = v <;> simp [here]

theorem addCached_view (s : Vfs.VfsState) (v : VfsId) (name : Vfs.Name) (child : VfsId) :
    (addCached v name child).run (view s) =
      ((Vfs.addCached v name child).run s).map fun out => (out.1, view out.2) := by
  unfold addCached Vfs.addCached
  rw [bind_ok (run_get_eq _), bind_ok (run_get_eq s)]
  simp only [view]
  cases added : (s.vnodes v).children.add (getHash name) child with
  | error e => rfl
  | ok children =>
      rw [bind_ok (lift_ok _ _), bind_ok (lift_ok _ _), run_set_eq, run_set_eq]
      have same := view_update s v { s.vnodes v with children } s.nextV
      exact congrArg (fun t => Except.ok (PUnit.unit, t)) same.symm

theorem getChild_view (s : Vfs.VfsState) (v : VfsId) (name : Vfs.Name) :
    (getChild tmpfs v name).run (view s) =
      ((Vfs.getChild v name).run s).map fun out => (out.1, view out.2) := by
  unfold getChild Vfs.getChild
  rw [bind_ok (run_get_eq _), bind_ok (run_get_eq s)]
  simp only [show ((view s).vnodes v).pn = (s.vnodes v).pn from rfl,
    show ((view s).vnodes v).children = (s.vnodes v).children from rfl]
  cases at_v : (s.vnodes v).pn with
  | none => rfl
  | some pn =>
      cases hit : (s.vnodes v).children.tryGetValue (getHash name) with
      | some c => rfl
      | none =>
          simp only [show tmpfs.getChild (view s).pfs pn name = s.tempGetChild pn name from rfl]
          cases child : s.tempGetChild pn name with
          | none => rfl
          | some p =>
              let t : Vfs.VfsState :=
                { s with
                  vnodes := update s.vnodes s.nextV ⟨some v, some p, .empty⟩
                  nextV := s.nextV + 1 }
              have new : (newVFSNode p).run (view s) = .ok (s.nextV, view t) :=
                congrArg (fun t => Except.ok (s.nextV, t))
                  (view_update s s.nextV ⟨some v, some p, .empty⟩ (s.nextV + 1)).symm
              have new' : (Vfs.newVFSNode v p).run s = .ok (s.nextV, t) := rfl
              rw [bind_ok new, bind_ok new', StateT.run_bind, StateT.run_bind, addCached_view]
              cases (Vfs.addCached v name s.nextV).run t <;> rfl

end Infos.Fs.LookupNode
