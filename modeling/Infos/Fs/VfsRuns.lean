import Infos.Fs.Vfs
import Mathlib.Data.Set.Function

/-!
# The cache of the virtual file system over whole runs

`Inv` keeps the two trees together. Its set `W` has the physical nodes that a
VFS node was ever made for: a node of `W` is not wrapped a second time, because
the node for it stays in the cache through which it is reached.
-/
namespace Infos.Fs.Vfs
open Infos.Lib Infos.Util Function

def VfsState.childAt (s : VfsState) (q : PfsId) (k : HashType) : Option PfsId :=
  (s.pnodes q).children.tryGetValue k

def VfsState.cachedAt (s : VfsState) (v : VfsId) (k : HashType) : Option VfsId :=
  (s.vnodes v).children.tryGetValue k

/-- The physical tree: children are newer than their parent and have no other. -/
structure Tree (names : Set Name) (s : VfsState) : Prop where
  sound : ∀ q, (s.pnodes q).children.Sound
  newer : ∀ q k p, s.childAt q k = some p → q < p ∧ p < s.nextP
  single : ∀ q k q' k' p, s.childAt q k = some p → s.childAt q' k' = some p → q = q' ∧ k = k'
  key : ∀ q k p, s.childAt q k = some p → getHash (s.pnodes p).name = k ∧ (s.pnodes p).name ∈ names

structure Inv (names : Set Name) (s : VfsState) (W : Set PfsId) : Prop where
  tree : Tree names s
  sound : ∀ v, (s.vnodes v).children.Sound
  wrapped : ∀ v p, (s.vnodes v).pn = some p → p ∈ W
  bound : ∀ p ∈ W, p < s.nextP
  closed : ∀ q k p, s.childAt q k = some p → p ∈ W → q ∈ W
  held : ∀ v q k p, (s.vnodes v).pn = some q → s.childAt q k = some p → p ∈ W →
    ∃ c, s.cachedAt v k = some c
  cached : ∀ v k c, s.cachedAt v k = some c → ∃ q p, (s.vnodes v).pn = some q ∧
    s.childAt q k = some p ∧ p ∈ W ∧ c < s.nextV ∧ (s.vnodes c).pn = some ((s.mounts c).getD p)
  single : ∀ v w p, (s.vnodes v).pn = some p → (s.vnodes w).pn = some p → v = w
  unused : ∀ v, s.nextV ≤ v → (s.vnodes v).pn = none ∧ s.mounts v = none ∧
    ∀ k, s.cachedAt v k = none

section Runs
variable {names : Set Name} {s s' : VfsState} {W : Set PfsId} {v : VfsId} {q p : PfsId}
  {name : Name}

theorem initial_pn (h : (VfsState.initial.vnodes v).pn = some p) : v = 0 ∧ p = 0 := by
  change (if v = 0 then some 0 else none) = some p at h
  split_ifs at h with root
  exact ⟨root, (Option.some.inj h).symm⟩

theorem Inv.initial : Inv names .initial {0} where
  tree := ⟨fun _ => Map.empty_sound, nofun, nofun, nofun⟩
  sound _ := Map.empty_sound
  wrapped _ _ h := (initial_pn h).2
  bound p h := by
    rw [Set.mem_singleton_iff.mp h]
    exact Nat.one_pos
  closed := nofun
  held := nofun
  cached := nofun
  single v w p hv hw := (initial_pn hv).1.trans (initial_pn hw).1.symm
  unused v hv := by
    refine ⟨if_neg ?_, rfl, fun _ => rfl⟩
    exact Nat.ne_of_gt hv

theorem Tree.of_same (h : Tree names s) (child : ∀ q k, s'.childAt q k = s.childAt q k)
    (name : ∀ p < s.nextP, (s'.pnodes p).name = (s.pnodes p).name)
    (sound : ∀ q, (s'.pnodes q).children.Sound) (nextP : s.nextP ≤ s'.nextP) : Tree names s' := by
  constructor
  case sound => exact sound
  case newer =>
    intro q k p found
    obtain ⟨lt, bound⟩ := h.newer q k p (child q k ▸ found)
    exact ⟨lt, bound.trans_le nextP⟩
  case single =>
    intro q k q' k' p found found'
    exact h.single q k q' k' p (child q k ▸ found) (child q' k' ▸ found')
  case key =>
    intro q k p found
    rw [child] at found
    rw [name p (h.newer q k p found).2]
    exact h.key q k p found

/-! ### Making a directory -/

/-- A directory was made in `q`. -/
structure Made (s s' : VfsState) (q : PfsId) (name : Name) : Prop where
  child : ∀ q' k, s'.childAt q' k =
    if q' = q ∧ k = getHash name then some s.nextP else s.childAt q' k
  name : ∀ p, (s'.pnodes p).name = if p = s.nextP then name else (s.pnodes p).name
  sound : ∀ p, (s'.pnodes p).children.Sound
  nextP : s'.nextP = s.nextP + 1
  vnodes : s'.vnodes = s.vnodes
  nextV : s'.nextV = s.nextV
  mounts : s'.mounts = s.mounts

theorem Tree.mkdir_run (h : Tree names s) (old : q < s.nextP) (name : Name) :
    ∃ s', (tempMkdir q name).run s = .ok (s.nextP, s') ∧ Made s s' q name := by
  obtain ⟨children, run, sound, values⟩ := Map.add_spec (getHash name) s.nextP (h.sound q)
  have other : q ≠ s.nextP := Nat.ne_of_lt old
  let s₁ : VfsState :=
    { s with pnodes := update s.pnodes s.nextP ⟨name, .empty⟩, nextP := s.nextP + 1 }
  have same : s₁.pnodes q = s.pnodes q := update_of_ne other _ _
  let s₂ : VfsState := { s₁ with pnodes := update s₁.pnodes q ⟨(s.pnodes q).name, children⟩ }
  have records : ∀ x, x = q ∧ s₂.pnodes x = ⟨(s.pnodes q).name, children⟩ ∨
      x ≠ q ∧ x = s.nextP ∧ s₂.pnodes x = ⟨name, .empty⟩ ∨
      x ≠ q ∧ x ≠ s.nextP ∧ s₂.pnodes x = s.pnodes x :=
    written_cases s.pnodes other ⟨name, .empty⟩ ⟨(s.pnodes q).name, children⟩
  refine ⟨s₂, ?_, ?_⟩
  · unfold tempMkdir
    have made : (newTempNode name).run s = .ok (s.nextP, s₁) := rfl
    rw [bind_ok made, bind_ok (run_get_eq s₁), same, run]
    rfl
  · constructor
    case child =>
      intro q' k
      change (s₂.pnodes q').children.tryGetValue k = _
      rcases records q' with ⟨rfl, record⟩ | ⟨ne, rfl, record⟩ | ⟨ne, _, record⟩
      · rw [record, values, update_apply]
        simp [VfsState.childAt]
      · rw [record, if_neg fun e => ne e.1]
        cases found : s.childAt s.nextP k with
        | none => rfl
        | some p =>
            obtain ⟨lt, bound⟩ := h.newer _ k p found
            exact absurd (lt.trans bound) (Nat.lt_irrefl _)
      · rw [record, if_neg fun e => ne e.1]
        rfl
    case name =>
      intro p
      rcases records p with ⟨rfl, record⟩ | ⟨_, rfl, record⟩ | ⟨_, ne, record⟩
      · rw [record, if_neg other]
      · rw [record, if_pos rfl]
      · rw [record, if_neg ne]
    case sound =>
      intro p
      rcases records p with ⟨rfl, record⟩ | ⟨_, rfl, record⟩ | ⟨_, _, record⟩
      · rw [record]
        exact sound
      · rw [record]
        exact Map.empty_sound
      · rw [record]
        exact h.sound p
    case nextP => rfl
    case vnodes => rfl
    case nextV => rfl
    case mounts => rfl

theorem Made.tree (made : Made s s' q name) (h : Tree names s) (old : q < s.nextP)
    (known : name ∈ names) : Tree names s' := by
  constructor
  case sound => exact made.sound
  case newer =>
    intro q' k p found
    rw [made.child] at found
    rw [made.nextP]
    split_ifs at found with here
    · cases found
      exact ⟨here.1 ▸ old, Nat.lt_succ_self _⟩
    · obtain ⟨lt, bound⟩ := h.newer q' k p found
      exact ⟨lt, Nat.lt_succ_of_lt bound⟩
  case single =>
    intro q₁ k₁ q₂ k₂ p found₁ found₂
    rw [made.child] at found₁ found₂
    split_ifs at found₁ found₂ with here₁ here₂ here₂
    · exact ⟨here₁.1.trans here₂.1.symm, here₁.2.trans here₂.2.symm⟩
    · cases found₁
      exact absurd (h.newer _ _ _ found₂).2 (Nat.lt_irrefl _)
    · cases found₂
      exact absurd (h.newer _ _ _ found₁).2 (Nat.lt_irrefl _)
    · exact h.single q₁ k₁ q₂ k₂ p found₁ found₂
  case key =>
    intro q' k p found
    rw [made.child] at found
    rw [made.name]
    split_ifs at found with here
    · cases found
      rw [if_pos rfl]
      exact ⟨here.2.symm, known⟩
    · rw [if_neg (Nat.ne_of_lt (h.newer q' k p found).2)]
      exact h.key q' k p found

theorem Made.inv (made : Made s s' q name) (h : Inv names s W) (at_v : (s.vnodes v).pn = some q)
    (known : name ∈ names) (free : s.cached v name = none) : Inv names s' W := by
  have old : q < s.nextP := h.bound q (h.wrapped v q at_v)
  constructor
  case tree => exact made.tree h.tree old known
  case sound => exact made.vnodes ▸ h.sound
  case wrapped => exact made.vnodes ▸ h.wrapped
  case bound => exact fun p hp => made.nextP ▸ Nat.lt_succ_of_lt (h.bound p hp)
  case closed =>
    intro q' k p found hp
    rw [made.child] at found
    split_ifs at found with here
    · exact here.1 ▸ h.wrapped v q at_v
    · exact h.closed q' k p found hp
  case held =>
    intro w q' k p at_w found hp
    rw [made.child] at found
    rw [made.vnodes] at at_w
    split_ifs at found with here
    · cases found
      exact absurd (h.bound _ hp) (Nat.lt_irrefl _)
    · have := h.held w q' k p at_w found hp
      unfold VfsState.cachedAt
      rw [made.vnodes]
      exact this
  case cached =>
    intro w k c found
    unfold VfsState.cachedAt at found
    rw [made.vnodes] at found
    obtain ⟨q', p, at_w, child, hp, hc, wraps⟩ := h.cached w k c found
    rw [made.vnodes, made.nextV, made.mounts]
    refine ⟨q', p, at_w, ?_, hp, hc, wraps⟩
    rw [made.child, if_neg, child]
    rintro ⟨rfl, rfl⟩
    cases h.single v w q' at_v at_w
    exact absurd (free.symm.trans found) nofun
  case single => exact made.vnodes ▸ h.single
  case unused =>
    intro w hw
    unfold VfsState.cachedAt
    rw [made.vnodes, made.mounts]
    exact h.unused w (made.nextV ▸ hw)

/-! ### Wrapping a child -/

/-- A node was made for `assoc` and put into the cache of `v`. -/
structure Wrapped (s s' : VfsState) (v : VfsId) (name : Name) (assoc : PfsId) : Prop where
  cached : ∀ w k, s'.cachedAt w k =
    if w = v ∧ k = getHash name then some s.nextV else s.cachedAt w k
  pn : ∀ w, (s'.vnodes w).pn = if w = s.nextV then some assoc else (s.vnodes w).pn
  sound : ∀ w, (s'.vnodes w).children.Sound
  nextV : s'.nextV = s.nextV + 1
  pnodes : s'.pnodes = s.pnodes
  nextP : s'.nextP = s.nextP
  mounts : s'.mounts = s.mounts

theorem wrap_run (sound : ∀ w, (s.vnodes w).children.Sound)
    (fresh : ∀ k, s.cachedAt s.nextV k = none) (old : v < s.nextV) (name : Name) (assoc : PfsId) :
    ∃ s', (do let child ← newVFSNode v assoc; addCached v name child; pure (some child)).run s =
        .ok (some s.nextV, s') ∧ Wrapped s s' v name assoc := by
  obtain ⟨children, run, sound', values⟩ := Map.add_spec (getHash name) s.nextV (sound v)
  have other : v ≠ s.nextV := Nat.ne_of_lt old
  let s₁ : VfsState :=
    { s with vnodes := update s.vnodes s.nextV ⟨some v, some assoc, .empty⟩, nextV := s.nextV + 1 }
  have same : s₁.vnodes v = s.vnodes v := update_of_ne other _ _
  let s₂ : VfsState := { s₁ with vnodes := update s₁.vnodes v { s.vnodes v with children } }
  have run₂ : (addCached v name s.nextV).run s₁ = .ok ((), s₂) := by
    unfold addCached
    rw [bind_ok (run_get_eq s₁), same, run]
    rfl
  have records : ∀ x, x = v ∧ s₂.vnodes x = { s.vnodes v with children } ∨
      x ≠ v ∧ x = s.nextV ∧ s₂.vnodes x = ⟨some v, some assoc, .empty⟩ ∨
      x ≠ v ∧ x ≠ s.nextV ∧ s₂.vnodes x = s.vnodes x :=
    written_cases s.vnodes other ⟨some v, some assoc, .empty⟩ { s.vnodes v with children }
  refine ⟨s₂, ?_, ?_⟩
  · have made : (newVFSNode v assoc).run s = .ok (s.nextV, s₁) := rfl
    rw [bind_ok made, bind_ok run₂]
    rfl
  · constructor
    case cached =>
      intro w k
      change (s₂.vnodes w).children.tryGetValue k = _
      rcases records w with ⟨rfl, record⟩ | ⟨ne, rfl, record⟩ | ⟨ne, _, record⟩
      · rw [record, values, update_apply]
        simp [VfsState.cachedAt]
      · rw [record, if_neg fun e => ne e.1]
        exact (fresh k).symm
      · rw [record, if_neg fun e => ne e.1]
        rfl
    case pn =>
      intro w
      rcases records w with ⟨rfl, record⟩ | ⟨_, rfl, record⟩ | ⟨_, ne, record⟩
      · rw [record, if_neg other]
      · rw [record, if_pos rfl]
      · rw [record, if_neg ne]
    case sound =>
      intro w
      rcases records w with ⟨rfl, record⟩ | ⟨_, rfl, record⟩ | ⟨_, _, record⟩
      · rw [record]
        exact sound'
      · rw [record]
        exact Map.empty_sound
      · rw [record]
        exact sound w
    case nextV => rfl
    case pnodes => rfl
    case nextP => rfl
    case mounts => rfl

theorem Wrapped.child (w : Wrapped s s' v name p) (q : PfsId) (k : HashType) :
    s'.childAt q k = s.childAt q k := by
  unfold VfsState.childAt
  rw [w.pnodes]

theorem Wrapped.tree (wrap : Wrapped s s' v name p) (h : Tree names s) : Tree names s' :=
  h.of_same wrap.child (fun p' _ => by rw [wrap.pnodes]) (wrap.pnodes ▸ h.sound) wrap.nextP.ge

theorem Inv.wrapped_insert (h : Inv names s W) {x : VfsId}
    (pn : ∀ w, (s'.vnodes w).pn = if w = x then some p else (s.vnodes w).pn) (w : VfsId) (r : PfsId)
    (at_w : (s'.vnodes w).pn = some r) : r ∈ insert p W := by
  rw [pn] at at_w
  split_ifs at at_w
  · cases at_w
    exact Set.mem_insert _ _
  · exact Set.mem_insert_of_mem _ (h.wrapped w r at_w)

theorem Inv.single_insert (h : Inv names s W) {x : VfsId}
    (pn : ∀ w, (s'.vnodes w).pn = if w = x then some p else (s.vnodes w).pn) (new : p ∉ W)
    (w w' : VfsId) (r : PfsId) (at_w : (s'.vnodes w).pn = some r)
    (at_w' : (s'.vnodes w').pn = some r) : w = w' := by
  rw [pn] at at_w at_w'
  split_ifs at at_w at_w' with here here' here'
  · exact here.trans here'.symm
  · cases at_w
    exact absurd (h.wrapped w' _ at_w') new
  · cases at_w'
    exact absurd (h.wrapped w _ at_w) new
  · exact h.single w w' r at_w at_w'

theorem Wrapped.inv (wrap : Wrapped s s' v name p) (h : Inv names s W) (old : v < s.nextV)
    (at_v : (s.vnodes v).pn = some q) (child : s.childAt q (getHash name) = some p)
    (free : s.cachedAt v (getHash name) = none) : Inv names s' (insert p W) := by
  have new : p ∉ W := by
    intro hp
    obtain ⟨c, found⟩ := h.held v q _ p at_v child hp
    exact absurd (free.symm.trans found) nofun
  have fresh := h.unused s.nextV le_rfl
  have pn_old : ∀ w r, (s.vnodes w).pn = some r → (s'.vnodes w).pn = some r := by
    intro w r at_w
    rw [wrap.pn, if_neg, at_w]
    rintro rfl
    exact absurd (fresh.1.symm.trans at_w) nofun
  constructor
  case tree => exact wrap.tree h.tree
  case sound => exact wrap.sound
  case wrapped => exact h.wrapped_insert wrap.pn
  case bound =>
    intro r hr
    rw [wrap.nextP]
    rcases Set.mem_insert_iff.mp hr with rfl | hr
    · exact (h.tree.newer _ _ _ child).2
    · exact h.bound r hr
  case closed =>
    intro q' k r found hr
    rw [wrap.child] at found
    rcases Set.mem_insert_iff.mp hr with rfl | hr
    · rw [(h.tree.single _ _ _ _ _ found child).1]
      exact Set.mem_insert_of_mem _ (h.wrapped v q at_v)
    · exact Set.mem_insert_of_mem _ (h.closed q' k r found hr)
  case held =>
    intro w q' k r at_w found hr
    rw [wrap.child] at found
    rw [wrap.pn] at at_w
    rw [wrap.cached]
    split_ifs at at_w with here
    · -- the new node's children are as new as the node
      cases at_w
      rcases Set.mem_insert_iff.mp hr with rfl | hr
      · exact absurd (h.tree.newer _ _ _ found).1 (Nat.lt_irrefl _)
      · exact absurd (h.closed _ _ _ found hr) new
    · rcases Set.mem_insert_iff.mp hr with rfl | hr
      · obtain ⟨rfl, rfl⟩ := h.tree.single _ _ _ _ _ found child
        rw [h.single w v _ at_w at_v, if_pos ⟨rfl, rfl⟩]
        exact ⟨_, rfl⟩
      · obtain ⟨c, found'⟩ := h.held w q' k r at_w found hr
        split_ifs
        · exact ⟨_, rfl⟩
        · exact ⟨c, found'⟩
  case cached =>
    intro w k c found
    rw [wrap.cached] at found
    rw [wrap.mounts, wrap.nextV]
    split_ifs at found with here
    · cases found
      obtain ⟨rfl, rfl⟩ := here
      refine ⟨q, p, pn_old _ _ at_v, (wrap.child _ _).trans child, Set.mem_insert _ _,
        Nat.lt_succ_self _, ?_⟩
      rw [wrap.pn, if_pos rfl, fresh.2.1]
      rfl
    · obtain ⟨q', r, at_w, child', hr, hc, wraps⟩ := h.cached w k c found
      exact ⟨q', r, pn_old _ _ at_w, (wrap.child _ _).trans child', Set.mem_insert_of_mem _ hr,
        Nat.lt_succ_of_lt hc, pn_old _ _ wraps⟩
  case single => exact h.single_insert wrap.pn new
  case unused =>
    intro w hw
    rw [wrap.nextV] at hw
    obtain ⟨none, unmounted, empty⟩ := h.unused w (Nat.le_of_succ_le hw)
    rw [wrap.pn, wrap.mounts, if_neg (Nat.ne_of_gt hw)]
    refine ⟨none, unmounted, fun k => ?_⟩
    rw [wrap.cached, if_neg, empty]
    rintro ⟨rfl, _⟩
    exact absurd (old.trans hw) (Nat.lt_irrefl _)

/-! ### Mounting -/

/-- A new root was mounted on `v`. -/
structure Mounted (s s' : VfsState) (v : VfsId) : Prop where
  pn : ∀ w, (s'.vnodes w).pn = if w = v then some s.nextP else (s.vnodes w).pn
  cached : ∀ w k, s'.cachedAt w k = if w = v then none else s.cachedAt w k
  sound : ∀ w, (s'.vnodes w).children.Sound
  child : ∀ q k, s'.childAt q k = s.childAt q k
  name : ∀ p < s.nextP, (s'.pnodes p).name = (s.pnodes p).name
  soundP : ∀ q, (s'.pnodes q).children.Sound
  nextP : s'.nextP = s.nextP + 1
  nextV : s'.nextV = s.nextV
  mounts : ∀ w, s'.mounts w = if w = v then some s.nextP else s.mounts w

theorem Inv.mount_run (h : Inv names s W) (v : VfsId) :
    ∃ s₁ s', (Filesystem.mount .tempFS).run s = .ok (some s.nextP, s₁) ∧
      s' = { s₁ with
        vnodes := update s₁.vnodes v
          { s₁.vnodes v with pn := some s.nextP, children := .empty }
        mounts := update s₁.mounts v (some s.nextP) } ∧ Mounted s s' v := by
  refine ⟨_, _, rfl, rfl, ?_⟩
  constructor
  case pn =>
    intro w
    by_cases here : w = v
    · subst here
      simp
    · simp [here]
  case cached =>
    intro w k
    by_cases here : w = v
    · subst here
      simp [VfsState.cachedAt, Map.empty_tryGetValue]
    · simp [here, VfsState.cachedAt]
  case sound =>
    intro w
    by_cases here : w = v
    · subst here
      simpa using Map.empty_sound
    · simpa [here] using h.sound w
  case child =>
    intro q k
    by_cases new : q = s.nextP
    · subst new
      cases found : s.childAt s.nextP k with
      | none => simp [VfsState.childAt, Map.empty_tryGetValue]
      | some p =>
          obtain ⟨lt, bound⟩ := h.tree.newer _ k p found
          exact absurd (lt.trans bound) (Nat.lt_irrefl _)
    · simp [new, VfsState.childAt]
  case name =>
    intro p hp
    simp [Nat.ne_of_lt hp]
  case soundP =>
    intro q
    by_cases new : q = s.nextP
    · subst new
      simpa using Map.empty_sound
    · simpa [new] using h.tree.sound q
  case nextP => rfl
  case nextV => rfl
  case mounts => exact fun w => update_apply _ _ _ _

theorem Mounted.inv (m : Mounted s s' v) (h : Inv names s W) (old : v < s.nextV) :
    Inv names s' (insert s.nextP W) := by
  have bound : ∀ {q k p}, s.childAt q k = some p → p < s.nextP := fun found =>
    (h.tree.newer _ _ _ found).2
  have other : ∀ {q k p}, s.childAt q k = some p → p ∈ insert s.nextP W → p ∈ W := by
    intro q k p found hp
    exact Set.mem_of_mem_insert_of_ne hp (Nat.ne_of_lt (bound found))
  constructor
  case tree => exact h.tree.of_same m.child m.name m.soundP (m.nextP ▸ Nat.le_succ _)
  case sound => exact m.sound
  case wrapped => exact h.wrapped_insert m.pn
  case bound =>
    intro p hp
    rw [m.nextP]
    rcases Set.mem_insert_iff.mp hp with rfl | hp
    · exact Nat.lt_succ_self _
    · exact Nat.lt_succ_of_lt (h.bound p hp)
  case closed =>
    intro q k p found hp
    rw [m.child] at found
    exact Set.mem_insert_of_mem _ (h.closed q k p found (other found hp))
  case held =>
    intro w q k p at_w found hp
    rw [m.child] at found
    rw [m.pn] at at_w
    rw [m.cached]
    split_ifs at at_w with here
    · cases at_w
      exact absurd ((h.tree.newer _ _ _ found).1.trans (bound found)) (Nat.lt_irrefl _)
    · rw [if_neg here]
      exact h.held w q k p at_w found (other found hp)
  case cached =>
    intro w k c found
    rw [m.cached] at found
    split_ifs at found with here
    obtain ⟨q, p, at_w, child, hp, hc, wraps⟩ := h.cached w k c found
    rw [m.pn, m.pn, m.nextV, m.mounts, if_neg here]
    refine ⟨q, p, at_w, (m.child q k).trans child, Set.mem_insert_of_mem _ hp, hc, ?_⟩
    split_ifs
    · rfl
    · exact wraps
  case single => exact h.single_insert m.pn fun hp => Nat.lt_irrefl _ (h.bound _ hp)
  case unused =>
    intro w hw
    rw [m.nextV] at hw
    have here : w ≠ v := by
      rintro rfl
      exact Nat.lt_irrefl _ (old.trans_le hw)
    rw [m.pn, m.mounts, if_neg here, if_neg here]
    obtain ⟨none, unmounted, empty⟩ := h.unused w hw
    refine ⟨none, unmounted, fun k => ?_⟩
    rw [m.cached, if_neg here, empty]

end Runs
end Infos.Fs.Vfs
