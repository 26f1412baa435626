import Infos.Lib.Radix
import Infos.Fs.Tarfs
import Mathlib.Data.List.Infix

/-!
# The tree of an archive

A view says what a tree holds: which paths exist, and the size and the header
block of the node at a path. Nodes are found by the hashes of the names.
-/
namespace Infos.Fs
open Infos.Lib Infos.Util Function

abbrev Name := List UInt8

def keys (p : List Name) : List HashType := p.map getHash

def TarState.childAt (s : TarState) (slot : NodeId × HashType) : Option NodeId :=
  (s.nodes slot.1).children.tryGetValue slot.2

/-- The node that a path of hashes leads to. -/
def TarState.locate (s : TarState) (root : NodeId) (ks : List HashType) : Option NodeId :=
  descend Prod.mk id s.childAt root ks

/-- The node that `get_child` leads to, one name after another. -/
def TarState.resolve (s : TarState) : NodeId → List Name → Option NodeId
  | n, [] => some n
  | n, c :: p => (s.getChild n c).bind fun m => s.resolve m p

def TarFSNode.header (node : TarFSNode) : Option Nat :=
  if node.hasBlockOffset then some node.blockOffset else none

@[ext] structure View where
  here : List Name → Prop
  size : List HashType → Nat
  block : List HashType → Option Nat

namespace View

/-- Nothing but a root. -/
def blank : View := ⟨fun p => p = [], fun _ => 0, fun _ => none⟩

/-- With the nodes along `p`. -/
def reach (v : View) (p : List Name) : View := { v with here := fun q => v.here q ∨ q <+: p }

/-- With the data of the node at `p`. -/
def mark (v : View) (p : List Name) (size : Nat) (block : Option Nat) : View :=
  { v with size := update v.size (keys p) size, block := update v.block (keys p) block }

/-- After an entry with path `p`; `block` is given for a file. -/
def enter (v : View) (p : List Name) (size : Nat) (block : Option Nat) : View :=
  (v.reach p).mark p size (block.or (v.block (keys p)))

variable {v : View} {p q : List Name}

theorem reach_reach (h : p <+: q) : (v.reach p).reach q = v.reach q := by
  ext r
  · constructor
    · rintro ((here | ofP) | ofQ)
      · exact .inl here
      · exact .inr (ofP.trans h)
      · exact .inr ofQ
    · rintro (here | ofQ)
      · exact .inl (.inl here)
      · exact .inr ofQ
  · rfl
  · rfl

@[simp] theorem mark_size {size : Nat} {block : Option Nat} :
    (v.mark p size block).size = update v.size (keys p) size := rfl

@[simp] theorem mark_block {size : Nat} {block : Option Nat} :
    (v.mark p size block).block = update v.block (keys p) block := rfl

end View

/-- The heap below `root` is a tree that holds what the view says. -/
structure Refines (s : TarState) (root : NodeId) (v : View) : Prop where
  tree : RadixTree Prod.mk id s.childAt root fun _ => True
  sound : ∀ n, (s.nodes n).children.Sound
  allocated : ∀ ks n, s.locate root ks = some n → n < s.next
  present : ∀ q, v.here q → ∃ n, s.locate root (keys q) = some n
  named : ∀ ks n, s.locate root ks = some n →
    ∃ q, v.here q ∧ keys q = ks ∧ (s.nodes n).name = q.getLastD []
  sizes : ∀ ks n, s.locate root ks = some n → (s.nodes n).size = v.size ks
  blocks : ∀ ks n, s.locate root ks = some n → (s.nodes n).header = v.block ks
  absent : ∀ ks, s.locate root ks = none → v.size ks = 0 ∧ v.block ks = none

section Locate
variable {s : TarState} {root n : NodeId} {v : View} {p q : List Name} {ks : List HashType}

@[simp] theorem keys_append : keys (p ++ q) = keys p ++ keys q := List.map_append

theorem resolve_eq_locate : s.resolve root p = s.locate root (keys p) := by
  induction p generalizing root with
  | nil => rfl
  | cons c p ih =>
      rw [TarState.resolve]
      change _ = (s.getChild root c).bind fun m => s.locate m (keys p)
      congr 1
      funext m
      exact ih

theorem locate_of_append {js : List HashType} (h : s.locate root (ks ++ js) = some n) :
    ∃ m, s.locate root ks = some m := by
  rw [TarState.locate, descend_append] at h
  obtain ⟨m, reached, -⟩ := Option.bind_eq_some_iff.mp h
  exact ⟨m, reached⟩

/-- Nodes that are there already can be counted in. -/
theorem Refines.reach (h : Refines s root v) (there : s.locate root (keys p) = some n) :
    Refines s root (v.reach p) where
  tree := h.tree
  sound := h.sound
  allocated := h.allocated
  present q hq := by
    rcases hq with here | ⟨r, rfl⟩
    · exact h.present q here
    · rw [keys_append] at there
      exact locate_of_append there
  named ks n reached := by
    obtain ⟨q, here, spelled, name⟩ := h.named ks n reached
    exact ⟨q, .inl here, spelled, name⟩
  sizes := h.sizes
  blocks := h.blocks
  absent := h.absent

end Locate

/-! ### Adding a child -/

section Child
variable {s s' : TarState} {root cur n : NodeId} {v : View} {p : List Name} {c : Name}

/-- The state with a new node in the heap. -/
def TarState.withNew (s : TarState) (name : Name) : TarState :=
  { s with nodes := update s.nodes s.next (.new name), next := s.next + 1 }

theorem withNew_nodes (ne : n ≠ s.next) : (s.withNew c).nodes n = s.nodes n :=
  update_of_ne ne _ _

theorem withNew_node : (s.withNew c).nodes s.next = .new c := update_self _ _ _

theorem newNode_run : (newNode c).run s = .ok (s.next, s.withNew c) := rfl

theorem Refines.childAt_withNew (h : Refines s root v) {ks : List HashType} {k : HashType}
    (reached : s.locate root ks = some n) : (s.withNew c).childAt (n, k) = s.childAt (n, k) := by
  have old := h.allocated ks n reached
  unfold TarState.childAt
  rw [withNew_nodes old.ne]

theorem Refines.locate_withNew (h : Refines s root v) :
    (s.withNew c).locate root = s.locate root := by
  funext ks
  exact descend_congr fun ks k rest n _ reached => h.childAt_withNew reached

/-- A child that is not reached yet is linked below a node of the tree. -/
structure Linked (s s' : TarState) (cur : NodeId) (c : Name) (children : Map HashType NodeId) :
    Prop where
  nodes : s'.nodes = update (s.withNew c).nodes cur { s.nodes cur with children }
  next : s'.next = s.next + 1
  sound : children.Sound
  entries : children.tryGetValue = update (s.nodes cur).children.tryGetValue (getHash c) s.next

theorem ensureChild_new (old : cur < s.next) (sound : (s.nodes cur).children.Sound)
    (none : s.getChild cur c = none) :
    ∃ s' children, (ensureChild cur c).run s = .ok (s.next, s') ∧ Linked s s' cur c children := by
  obtain ⟨children, run, sound', entries⟩ := Map.add_spec (getHash c) s.next sound
  have same : (s.withNew c).nodes cur = s.nodes cur := withNew_nodes old.ne
  refine ⟨(s.withNew c).modifyNode cur fun node => { node with children }, children, ?_, ?_⟩
  · have added : (addChild cur c s.next).run (s.withNew c) =
        .ok ((), (s.withNew c).modifyNode cur fun node => { node with children }) := by
      rw [addChild, bind_ok (run_get_eq _), same, run]
      rfl
    rw [ensureChild, bind_ok (run_get_eq s), none]
    change ((newNode c >>= fun next => addChild cur c next >>= fun _ => pure next).run s) = _
    rw [bind_ok newNode_run, bind_ok added]
    rfl
  · refine ⟨?_, rfl, sound', entries⟩
    unfold TarState.modifyNode
    rw [same]

namespace Linked
variable {children : Map HashType NodeId}

theorem childAt (h : Linked s s' cur c children) (old : cur < s.next) :
    s'.childAt = update (s.withNew c).childAt (cur, getHash c) (some s.next) := by
  funext ⟨n, k⟩
  rw [TarState.childAt, h.nodes, update_apply]
  by_cases atCur : n = cur
  · subst atCur
    rw [if_pos rfl, h.entries]
    by_cases atKey : k = getHash c
    · subst atKey
      rw [update_self, update_self]
    · rw [update_of_ne atKey, update_of_ne fun e => atKey (Prod.mk.inj e).2]
      rw [TarState.childAt, withNew_nodes old.ne]
  · rw [if_neg atCur, update_of_ne fun e => atCur (Prod.mk.inj e).1]
    rfl

/-- What the descent needs to know of the slot that is written. -/
theorem free_slot (h : Refines s root v) (there : s.locate root (keys p) = some cur)
    (none : s.getChild cur c = none) :
    (s.withNew c).locate root (keys p) = some cur ∧
      (s.withNew c).childAt (cur, getHash c) = Option.none ∧
      RadixTree Prod.mk id (s.withNew c).childAt root fun _ => True := by
  refine ⟨by rw [h.locate_withNew, there], ?_, ?_⟩
  · rw [h.childAt_withNew there]
    exact none
  · exact h.tree.frame (fun _ _ _ => trivial) fun ks k n _ reached => h.childAt_withNew reached

theorem new_empty (old : cur < s.next) (k : HashType) :
    (s.next, k) ≠ (cur, getHash c) ∧ (s.withNew c).childAt (s.next, k) = none := by
  refine ⟨fun e => old.ne' (Prod.mk.inj e).1, ?_⟩
  rw [TarState.childAt, withNew_node]
  rfl

theorem locate (l : Linked s s' cur c children) (h : Refines s root v)
    (there : s.locate root (keys p) = some cur) (none : s.getChild cur c = none)
    (ks : List HashType) :
    s'.locate root ks =
      if ks = keys p ++ [getHash c] then some s.next else s.locate root ks := by
  have old := h.allocated _ cur there
  obtain ⟨there', free, tree⟩ := free_slot (c := c) h there none
  rw [TarState.locate, l.childAt old, tree.descend_link (fun _ _ _ => trivial) trivial there' free
    rfl (fun k _ => new_empty old k) trivial]
  congr 1
  exact congrFun h.locate_withNew ks

theorem tree (l : Linked s s' cur c children) (h : Refines s root v)
    (there : s.locate root (keys p) = some cur) (none : s.getChild cur c = none) :
    RadixTree Prod.mk id s'.childAt root fun _ => True := by
  have old := h.allocated _ cur there
  obtain ⟨there', free, tree⟩ := free_slot (c := c) h there none
  rw [l.childAt old]
  refine tree.link (fun _ _ _ => trivial) trivial there' free rfl (fun k _ => new_empty old k)
    (fun k k' e => (Prod.mk.inj e).2) fun ks k n _ reached k' _ e => ?_
  have below := h.allocated ks n (by rw [← h.locate_withNew (c := c)]; exact reached)
  exact below.ne (Prod.mk.inj e).1.symm

/-- A node that was there keeps its data. -/
theorem kept (l : Linked s s' cur c children) (old : n < s.next) :
    (s'.nodes n).name = (s.nodes n).name ∧ (s'.nodes n).size = (s.nodes n).size ∧
      (s'.nodes n).header = (s.nodes n).header := by
  rw [l.nodes, update_apply]
  split_ifs with atCur
  · subst atCur
    exact ⟨rfl, rfl, rfl⟩
  · rw [withNew_nodes old.ne]
    exact ⟨rfl, rfl, rfl⟩

theorem created (l : Linked s s' cur c children) (old : cur < s.next) :
    s'.nodes s.next = .new c := by
  rw [l.nodes, update_of_ne old.ne', withNew_node]

theorem refines (l : Linked s s' cur c children) (h : Refines s root v)
    (there : s.locate root (keys p) = some cur) (none : s.getChild cur c = none) :
    Refines s' root (v.reach (p ++ [c])) := by
  have old := h.allocated _ cur there
  have located := l.locate h there none
  have key : keys (p ++ [c]) = keys p ++ [getHash c] := keys_append
  have unlinked : s.locate root (keys p ++ [getHash c]) = Option.none :=
    (descend_snoc there).trans none
  obtain ⟨noSize, noBlock⟩ := h.absent _ unlinked
  refine ⟨l.tree h there none, ?_, ?_, ?_, ?_, ?_, ?_, ?_⟩
  · intro n
    rw [l.nodes, update_apply]
    split_ifs with atCur
    · exact l.sound
    · by_cases new : n = s.next
      · rw [new, withNew_node]
        exact Map.empty_sound
      · rw [withNew_nodes new]
        exact h.sound n
  · intro ks n reached
    rw [located] at reached
    rw [l.next]
    split_ifs at reached with new
    · cases reached
      exact Nat.lt_succ_self _
    · exact (h.allocated ks n reached).trans (Nat.lt_succ_self _)
  · intro q hq
    rw [located]
    split_ifs with new
    · exact ⟨s.next, rfl⟩
    · rcases hq with here | below
      · exact h.present q here
      · rcases List.prefix_concat_iff.mp below with rfl | ⟨r, rfl⟩
        · exact absurd key new
        · rw [keys_append] at there
          exact locate_of_append there
  · intro ks n reached
    rw [located] at reached
    split_ifs at reached with new
    · cases reached
      refine ⟨p ++ [c], .inr (List.prefix_refl _), key.trans new.symm, ?_⟩
      rw [l.created old]
      simp [TarFSNode.new]
    · obtain ⟨q, here, spelled, name⟩ := h.named ks n reached
      exact ⟨q, .inl here, spelled, (l.kept (h.allocated ks n reached)).1.trans name⟩
  · intro ks n reached
    rw [located] at reached
    split_ifs at reached with new
    · cases reached
      rw [l.created old, new]
      exact noSize.symm
    · exact (l.kept (h.allocated ks n reached)).2.1.trans (h.sizes ks n reached)
  · intro ks n reached
    rw [located] at reached
    split_ifs at reached with new
    · cases reached
      rw [l.created old, new]
      exact noBlock.symm
    · exact (l.kept (h.allocated ks n reached)).2.2.trans (h.blocks ks n reached)
  · intro ks lost
    rw [located] at lost
    split_ifs at lost with new
    exact h.absent ks lost

end Linked

/-- Afterwards there is a node at `p ++ [c]`. -/
theorem ensureChild_spec (h : Refines s root v) (there : s.locate root (keys p) = some cur) :
    ∃ s' n, (ensureChild cur c).run s = .ok (n, s') ∧ Refines s' root (v.reach (p ++ [c])) ∧
      s'.locate root (keys (p ++ [c])) = some n := by
  have key : keys (p ++ [c]) = keys p ++ [getHash c] := keys_append
  cases child : s.getChild cur c with
  | none =>
      obtain ⟨s', children, run, linked⟩ :=
        ensureChild_new (h.allocated _ cur there) (h.sound cur) child
      refine ⟨s', s.next, run, linked.refines h there child, ?_⟩
      rw [linked.locate h there child, if_pos key]
  | some n =>
      have reached : s.locate root (keys (p ++ [c])) = some n := by
        rw [key]
        exact (descend_snoc there).trans child
      refine ⟨s, n, ?_, h.reach reached, reached⟩
      rw [ensureChild, bind_ok (run_get_eq s), child]
      rfl

end Child

/-! ### The walk along a path -/

/-- The bytes from `path` on spell these components, read one after another. -/
inductive Spells : List UInt8 → List Name → Prop
  | stop {path rest : List UInt8} : nextComponent path = .ok ([], rest) → Spells path []
  | next {path rest : List UInt8} {c : Name} {cs : List Name} :
      nextComponent path = .ok (c, rest) → c ≠ [] → Spells rest cs → Spells path (c :: cs)

section Walk
variable {s : TarState} {root cur n : NodeId} {v : View} {p cs : List Name} {path : List UInt8}

theorem walk_spec (spells : Spells path cs) {fuel : Nat} (enough : cs.length < fuel)
    (last : Option NodeId) (h : Refines s root v) (there : s.locate root (keys p) = some cur) :
    ∃ s' n, (walk fuel cur last path).run s = .ok (if cs = [] then last else some n, s') ∧
      Refines s' root (v.reach (p ++ cs)) ∧ s'.locate root (keys (p ++ cs)) = some n ∧
      (cs = [] → n = cur) := by
  induction spells generalizing s v p cur last fuel with
  | stop parsed =>
      cases fuel with
      | zero => exact absurd enough (Nat.not_lt_zero _)
      | succ fuel =>
          refine ⟨s, cur, ?_, by rw [List.append_nil]; exact h.reach there,
            by rw [List.append_nil]; exact there, fun _ => rfl⟩
          rw [walk, parsed, bind_ok (lift_ok _ s)]
          rfl
  | @next path rest c cs parsed nonempty spells ih =>
      cases fuel with
      | zero => exact absurd enough (Nat.not_lt_zero _)
      | succ fuel =>
          obtain ⟨s₁, m, run, refines, reached⟩ := ensureChild_spec (c := c) h there
          obtain ⟨s', n, run', refines', reached', stay⟩ :=
            ih (Nat.lt_of_succ_lt_succ enough) (some m) refines reached
          rw [View.reach_reach (List.prefix_append _ _), List.append_assoc] at refines'
          rw [List.append_assoc] at reached'
          refine ⟨s', n, ?_, refines', reached', nofun⟩
          rw [walk, parsed, bind_ok (lift_ok _ s)]
          change ((if c = [] then pure last else _ : Exec TarState (Option NodeId)).run s) = _
          rw [if_neg nonempty, bind_ok run, run', if_neg (List.cons_ne_nil c cs)]
          split_ifs with last
          · rw [stay last]
          · rfl

theorem modifyNode_self {f : TarFSNode → TarFSNode} :
    (s.modifyNode n f).nodes n = f (s.nodes n) := update_self _ _ _

theorem modifyNode_of_ne {f : TarFSNode → TarFSNode} (ne : cur ≠ n) :
    (s.modifyNode n f).nodes cur = s.nodes cur := update_of_ne ne _ _

theorem childAt_modifyNode {f : TarFSNode → TarFSNode}
    (children : (f (s.nodes n)).children = (s.nodes n).children) :
    (s.modifyNode n f).childAt = s.childAt := by
  funext ⟨m, k⟩
  unfold TarState.childAt
  by_cases atNode : m = n
  · rw [atNode, modifyNode_self, children]
  · rw [modifyNode_of_ne atNode]

theorem locate_modifyNode {f : TarFSNode → TarFSNode}
    (children : (f (s.nodes n)).children = (s.nodes n).children) :
    (s.modifyNode n f).locate root = s.locate root := by
  unfold TarState.locate
  rw [childAt_modifyNode children]

/-- A node's size and header may change; they are seen at its path only. -/
theorem Refines.mark (h : Refines s root v) (there : s.locate root (keys p) = some n)
    {f : TarFSNode → TarFSNode} (children : (f (s.nodes n)).children = (s.nodes n).children)
    (name : (f (s.nodes n)).name = (s.nodes n).name) :
    Refines (s.modifyNode n f) root
      (v.mark p (f (s.nodes n)).size (f (s.nodes n)).header) := by
  have only : ∀ ks, s.locate root ks = some n → ks = keys p := fun ks reached =>
    h.tree.unshared (i := 0) trivial trivial reached there
  have other : ∀ ks m, s.locate root ks = some m → m ≠ n → ks ≠ keys p := by
    rintro ks m reached ne rfl
    exact ne (Option.some.inj (reached.symm.trans there))
  refine ⟨by rw [childAt_modifyNode children]; exact h.tree, ?_, ?_, ?_, ?_, ?_, ?_, ?_⟩
  · intro m
    by_cases atNode : m = n
    · rw [atNode, modifyNode_self, children]
      exact h.sound n
    · rw [modifyNode_of_ne atNode]
      exact h.sound m
  all_goals rw [locate_modifyNode children]
  · exact h.allocated
  · exact h.present
  · intro ks m reached
    obtain ⟨q, here, spelled, name'⟩ := h.named ks m reached
    refine ⟨q, here, spelled, ?_⟩
    by_cases atNode : m = n
    · rw [atNode, modifyNode_self, name, ← atNode, name']
    · rw [modifyNode_of_ne atNode, name']
  · intro ks m reached
    by_cases atNode : m = n
    · subst atNode
      rw [modifyNode_self, only ks reached, View.mark_size, update_self]
    · rw [modifyNode_of_ne atNode, h.sizes ks m reached, View.mark_size,
        update_of_ne (other ks m reached atNode)]
  · intro ks m reached
    by_cases atNode : m = n
    · subst atNode
      rw [modifyNode_self, only ks reached, View.mark_block, update_self]
    · rw [modifyNode_of_ne atNode, h.blocks ks m reached, View.mark_block,
        update_of_ne (other ks m reached atNode)]
  · intro ks lost
    have apart : ks ≠ keys p := by
      rintro rfl
      cases lost.symm.trans there
    rw [View.mark_size, View.mark_block, update_of_ne apart, update_of_ne apart]
    exact h.absent ks lost

/-- The header's data on the node that the walk found. -/
def TarFSNode.describe (node : TarFSNode) (size : Nat) (block : Option Nat) : TarFSNode :=
  match block with
  | none => { node with size }
  | some blockOffset => { node with size, hasBlockOffset := true, blockOffset }

theorem Refines.describe (h : Refines s root v) (there : s.locate root (keys p) = some n)
    {size : Nat} {block : Option Nat} :
    Refines (s.modifyNode n fun node => node.describe size block) root
      (v.mark p size (block.or (v.block (keys p)))) := by
  rw [← h.blocks _ n there]
  cases block with
  | none => exact h.mark there (f := fun node => node.describe size none) rfl rfl
  | some b => exact h.mark there (f := fun node => node.describe size (some b)) rfl rfl

theorem modifyNode_modifyNode {f g : TarFSNode → TarFSNode} :
    (s.modifyNode n f).modifyNode n g = s.modifyNode n fun node => g (f node) := by
  rw [TarState.modifyNode, modifyNode_self]
  unfold TarState.modifyNode
  rw [update_idem]

/-- The node that the walk ends at gets the size and, for a file, the header block. -/
theorem enterHeader_run {head : Block} (offset : Int) {size : Nat} {s₁ : TarState}
    (walked : (walk 513 root none head.1).run s = .ok (some n, s₁))
    (sized : headerSize head = .ok size) :
    (enterHeader root head offset).run s =
      .ok (toInt32 (if size % 512 ≠ 0 then size / 512 + 1 else size / 512 : Nat),
        s₁.modifyNode n fun node => node.describe size
          (if typeflag head ≠ 53 then some (toUInt32 offset) else none)) := by
  rw [enterHeader, sized, bind_ok (lift_ok _ s), bind_ok walked]
  have sizeSet : (setSize n size).run s₁ =
      .ok ((), s₁.modifyNode n fun node => node.describe size none) := rfl
  by_cases directory : typeflag head = 53
  · rw [if_neg (not_not.mpr directory)]
    change ((setSize n size >>= fun _ => _).run s₁) = _
    rw [bind_ok sizeSet, if_neg (not_not.mpr directory)]
    rfl
  · rw [if_pos directory]
    change ((setSize n size >>= fun _ => _).run s₁) = _
    rw [bind_ok sizeSet, if_pos directory]
    have blockSet : (setBlockOffset n (toUInt32 offset)).run
        (s₁.modifyNode n fun node => node.describe size none) =
        .ok ((), s₁.modifyNode n fun node => node.describe size (some (toUInt32 offset))) := by
      change Except.ok ((), TarState.modifyNode _ n _) = _
      rw [modifyNode_modifyNode]
      rfl
    rw [bind_ok blockSet]
    rfl

/-- A header whose name spells `cs` enters the node at `cs`. -/
theorem enterHeader_spec {head : Block} (offset : Int) {size : Nat} (h : Refines s root v)
    (spells : Spells head.1 cs) (short : cs.length ≤ 512) (nonempty : cs ≠ [])
    (sized : headerSize head = .ok size) :
    ∃ s', (enterHeader root head offset).run s =
        .ok (toInt32 (if size % 512 ≠ 0 then size / 512 + 1 else size / 512 : Nat), s') ∧
      Refines s' root (v.enter cs size
        (if typeflag head ≠ 53 then some (toUInt32 offset) else none)) := by
  obtain ⟨s₁, n, run, refines, reached, -⟩ := walk_spec spells (Nat.lt_succ_of_le short)
    none h (p := []) rfl
  rw [List.nil_append] at refines reached
  rw [if_neg nonempty] at run
  exact ⟨_, enterHeader_run offset run sized, refines.describe reached⟩

end Walk
end Infos.Fs
