import Infos.Util.MapHeap
import Mathlib.Data.List.Nodup
import Mathlib.Data.List.Perm.Subperm
import Mathlib.Data.List.Range

/-!
# The tree that the nodes form

A shape is a tree that also knows where its nodes are. Memory is described
around a position: the nodes of the subtree there, and those above it.
-/
namespace Infos.Util.MapHeap
open Infos.Lib Function

abbrev Shape (κ α : Type) := MapNode κ (Ptr × α)

section Shapes
variable {κ α : Type}

def addr : Shape κ α → Option Ptr
  | .null => none
  | .node _ _ _ v _ => some v.1

def addrs (t : Shape κ α) : List Ptr := t.toList.map fun e => e.2.1

def upAddr : List (Ancestor κ (Ptr × α)) → Option Ptr
  | [] => none
  | a :: _ => some a.value.1

/-- The nodes beside and above a position. -/
def addrsUp : List (Ancestor κ (Ptr × α)) → List Ptr
  | [] => []
  | a :: up => a.value.1 :: addrs a.sibling ++ addrsUp up

/-- The root of the tree with a given node at the position. -/
def topAddr (child : Option Ptr) : List (Ancestor κ (Ptr × α)) → Option Ptr
  | [] => child
  | a :: up => topAddr (some a.value.1) up

/-- The nodes of a subtree are in memory, below `parent`. -/
def Holds (nodes : Ptr → Option (Node κ α)) : Option Ptr → Shape κ α → Prop
  | _, .null => True
  | parent, .node c l k v r =>
      nodes v.1 = some ⟨k, v.2, c, parent, addr l, addr r⟩ ∧
        Holds nodes (some v.1) l ∧ Holds nodes (some v.1) r

/-- The memory of an ancestor. -/
def record (a : Ancestor κ (Ptr × α)) (parent child : Option Ptr) : Node κ α :=
  match a.side with
  | .left => ⟨a.key, a.value.2, a.colour, parent, child, addr a.sibling⟩
  | .right => ⟨a.key, a.value.2, a.colour, parent, addr a.sibling, child⟩

def HoldsUp (nodes : Ptr → Option (Node κ α)) : Option Ptr → List (Ancestor κ (Ptr × α)) → Prop
  | _, [] => True
  | child, a :: up =>
      nodes a.value.1 = some (record a (upAddr up) child) ∧
        Holds nodes (some a.value.1) a.sibling ∧ HoldsUp nodes (some a.value.1) up

/-- The map is the tree with `x` at the position below `up`. -/
structure Rep (s : MapState κ α) (x : Shape κ α) (up : List (Ancestor κ (Ptr × α))) : Prop where
  root : s.root = topAddr (addr x) up
  here : Holds s.nodes (upAddr up) x
  above : HoldsUp s.nodes (addr x) up
  distinct : (addrs x ++ addrsUp up).Nodup
  allocated : ∀ p ∈ addrs x ++ addrsUp up, p < s.next

end Shapes

section Frame
variable {κ α : Type} {nodes nodes' : Ptr → Option (Node κ α)} {x : Shape κ α}
  {parent parent' child : Option Ptr} {up : List (Ancestor κ (Ptr × α))} {p : Ptr}

@[simp] theorem addrs_null : addrs (.null : Shape κ α) = [] := rfl

@[simp] theorem addrs_node {c : Colour} {l r : Shape κ α} {k : κ} {v : Ptr × α} :
    addrs (.node c l k v r) = addrs l ++ v.1 :: addrs r := by
  simp [addrs, MapNode.toList]

theorem addr_mem (h : addr x = some p) : p ∈ addrs x := by
  cases x with
  | null => cases h
  | node c l k v r =>
      cases h
      rw [addrs_node]
      exact List.mem_append_right _ List.mem_cons_self

theorem Holds.frame (h : Holds nodes parent x) (same : ∀ q ∈ addrs x, nodes' q = nodes q) :
    Holds nodes' parent x := by
  induction x generalizing parent with
  | null => trivial
  | node c l k v r ihl ihr =>
      simp only [addrs_node, List.mem_append, List.mem_cons] at same
      refine ⟨?_, ihl h.2.1 fun q mem => same q (.inl mem),
        ihr h.2.2 fun q mem => same q (.inr (.inr mem))⟩
      rw [same v.1 (.inr (.inl rfl))]
      exact h.1

theorem HoldsUp.frame (h : HoldsUp nodes child up) (same : ∀ q ∈ addrsUp up, nodes' q = nodes q) :
    HoldsUp nodes' child up := by
  induction up generalizing child with
  | nil => trivial
  | cons a up ih =>
      simp only [addrsUp, List.cons_append, List.mem_cons, List.mem_append] at same
      refine ⟨?_, h.2.1.frame fun q mem => same q (.inr (.inl mem)),
        ih h.2.2 fun q mem => same q (.inr (.inr mem))⟩
      rw [same a.value.1 (.inl rfl)]
      exact h.1

theorem Holds.reparent (h : Holds nodes parent x) (distinct : (addrs x).Nodup)
    (root : ∀ q, addr x = some q →
      nodes' q = (nodes q).map fun n => { n with parent := parent' })
    (same : ∀ q ∈ addrs x, addr x ≠ some q → nodes' q = nodes q) : Holds nodes' parent' x := by
  cases x with
  | null => trivial
  | node c l k v r =>
      simp only [addrs_node, List.mem_append, List.mem_cons] at same
      rw [addrs_node] at distinct
      obtain ⟨-, right, across⟩ := List.nodup_append.mp distinct
      refine ⟨?_, h.2.1.frame fun q mem => same q (.inl mem) ?_,
        h.2.2.frame fun q mem => same q (.inr (.inr mem)) ?_⟩
      · rw [root v.1 rfl, h.1]
        rfl
      · rintro e
        cases e
        exact across v.1 mem v.1 List.mem_cons_self rfl
      · rintro e
        cases e
        exact (List.nodup_cons.mp right).1 mem

end Frame

/-! ### Moving the position -/

section Focus
variable {κ α : Type} {s : MapState κ α} {x : Shape κ α} {a : Ancestor κ (Ptr × α)}
  {up : List (Ancestor κ (Ptr × α))}

@[simp] theorem addr_plug : addr (a.plug x) = some a.value.1 := by
  cases h : a.side <;> simp [Ancestor.plug, h, addr]

theorem addrs_plug : (addrs (a.plug x)).Perm (addrs x ++ a.value.1 :: addrs a.sibling) := by
  cases h : a.side with
  | left => simp [Ancestor.plug, h]
  | right =>
      simp only [Ancestor.plug, h, addrs_node]
      exact List.perm_append_comm.trans
        ((List.perm_append_singleton _ _).append_right _ |>.symm.trans (by simp))

theorem holds_plug {nodes : Ptr → Option (Node κ α)} {parent : Option Ptr} :
    Holds nodes parent (a.plug x) ↔ Holds nodes (some a.value.1) x ∧
      nodes a.value.1 = some (record a parent (addr x)) ∧
      Holds nodes (some a.value.1) a.sibling := by
  cases h : a.side with
  | left =>
      simp only [Ancestor.plug, record, h, Holds]
      exact and_left_comm
  | right =>
      simp only [Ancestor.plug, record, h, Holds]
      constructor
      · rintro ⟨n, l, r⟩
        exact ⟨r, n, l⟩
      · rintro ⟨r, n, l⟩
        exact ⟨n, l, r⟩

/-- The same memory, seen from a child or from its parent. -/
theorem rep_plug : Rep s x (a :: up) ↔ Rep s (a.plug x) up := by
  have perm : (addrs (a.plug x) ++ addrsUp up).Perm (addrs x ++ addrsUp (a :: up)) := by
    apply (addrs_plug.append_right _).trans
    rw [addrsUp, List.append_assoc, List.cons_append]
  constructor
  · intro h
    refine ⟨?_, holds_plug.mpr ⟨h.here, h.above.1, h.above.2.1⟩, ?_, perm.nodup_iff.mpr h.distinct,
      fun p mem => h.allocated p (perm.mem_iff.mp mem)⟩
    · rw [addr_plug]
      exact h.root
    · rw [addr_plug]
      exact h.above.2.2
  · intro h
    obtain ⟨here, node, sibling⟩ := holds_plug.mp h.here
    have root := h.root
    have above := h.above
    rw [addr_plug] at root above
    exact ⟨root, here, ⟨node, sibling, above⟩, perm.nodup_iff.mp h.distinct,
      fun p mem => h.allocated p (perm.mem_iff.mpr mem)⟩

end Focus
end Infos.Util.MapHeap
