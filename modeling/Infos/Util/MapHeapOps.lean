import Infos.Util.MapShape

/-!
# What the map's operations do to the shape

A rotation exchanges two ancestors of a position; rebalancing in memory follows
the one on trees.
-/
namespace Infos.Util.MapHeap
open Infos.Lib Function

section Runs
variable {κ α : Type} {s s' : MapState κ α} {p c : Ptr} {n m : Node κ α} {side : Side}

/-- The allocation and the count stay. -/
structure Kept (s s' : MapState κ α) : Prop where
  next : s'.next = s.next
  count : s'.count = s.count

theorem Kept.trans {s'' : MapState κ α} (h : Kept s s') (h' : Kept s' s'') : Kept s s'' :=
  ⟨h'.next.trans h.next, h'.count.trans h.count⟩

theorem getNode_run (h : s.nodes p = some n) : (getNode p).run s = .ok (n, s) := by
  rw [getNode, bind_ok (run_get_eq s), h]
  rfl

theorem parent_run (h : s.nodes p = some n) : (parent p).run s = .ok (n.parent, s) := by
  rw [parent, bind_ok (getNode_run h)]
  rfl

theorem grandparent_run {q : Ptr} (h : s.nodes p = some n) (up : n.parent = some q)
    (h' : s.nodes q = some m) : (grandparent p).run s = .ok (m.parent, s) := by
  rw [grandparent, bind_ok (parent_run h), up]
  exact parent_run h'

theorem modifyNode_run (h : s.nodes p = some n) (f : Node κ α → Node κ α) :
    (modifyNode p f).run s = .ok ((), { s with nodes := update s.nodes p (some (f n)) }) := by
  rw [modifyNode, bind_ok (getNode_run h)]
  rfl

theorem setChild_none_run (h : s.nodes p = some n) :
    (setChild side p none).run s =
      .ok ((), { s with nodes := update s.nodes p (some (n.withChild side none)) }) := by
  rw [setChild, bind_ok (modifyNode_run h _)]
  rfl

theorem setChild_some_run (h : s.nodes p = some n) (h' : s.nodes c = some m) (ne : c ≠ p) :
    (setChild side p (some c)).run s =
      .ok ((), { s with
        nodes := update (update s.nodes p (some (n.withChild side (some c)))) c
          (some { m with parent := some p }) }) := by
  rw [setChild, bind_ok (modifyNode_run h _)]
  exact modifyNode_run (by dsimp only; rw [update_of_ne ne, h']) _

end Runs

section Regions
variable {κ α : Type} {nodes : Ptr → Option (Node κ α)} {s : MapState κ α} {x y z : Shape κ α}
  {parent' child : Option Ptr} {up : List (Ancestor κ (Ptr × α))} {p : Ptr} {n : Node κ α}
  {a b : Ancestor κ (Ptr × α)} {side : Side}

theorem Holds.update (h : Holds nodes parent' x) (away : p ∉ addrs x) {o : Option (Node κ α)} :
    Holds (update nodes p o) parent' x :=
  h.frame fun _ mem => update_of_ne (ne_of_mem_of_not_mem mem away) _ _

theorem HoldsUp.update (h : HoldsUp nodes child up) (away : p ∉ addrsUp up)
    {o : Option (Node κ α)} : HoldsUp (update nodes p o) child up :=
  h.frame fun _ mem => update_of_ne (ne_of_mem_of_not_mem mem away) _ _

/-- `setChild` with a subtree: the node gets the child and the subtree the parent. -/
theorem setChild_adopt (h : s.nodes p = some n) (held : Holds s.nodes parent' z)
    (away : p ∉ addrs z) (distinct : (addrs z).Nodup) (side : Side) :
    ∃ s', (setChild side p (addr z)).run s = .ok ((), s') ∧
      s'.nodes p = some (n.withChild side (addr z)) ∧ Holds s'.nodes (some p) z ∧
      (∀ q, q ≠ p → addr z ≠ some q → s'.nodes q = s.nodes q) ∧ s'.root = s.root ∧ Kept s s' := by
  cases z with
  | null =>
      refine ⟨_, setChild_none_run h, update_self _ _ _, trivial, ?_, rfl, rfl, rfl⟩
      intro q ne _
      exact update_of_ne ne _ _
  | node c l k v r =>
      have ne : v.1 ≠ p := fun e => away (by rw [addrs_node]; simp [e])
      refine ⟨_, setChild_some_run h held.1 ne, ?_, ?_, ?_, rfl, rfl, rfl⟩
      · dsimp only
        rw [update_of_ne ne.symm, update_self]
        rfl
      · refine held.reparent distinct ?_ ?_
        · rintro q e
          cases e
          dsimp only
          rw [update_self, held.1]
          rfl
        · intro q mem other
          have notRoot : q ≠ v.1 := fun e => other (e ▸ rfl)
          have notP : q ≠ p := fun e => away (e ▸ mem)
          dsimp only
          rw [update_of_ne notRoot, update_of_ne notP]
      · intro q notP notRoot
        have notChild : q ≠ v.1 := fun e => notRoot (congrArg some e.symm)
        dsimp only
        rw [update_of_ne notChild, update_of_ne notP]

@[simp] theorem record_child {o : Option Ptr} : (record a o child).child a.side = child := by
  cases h : a.side <;> simp [record, Node.child, h]

@[simp] theorem record_child_other {o : Option Ptr} :
    (record a o child).child a.side.other = addr a.sibling := by
  cases h : a.side <;> simp [record, Node.child, h, Side.other]

@[simp] theorem record_withChild {o child' : Option Ptr} :
    (record a o child).withChild a.side child' = record a o child' := by
  cases h : a.side <;> simp [record, Node.withChild, h]

@[simp] theorem record_parent {o : Option Ptr} : (record a o child).parent = o := by
  cases h : a.side <;> simp [record, h]

@[simp] theorem record_colour {o : Option Ptr} : (record a o child).colour = a.colour := by
  cases h : a.side <;> simp [record, h]

/-- A write of the data of a node. -/
theorem Rep.modify {c c' : Colour} {l r : Shape κ α} {k : κ} {v : Ptr × α} {w : α}
    (h : Rep s (.node c l k v r) up) {f : Node κ α → Node κ α}
    (data : f ⟨k, v.2, c, upAddr up, addr l, addr r⟩ = ⟨k, w, c', upAddr up, addr l, addr r⟩) :
    ∃ s', (modifyNode v.1 f).run s = .ok ((), s') ∧ Rep s' (.node c' l k (v.1, w) r) up ∧
      Kept s s' := by
  have distinct := h.distinct
  rw [addrs_node] at distinct
  have apart : v.1 ∉ addrs l ∧ v.1 ∉ addrs r ∧ v.1 ∉ addrsUp up := by
    simp only [List.nodup_append, List.nodup_cons, List.mem_append, List.mem_cons] at distinct
    grind
  refine ⟨_, modifyNode_run h.here.1 f, ⟨h.root, ⟨?_, ?_, ?_⟩, ?_, ?_, ?_⟩, rfl, rfl⟩
  · rw [data]
    exact update_self _ _ _
  · exact h.here.2.1.update apart.1
  · exact h.here.2.2.update apart.2.1
  · exact h.above.update apart.2.2
  · rw [addrs_node]
    exact distinct
  · have allocated := h.allocated
    rw [addrs_node] at *
    exact allocated

end Regions

section Rotation

variable {κ α : Type} {s : MapState κ α} {x z : Shape κ α} {up : List (Ancestor κ (Ptr × α))}
  {a b : Ancestor κ (Ptr × α)}

theorem iAmLeft_run {g : Ancestor κ (Ptr × α)} {o : Option Ptr} {n : Node κ α} {p : Ptr}
    (node : s.nodes p = some n) (up : n.parent = some g.value.1)
    (above : s.nodes g.value.1 = some (record g o (some p))) (apart : p ∉ addrs g.sibling) :
    (iAmLeft p).run s = .ok (decide (g.side = .left), s) := by
  rw [iAmLeft, bind_ok (parent_run node), up]
  apply (bind_ok (getNode_run above)).trans
  cases side : g.side with
  | left =>
      simp only [record, side, run_pure_eq, BEq.rfl, decide_true]
  | right =>
      have other : (addr g.sibling == some p) = false :=
        beq_false_of_ne fun e => apart (addr_mem e)
      simp only [record, side, other, run_pure_eq, reduceCtorEq, decide_false]

/-- The subtree moves up to where its parent hangs. -/
theorem replaceBy_spec (h : Rep s (b.plug z) (a :: up)) :
    ∃ s', (replaceBy a.value.1 b.value.1).run s = .ok ((), s') ∧
      s'.root = topAddr (some b.value.1) up ∧ Holds s'.nodes (upAddr up) (b.plug z) ∧
      HoldsUp s'.nodes (some b.value.1) up ∧
      (∀ q, q ≠ b.value.1 → upAddr up ≠ some q → s'.nodes q = s.nodes q) ∧ Kept s s' := by
  have node := h.above.1
  have distinct := h.distinct
  cases up with
  | nil =>
      obtain ⟨here, record_b, sibling⟩ := holds_plug.mp h.here
      rw [((addrs_plug (a := b)).append_right _).nodup_iff] at distinct
      have apart : b.value.1 ∉ addrs z ∧ b.value.1 ∉ addrs b.sibling := by
        simp only [List.nodup_append, List.nodup_cons, List.mem_append, List.mem_cons] at distinct
        grind
      refine ⟨{ s with
        root := some b.value.1
        nodes := update s.nodes b.value.1 (some (record b none (addr z))) }, ?_, rfl, ?_, trivial,
        fun q ne _ => update_of_ne ne _ _, rfl, rfl⟩
      · rw [replaceBy, bind_ok (parent_run node), record_parent]
        apply (bind_ok (run_modify_eq _ s)).trans
        apply (modifyNode_run (s := { s with root := some b.value.1 }) record_b _).trans
        cases side : b.side <;> simp [record, side]
      · exact holds_plug.mpr ⟨here.update apart.1, update_self _ _ _, sibling.update apart.2⟩
  | cons g up =>
      have above := h.above.2.2.1
      have apart : a.value.1 ∉ addrs g.sibling ∧ g.value.1 ∉ addrs (b.plug z) ∧
          (addrs (b.plug z)).Nodup ∧ g.value.1 ∉ addrs g.sibling ∧ g.value.1 ∉ addrsUp up ∧
          b.value.1 ∉ addrs g.sibling ∧ b.value.1 ∉ addrsUp up := by
        have mem : b.value.1 ∈ addrs (b.plug z) := addr_mem addr_plug
        simp only [addrsUp, List.cons_append, List.nodup_append, List.nodup_cons, List.mem_append,
          List.mem_cons] at distinct
        grind
      obtain ⟨s', run, record_g, held, same, root, kept⟩ := setChild_adopt above h.here
        apart.2.1 apart.2.2.1 g.side
      rw [addr_plug] at run record_g same
      refine ⟨s', ?_, ?_, held, ⟨?_, ?_, ?_⟩, ?_, kept⟩
      · rw [replaceBy, bind_ok (parent_run node), record_parent]
        apply (bind_ok (iAmLeft_run node record_parent above apart.1)).trans
        cases side : g.side with
        | left =>
            rw [side] at run
            exact run
        | right =>
            rw [side] at run
            exact run
      · rw [root, h.root]
        rfl
      · rw [record_g, record_withChild]
      · refine h.above.2.2.2.1.frame fun q mem => same q ?_ ?_
        · exact ne_of_mem_of_not_mem mem apart.2.2.2.1
        · intro e
          cases e
          exact apart.2.2.2.2.2.1 mem
      · refine h.above.2.2.2.2.frame fun q mem => same q ?_ ?_
        · exact ne_of_mem_of_not_mem mem apart.2.2.2.2.1
        · intro e
          cases e
          exact apart.2.2.2.2.2.2 mem
      · intro q notB notG
        exact same q (fun e => notG (congrArg some e.symm)) fun e => notB (Option.some.inj e).symm

/-- A rotation exchanges two ancestors on opposite sides. -/
theorem rotate_spec (h : Rep s z (b :: a :: up)) (opposite : b.side = a.side.other) :
    ∃ s', (rotate a.side.other (some a.value.1)).run s = .ok ((), s') ∧ Rep s' z (a :: b :: up) ∧
      Kept s s' := by
  obtain ⟨s₁, run₁, root₁, held₁, above₁, same₁, kept₁⟩ := replaceBy_spec (rep_plug.mp h)
  have perm : (addrs z ++ addrsUp (a :: b :: up)).Perm (addrs z ++ addrsUp (b :: a :: up)) := by
    apply List.Perm.append_left _
    simp only [addrsUp, ← List.append_assoc]
    exact List.perm_append_comm.append_right _
  have distinct := perm.nodup_iff.mpr h.distinct
  have apart := distinct
  simp only [addrsUp, List.cons_append, List.nodup_append, List.nodup_cons, List.mem_append,
    List.mem_cons] at apart
  obtain ⟨held_z, record_b, held_b⟩ := holds_plug.mp held₁
  have notUp : upAddr up ≠ some a.value.1 ∧ ∀ q ∈ addrs a.sibling, upAddr up ≠ some q := by
    cases up with
    | nil => exact ⟨(Option.some_ne_none _).symm, fun _ _ => (Option.some_ne_none _).symm⟩
    | cons g up =>
        have mem : g.value.1 ∈ addrsUp (g :: up) := List.mem_cons_self
        refine ⟨fun e => ?_, fun q here e => ?_⟩
        · have same : g.value.1 = a.value.1 := Option.some.inj e
          grind
        · have same : g.value.1 = q := Option.some.inj e
          grind
  have record_a : s₁.nodes a.value.1 = some (record a (upAddr up) (some b.value.1)) := by
    rw [same₁ _ (by grind) notUp.1]
    have node := (rep_plug.mp h).above.1
    rwa [addr_plug] at node
  have held_a : Holds s₁.nodes (some a.value.1) a.sibling :=
    (rep_plug.mp h).above.2.1.frame fun q mem => same₁ q (by grind) (notUp.2 q mem)
  have rootA : ∀ q, addr z = some q → q ∈ addrs z := fun _ e => addr_mem e
  have rootB : ∀ q, addr (a.plug z) = some q → q = a.value.1 := by
    intro q e
    rw [addr_plug] at e
    exact (Option.some.inj e).symm
  obtain ⟨s₂, run₂, record_a₂, held_z₂, same₂, root₂, kept₂⟩ := setChild_adopt record_a held_z
    (by grind) (by grind) a.side
  have held_plug : Holds s₂.nodes (upAddr up) (a.plug z) := by
    refine holds_plug.mpr ⟨held_z₂, ?_, held_a.frame fun q mem => same₂ q (by grind) ?_⟩
    · rw [record_a₂, record_withChild]
    · exact fun e => by grind
  have record_b₂ : s₂.nodes b.value.1 = some (record b (upAddr up) (addr z)) := by
    rw [same₂ _ (by grind) fun e => by grind, record_b]
  have addrs_a := (addrs_plug (a := a) (x := z))
  have inA : ∀ q, q ∈ addrs (a.plug z) ↔ q ∈ addrs z ∨ q = a.value.1 ∨ q ∈ addrs a.sibling := by
    intro q
    rw [addrs_a.mem_iff, List.mem_append, List.mem_cons]
  obtain ⟨s₃, run₃, record_b₃, held_a₃, same₃, root₃, kept₃⟩ := setChild_adopt record_b₂ held_plug
    (by grind) (addrs_a.nodup_iff.mpr (by grind)) b.side
  refine ⟨s₃, ?_, rep_plug.mpr ⟨?_, held_a₃, ⟨?_, ?_, ?_⟩, ?_, ?_⟩,
    kept₁.trans (kept₂.trans kept₃)⟩
  · apply (bind_ok (getNode_run (rep_plug.mp h).above.1)).trans
    rw [Side.other_other, record_child, addr_plug]
    refine (bind_ok run₁).trans ((bind_ok (getNode_run record_b)).trans ?_)
    rw [← opposite, record_child]
    apply (bind_ok run₂).trans
    rwa [addr_plug] at run₃
  · rw [root₃, root₂, root₁, addr_plug]
    rfl
  · rw [record_b₃, record_withChild, addr_plug]
  · apply held_b.frame
    intro q mem
    rw [same₃ q (by grind) fun e => by grind, same₂ q (by grind) fun e => by grind]
  · apply above₁.frame
    intro q mem
    rw [same₃ q (by grind) fun e => by grind, same₂ q (by grind) fun e => by grind]
  · rw [(addrs_a.append_right _).nodup_iff, List.append_assoc]
    exact distinct
  · intro p mem
    rw [(addrs_a.append_right _).mem_iff, List.append_assoc] at mem
    rw [kept₃.next, kept₂.next, kept₁.next]
    exact h.allocated p (perm.mem_iff.mp mem)

end Rotation
end Infos.Util.MapHeap
