import Infos.Util.MapHeapOps

/-!
# Rebalancing in memory

The loop of `rebalance_insert` moves two levels at a time; in memory it does
what `Util.rebalanceInsert` does to the tree around the position.
-/
namespace Infos.Util.MapHeap
open Infos.Lib Function

section Reading
variable {κ α : Type} {s : MapState κ α} {x : Shape κ α} {up : List (Ancestor κ (Ptr × α))}
  {a : Ancestor κ (Ptr × α)} {p : Ptr} {o : Option Ptr}

theorem deref_run (s : MapState κ α) (p : Ptr) : (deref (some p)).run s = .ok (p, s) := rfl

theorem Rep.node (h : Rep s x up) (at_x : addr x = some p) :
    ∃ n, s.nodes p = some n ∧ n.parent = upAddr up ∧ (n.colour == .red) = x.red := by
  cases x with
  | null => cases at_x
  | node c l k v r =>
      cases at_x
      refine ⟨_, h.here.1, rfl, ?_⟩
      cases c <;> rfl

theorem Rep.parent_run (h : Rep s x up) (at_x : addr x = some p) :
    (parent p).run s = .ok (upAddr up, s) := by
  obtain ⟨n, node, parent', -⟩ := h.node at_x
  rw [MapHeap.parent_run node, parent']

theorem Rep.grandparent_run (h : Rep s x (a :: up)) (at_x : addr x = some p) :
    (grandparent p).run s = .ok (upAddr up, s) := by
  rw [grandparent, bind_ok (h.parent_run at_x)]
  exact (rep_plug.mp h).parent_run addr_plug

theorem Rep.isRed_run (h : Rep s x up) : (isRed (addr x)).run s = .ok (x.red, s) := by
  cases at_x : addr x with
  | none =>
      cases x with
      | null => rfl
      | node => cases at_x
  | some p =>
      obtain ⟨n, node, -, colour⟩ := h.node at_x
      rw [isRed, bind_ok (getNode_run node), colour]
      rfl

/-- A node is on one side of its parent only. -/
theorem Rep.child_iff (h : Rep s x (a :: up)) (at_x : addr x = some p) (side : Side) :
    (record a o (addr x)).child side = some p ↔ a.side = side := by
  have apart : addr a.sibling ≠ some p := by
    intro e
    have distinct := h.distinct
    simp only [addrsUp, List.cons_append, List.nodup_append, List.mem_cons,
      List.mem_append] at distinct
    exact distinct.2.2 p (addr_mem at_x) p (.inr (.inl (addr_mem e))) rfl
  by_cases same : a.side = side
  · subst same
    simp [at_x]
  · have other : side = a.side.other := (Side.other_of_ne same).symm
    rw [other, record_child_other]
    simp [apart, Side.ne_other]

end Reading

section Colours
variable {κ α : Type} {s : MapState κ α} {x : Shape κ α} {up : List (Ancestor κ (Ptr × α))}
  {a g : Ancestor κ (Ptr × α)} {p : Ptr}

theorem Rep.setColour (h : Rep s x up) (at_x : addr x = some p) (c : Colour) :
    ∃ s', (setColour p c).run s = .ok ((), s') ∧ Rep s' (x.withColour c) up ∧ Kept s s' := by
  cases x with
  | null => cases at_x
  | node c' l k v r =>
      cases at_x
      exact h.modify (w := v.2) rfl

theorem Rep.setColour_parent (h : Rep s x (a :: up)) (c : Colour) :
    ∃ s', (MapHeap.setColour a.value.1 c).run s = .ok ((), s') ∧
      Rep s' x ({ a with colour := c } :: up) ∧ Kept s s' := by
  obtain ⟨s', run, rep, kept⟩ := (rep_plug.mp h).setColour addr_plug c
  rw [withColour_plug] at rep
  exact ⟨s', run, rep_plug.mpr rep, kept⟩

theorem Rep.setColour_grandparent (h : Rep s x (a :: g :: up)) (c : Colour) :
    ∃ s', (MapHeap.setColour g.value.1 c).run s = .ok ((), s') ∧
      Rep s' x (a :: { g with colour := c } :: up) ∧ Kept s s' := by
  obtain ⟨s', run, rep, kept⟩ := (rep_plug.mp h).setColour_parent c
  exact ⟨s', run, rep_plug.mpr rep, kept⟩

/-- The position moves to the other child of the parent. -/
theorem rep_across : Rep s a.sibling (across a x :: up) ↔ Rep s x (a :: up) := by
  rw [rep_plug, rep_plug, plug_across]

theorem Rep.setColour_uncle {q : Ptr} (h : Rep s x (a :: g :: up)) (uncle : addr g.sibling = some q)
    (c : Colour) :
    ∃ s', (MapHeap.setColour q c).run s = .ok ((), s') ∧
      Rep s' x (a :: { g with sibling := g.sibling.withColour c } :: up) ∧ Kept s s' := by
  obtain ⟨s', run, rep, kept⟩ := (rep_across.mpr (rep_plug.mp h)).setColour uncle c
  refine ⟨s', run, rep_plug.mpr (rep_across.mp ?_), kept⟩
  exact rep

end Colours

section Step
variable {κ α : Type} {s : MapState κ α} {x : Shape κ α} {up : List (Ancestor κ (Ptr × α))}
  {a g : Ancestor κ (Ptr × α)} {p : Ptr}

theorem recolour_spec (h : Rep s x (a :: g :: up)) (at_x : addr x = some p)
    (uncle : g.sibling.red = true) :
    ∃ s', (recolour p (addr g.sibling)).run s = .ok (g.value.1, s') ∧
      Rep s' x ({ a with colour := .black } ::
        { g with colour := .red, sibling := g.sibling.withColour .black } :: up) ∧ Kept s s' := by
  cases at_y : addr g.sibling with
  | none =>
      cases y : g.sibling with
      | null => rw [y] at uncle; cases uncle
      | node => rw [y] at at_y; cases at_y
  | some q =>
      obtain ⟨s₁, run₁, rep₁, kept₁⟩ := h.setColour_parent .black
      obtain ⟨s₂, run₂, rep₂, kept₂⟩ := rep₁.setColour_uncle at_y .black
      obtain ⟨s₃, run₃, rep₃, kept₃⟩ := rep₂.setColour_grandparent .red
      refine ⟨s₃, ?_, rep₃, kept₁.trans (kept₂.trans kept₃)⟩
      rw [recolour, bind_ok (h.parent_run at_x), upAddr, bind_ok (deref_run s _), bind_ok run₁,
        bind_ok (deref_run s₁ q), bind_ok run₂, bind_ok (rep₂.grandparent_run at_x), upAddr,
        bind_ok (deref_run s₂ _), bind_ok run₃, bind_ok (rep₃.grandparent_run at_x)]
      rfl

/-- The parent takes the place of the grandparent. -/
theorem raiseParent_spec (h : Rep s x (a :: g :: up)) (at_x : addr x = some p)
    (outer : a.side = g.side) :
    ∃ s', (raiseParent g.side p).run s = .ok ((), s') ∧
      Rep s' x (raised a g :: up) ∧ Kept s s' := by
  obtain ⟨s₁, run₁, rep₁, kept₁⟩ := h.setColour_parent .black
  obtain ⟨s₂, run₂, rep₂, kept₂⟩ := rep₁.setColour_grandparent .red
  have opposite : (across { a with colour := .black } x).side =
      ({ g with colour := .red } : Ancestor κ (Ptr × α)).side.other := congrArg Side.other outer
  obtain ⟨s₃, run₃, rep₃, kept₃⟩ := rotate_spec (rep_across.mpr rep₂) opposite
  refine ⟨s₃, ?_, ?_, kept₁.trans (kept₂.trans kept₃)⟩
  · rw [raiseParent, bind_ok (h.parent_run at_x), upAddr, bind_ok (deref_run s _), bind_ok run₁,
      bind_ok (rep₁.grandparent_run at_x), upAddr, bind_ok (deref_run s₁ _), bind_ok run₂,
      bind_ok (rep₂.grandparent_run at_x)]
    exact run₃
  · have rep := rep_across.mpr (rep_plug.mp rep₃)
    have twice : across (across { a with colour := .black } x)
        ({ g with colour := .red }.plug a.sibling) = raised a g := by
      simp [across, raised]
    rw [← twice]
    exact rep

theorem turnOutwards_spec (h : Rep s x (a :: g :: up)) (at_x : addr x = some p) :
    ∃ s' q b y, (turnOutwards g.side p).run s = .ok (q, s') ∧ Rep s' y (b :: g :: up) ∧
      addr y = some q ∧ b.side = g.side ∧ turnOut a g x = .ok (b.plug y) ∧ Kept s s' := by
  have node := h.above.1
  have inner := h.child_iff (o := upAddr (g :: up)) at_x g.side.other
  have start : (turnOutwards g.side p).run s =
      (if a.side = g.side.other then do
        rotate g.side (some a.value.1)
        pure a.value.1
      else pure p : Exec (MapState κ (α)) Ptr).run s := by
    rw [turnOutwards, bind_ok (h.parent_run at_x), upAddr, bind_ok (deref_run s _),
      bind_ok (getNode_run node)]
    by_cases turn : a.side = g.side.other
    · rw [if_pos turn, if_pos (inner.mpr turn), bind_ok (h.parent_run at_x), upAddr,
        bind_ok (deref_run s _)]
    · rw [if_neg turn, if_neg fun e => turn (inner.mp e)]
  by_cases outer : a.side = g.side
  · refine ⟨s, p, a, x, ?_, h, at_x, outer, if_pos outer, rfl, rfl⟩
    rw [start, if_neg fun e => g.side.ne_other (outer.symm.trans e)]
    rfl
  · have turn : g.side = a.side.other := (Side.other_of_ne outer).symm
    have node' : x ≠ .null := fun e => by
      rw [e] at at_x
      cases at_x
    obtain ⟨b, z, side, rfl⟩ := exists_plug node' a.side.other
    obtain ⟨s', run, rep, kept⟩ := rotate_spec (rep_plug.mpr h) side
    refine ⟨s', a.value.1, b, a.plug z, ?_, rep_plug.mp rep, addr_plug, side.trans turn.symm,
      turnOut_inner outer side, kept⟩
    rw [start, if_pos (by rw [turn, Side.other_other]), turn, bind_ok run]
    rfl

theorem rebalanceStep_red (h : Rep s x (a :: g :: up)) (at_x : addr x = some p)
    (uncle : g.sibling.red = true) :
    ∃ s', (rebalanceStep g.side p).run s = .ok (g.value.1, s') ∧
      Rep s' x ({ a with colour := .black } ::
        { g with colour := .red, sibling := g.sibling.withColour .black } :: up) ∧ Kept s s' := by
  obtain ⟨s', run, rep, kept⟩ := recolour_spec h at_x uncle
  refine ⟨s', ?_, rep, kept⟩
  have above := h.above.2.2.1
  rw [rebalanceStep, bind_ok (h.grandparent_run at_x), upAddr, bind_ok (deref_run s _),
    bind_ok (getNode_run above), record_child_other,
    bind_ok (rep_across.mpr (rep_plug.mp h)).isRed_run, if_pos uncle]
  exact run

theorem rebalanceStep_black (h : Rep s x (a :: g :: up)) (at_x : addr x = some p)
    (uncle : g.sibling.red = false) :
    ∃ s' q b y, (rebalanceStep g.side p).run s = .ok (q, s') ∧ Rep s' y (raised b g :: up) ∧
      addr y = some q ∧ rotateUp a g x = .ok ((raised b g).plug y) ∧ Kept s s' := by
  obtain ⟨s₁, q, b, y, run₁, rep₁, at_y, outer, turn, kept₁⟩ := turnOutwards_spec h at_x
  obtain ⟨s₂, run₂, rep₂, kept₂⟩ := raiseParent_spec rep₁ at_y outer
  refine ⟨s₂, q, b, y, ?_, rep₂, at_y, ?_, kept₁.trans kept₂⟩
  · have above := h.above.2.2.1
    rw [rebalanceStep, bind_ok (h.grandparent_run at_x), upAddr, bind_ok (deref_run s _),
      bind_ok (getNode_run above), record_child_other,
      bind_ok (rep_across.mpr (rep_plug.mp h)).isRed_run, if_neg (by rw [uncle]; nofun),
      bind_ok run₁, bind_ok run₂]
    rfl
  · rw [rotateUp, turn]
    exact raised_plug outer

end Step

section Loop
variable {κ α : Type} {s : MapState κ α} {x t : Shape κ α} {up : List (Ancestor κ (Ptr × α))}
  {a g : Ancestor κ (Ptr × α)} {p : Ptr} {fuel : Nat}

theorem rep_plugAll : Rep s x up ↔ Rep s (plugAll up x) [] := by
  induction up generalizing x with
  | nil => rfl
  | cons a up ih => rw [rep_plug, ih, plugAll]

/-- The loop stops at the root and below a black parent. -/
theorem rebalanceLoop_stop (h : Rep s x up) (at_x : addr x = some p)
    (stop : ∀ a ∈ up.head?, a.colour = .black) :
    (rebalanceLoop (fuel + 1) p).run s = .ok ((), s) := by
  rw [rebalanceLoop, bind_ok (h.parent_run at_x)]
  cases up with
  | nil => rfl
  | cons a up =>
      have black : (record a (upAddr up) (addr x)).colour ≠ .red := by
        rw [record_colour, stop a rfl]
        nofun
      apply (bind_ok (getNode_run h.above.1)).trans
      rw [if_neg black]
      rfl

theorem rebalanceLoop_next (h : Rep s x (a :: g :: up)) (at_x : addr x = some p)
    (red : a.colour = .red) :
    (rebalanceLoop (fuel + 1) p).run s =
      (rebalanceStep g.side p >>= rebalanceLoop fuel).run s := by
  have red' : (record a (upAddr (g :: up)) (addr x)).colour = .red := by rw [record_colour, red]
  rw [rebalanceLoop, bind_ok (h.parent_run at_x)]
  apply (bind_ok (getNode_run h.above.1)).trans
  rw [if_pos red', bind_ok (h.grandparent_run at_x), upAddr, bind_ok (deref_run s _),
    bind_ok (getNode_run h.above.2.2.1)]
  have left := (rep_plug.mp h).child_iff (o := upAddr up) addr_plug .left
  rw [addr_plug, Node.child] at left
  cases side : g.side with
  | left => rw [if_pos (left.mpr side)]
  | right =>
      have notLeft : g.side ≠ .left := side ▸ (Side.ne_other .left).symm
      rw [if_neg fun e => notLeft (left.mp e)]

/-- The loop does to the memory what `Util.rebalanceInsert` does to the tree. -/
theorem rebalanceLoop_spec (h : Rep s x up) (at_x : addr x = some p)
    (enough : up.length < fuel) (run : Util.rebalanceInsert x up = .ok t) :
    ∃ s' t', (rebalanceLoop fuel p).run s = .ok ((), s') ∧ Rep s' t' [] ∧
      t'.withColour .black = t ∧ Kept s s' := by
  obtain ⟨fuel, rfl⟩ := Nat.exists_eq_succ_of_ne_zero (Nat.ne_zero_of_lt enough)
  induction x, up using Util.rebalanceInsert.induct generalizing s p fuel with
  | case1 x =>
      cases run
      exact ⟨s, x, rebalanceLoop_stop h at_x (by simp), h, rfl, rfl, rfl⟩
  | case2 x parent red =>
      rw [Util.rebalanceInsert, if_pos red] at run
      cases run
  | case3 x parent black =>
      rw [Util.rebalanceInsert, if_neg black] at run
      cases run
      refine ⟨s, _, rebalanceLoop_stop h at_x ?_, rep_plug.mp h, rfl, rfl, rfl⟩
      rintro _ ⟨⟩
      exact Colour.black_of_ne black
  | case4 x parent grand up red uncle =>
      rename_i black sibling ih
      rw [Util.rebalanceInsert, if_pos red, if_pos uncle] at run
      obtain ⟨s₁, run₁, rep₁, kept₁⟩ := rebalanceStep_red h at_x uncle
      have lower : up.length < fuel := by
        simp only [List.length_cons] at enough
        omega
      obtain ⟨fuel, rfl⟩ := Nat.exists_eq_succ_of_ne_zero (Nat.ne_zero_of_lt lower)
      obtain ⟨s₂, t', run₂, rep₂, root, kept₂⟩ :=
        ih (rep_plug.mp (rep_plug.mp rep₁)) addr_plug run fuel lower
      refine ⟨s₂, t', ?_, rep₂, root, kept₁.trans kept₂⟩
      rw [rebalanceLoop_next h at_x red, bind_ok run₁]
      exact run₂
  | case5 x parent grand up red uncle =>
      rw [Util.rebalanceInsert, if_pos red, if_neg uncle] at run
      obtain ⟨s', q, b, y, run', rep, at_y, turned, kept⟩ :=
        rebalanceStep_black h at_x (Bool.eq_false_iff.mpr uncle)
      rw [turned] at run
      cases run
      obtain ⟨fuel, rfl⟩ : ∃ n, fuel = n + 1 := by
        simp only [List.length_cons] at enough
        exact ⟨fuel - 1, by omega⟩
      refine ⟨s', _, ?_, rep_plugAll.mp (rep_plug.mp rep), rfl, kept⟩
      rw [rebalanceLoop_next h at_x red, bind_ok run']
      apply rebalanceLoop_stop rep at_y
      rintro _ ⟨⟩
      rfl
  | case6 x parent grand up black =>
      rw [Util.rebalanceInsert, if_neg black] at run
      cases run
      refine ⟨s, _, rebalanceLoop_stop h at_x ?_, rep_plugAll.mp h, rfl, rfl, rfl⟩
      rintro _ ⟨⟩
      exact Colour.black_of_ne black

/-- The nodes above a position are among the allocated ones. -/
theorem Rep.depth_le (h : Rep s x up) : up.length ≤ s.next := by
  have depth : ∀ up : List (Ancestor κ (Ptr × α)), up.length ≤ (addrsUp up).length := by
    intro up
    induction up with
    | nil => exact Nat.le_refl 0
    | cons a up ih =>
        simp only [addrsUp, List.cons_append, List.length_cons, List.length_append]
        omega
  have within : addrsUp up ⊆ List.range s.next := fun p mem =>
    List.mem_range.mpr (h.allocated p (List.mem_append_right _ mem))
  have few := ((List.nodup_append.mp h.distinct).2.1.subperm within).length_le
  rw [List.length_range] at few
  exact (depth up).trans few

theorem addr_withColour (c : Colour) : addr (x.withColour c) = addr x := by
  cases x <;> rfl

theorem addr_of_ne_null (h : x ≠ .null) : ∃ p, addr x = some p := by
  cases x with
  | null => exact absurd rfl h
  | node c l k v r => exact ⟨v.1, rfl⟩

theorem rebalanceInsert_run (h : Rep s x up) (at_x : addr x = some p)
    (run : Util.rebalanceInsert (x.withColour .red) up = .ok t) (node : t ≠ .null) :
    ∃ s', (rebalanceInsert p).run s = .ok ((), s') ∧ Rep s' t [] ∧ Kept s s' := by
  obtain ⟨s₁, run₁, rep₁, kept₁⟩ := h.setColour at_x .red
  obtain ⟨s₂, t', run₂, rep₂, rfl, kept₂⟩ := rebalanceLoop_spec rep₁
    ((addr_withColour .red).trans at_x) (Nat.lt_succ_of_le rep₁.depth_le) run
  obtain ⟨q, at_root⟩ := addr_of_ne_null node
  rw [addr_withColour] at at_root
  obtain ⟨s₃, run₃, rep₃, kept₃⟩ := rep₂.setColour at_root .black
  refine ⟨s₃, ?_, rep₃, kept₁.trans (kept₂.trans kept₃)⟩
  have root : s₂.root = some q := rep₂.root.trans at_root
  rw [rebalanceInsert, bind_ok run₁, bind_ok (run_get_eq s₁), bind_ok run₂,
    bind_ok (run_get_eq s₂), root, bind_ok (deref_run s₂ q), run₃]

end Loop
end Infos.Util.MapHeap
