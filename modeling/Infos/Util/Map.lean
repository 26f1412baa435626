import Infos.Lib.Exec
import Mathlib.Logic.Function.Basic
import Mathlib.Order.Defs.LinearOrder

/-!
# The ordered map

A red-black tree whose nodes point to their parents. A position in the tree is
given by the subtree there and by its ancestors, the nearest first.
-/
namespace Infos.Util
open Infos.Lib

inductive Colour where
  | red
  | black
  deriving DecidableEq, Repr

theorem Colour.black_of_ne {c : Colour} (h : c ≠ .red) : c = .black := by
  cases c with
  | red => exact absurd rfl h
  | black => rfl

inductive MapNode (κ α : Type) where
  | null
  | node (colour : Colour) (left : MapNode κ α) (key : κ) (value : α) (right : MapNode κ α)

inductive Side where
  | left
  | right
  deriving DecidableEq, Repr

def Side.other : Side → Side
  | .left => .right
  | .right => .left

@[simp] theorem Side.other_other (side : Side) : side.other.other = side := by
  cases side <;> rfl

theorem Side.other_of_ne {s s' : Side} (h : s ≠ s') : s.other = s' := by
  cases s <;> cases s' <;> first | rfl | exact absurd rfl h

theorem Side.ne_other (side : Side) : side ≠ side.other := by
  cases side <;> nofun

/-- A node seen from one of its children: `side` says which, `sibling` is the other child. -/
structure Ancestor (κ α : Type) where
  side : Side
  colour : Colour
  key : κ
  value : α
  sibling : MapNode κ α

section Tree
variable {κ α : Type}

namespace MapNode

def red : MapNode κ α → Bool
  | .null => false
  | .node c _ _ _ _ => c = .red

def withColour (c : Colour) : MapNode κ α → MapNode κ α
  | .null => .null
  | .node _ l k v r => .node c l k v r

/-- The left child takes the place of the node; `assert(pivot)`. -/
def rotateRight : MapNode κ α → Except Fault (MapNode κ α)
  | .node c (.node c' l' k' v' r') k v r => .ok (.node c' l' k' v' (.node c r' k v r))
  | _ => .error .assertion

def rotateLeft : MapNode κ α → Except Fault (MapNode κ α)
  | .node c l k v (.node c' l' k' v' r') => .ok (.node c' (.node c l k v l') k' v' r')
  | _ => .error .assertion

def rotate : Side → MapNode κ α → Except Fault (MapNode κ α)
  | .left => rotateLeft
  | .right => rotateRight

end MapNode

def Ancestor.plug (a : Ancestor κ α) (child : MapNode κ α) : MapNode κ α :=
  match a.side with
  | .left => .node a.colour child a.key a.value a.sibling
  | .right => .node a.colour a.sibling a.key a.value child

/-- The ancestor as its other child sees it. -/
def across (a : Ancestor κ α) (x : MapNode κ α) : Ancestor κ α :=
  { a with side := a.side.other, sibling := x }

theorem plug_across {a : Ancestor κ α} {x : MapNode κ α} :
    (across a x).plug a.sibling = a.plug x := by
  cases h : a.side <;> simp [across, Ancestor.plug, h, Side.other]

/-- The whole tree around a position. -/
def plugAll : List (Ancestor κ α) → MapNode κ α → MapNode κ α
  | [], x => x
  | a :: up, x => plugAll up (a.plug x)

/-- An inner child takes its parent's place. -/
def turnOut (parent grand : Ancestor κ α) (x : MapNode κ α) : Except Fault (MapNode κ α) :=
  if parent.side = grand.side then .ok (parent.plug x) else (parent.plug x).rotate grand.side

/-- The rotations under a black uncle. -/
def rotateUp (parent grand : Ancestor κ α) (x : MapNode κ α) : Except Fault (MapNode κ α) := do
  let below ← turnOut parent grand x
  ({ grand with colour := .red }.plug (below.withColour .black)).rotate grand.side.other

/-- `x` is the node at the position. Both halves of the source's loop are here: the one for a
parent that is a left child, and its mirror image. -/
def rebalanceInsert : MapNode κ α → List (Ancestor κ α) → Except Fault (MapNode κ α)
  | x, [] => .ok (x.withColour .black)
  | x, [parent] =>
      if parent.colour = .red then .error .nullDeref
      else .ok ((parent.plug x).withColour .black)
  | x, parent :: grand :: up =>
      if parent.colour = .red then
        if grand.sibling.red then
          let black := { parent with colour := .black }.plug x
          let sibling := grand.sibling.withColour .black
          rebalanceInsert ({ grand with colour := .red, sibling }.plug black) up
        else do
          let turned ← rotateUp parent grand x
          .ok ((plugAll up turned).withColour .black)
      else .ok ((plugAll (parent :: grand :: up) x).withColour .black)

variable [LinearOrder κ]

/-- The descent of `add` from a position, and whether it adds a node. -/
def addAt (key : κ) (value : α) :
    MapNode κ α → List (Ancestor κ α) → Except Fault (MapNode κ α × Bool)
  | .null, [] => .ok (.node .black .null key value .null, true)
  | .null, parent :: up => do
      let t ← rebalanceInsert (.node .red .null key value .null) (parent :: up)
      .ok (t, true)
  | .node c l k v r, up =>
      if key < k then addAt key value l (⟨.left, c, k, v, r⟩ :: up)
      else if key > k then addAt key value r (⟨.right, c, k, v, l⟩ :: up)
      else .ok (plugAll up (.node c l k value r), false)

def MapNode.tryGetValue (key : κ) : MapNode κ α → Option α
  | .null => none
  | .node _ l k v r =>
      if key < k then l.tryGetValue key
      else if key > k then r.tryGetValue key
      else some v

end Tree

/-- `count` is an `unsigned int`. -/
structure Map (κ α : Type) where
  root : MapNode κ α
  count : Nat

namespace Map
variable {κ α : Type}

def empty : Map κ α := ⟨.null, 0⟩

variable [LinearOrder κ]

def add (m : Map κ α) (key : κ) (value : α) : Except Fault (Map κ α) := do
  let (root, new) ← addAt key value m.root []
  .ok ⟨root, if new then (m.count + 1) % 2 ^ 32 else m.count⟩

def tryGetValue (m : Map κ α) (key : κ) : Option α := m.root.tryGetValue key

end Map

/-! ### Rotations of a tree, seen from a position -/

section Turning
variable {κ α : Type} {x : MapNode κ α} {a b g : Ancestor κ α}

theorem withColour_plug (c : Colour) : (a.plug x).withColour c = { a with colour := c }.plug x := by
  cases side : a.side <;> simp [Ancestor.plug, side, MapNode.withColour]

/-- Every node is seen from its child on a given side. -/
theorem exists_plug (node : x ≠ .null) (side : Side) :
    ∃ (b : Ancestor κ α) (z : MapNode κ α), b.side = side ∧ x = b.plug z := by
  cases x with
  | null => exact absurd rfl node
  | node c l k v r =>
      cases side with
      | left => exact ⟨⟨.left, c, k, v, r⟩, l, rfl, rfl⟩
      | right => exact ⟨⟨.right, c, k, v, l⟩, r, rfl, rfl⟩

theorem rotate_plug_plug (z : MapNode κ α)
    (opposite : b.side = a.side.other) :
    (a.plug (b.plug z)).rotate a.side.other = .ok (b.plug (a.plug z)) := by
  cases side : a.side <;> rw [side] at opposite <;>
    simp [Ancestor.plug, side, opposite, Side.other, MapNode.rotate, MapNode.rotateLeft,
      MapNode.rotateRight]

theorem turnOut_inner {z : MapNode κ α} (inner : a.side ≠ g.side)
    (opposite : b.side = a.side.other) :
    turnOut a g (b.plug z) = .ok (b.plug (a.plug z)) := by
  rw [turnOut, if_neg inner, ← Side.other_of_ne inner, rotate_plug_plug z opposite]

/-- The parent after it has taken the place of the grandparent. -/
def raised (a g : Ancestor κ α) : Ancestor κ α :=
  { a with colour := .black, sibling := { g with colour := .red }.plug a.sibling }

theorem raised_plug (outer : a.side = g.side) :
    ({ g with colour := .red }.plug ((a.plug x).withColour .black)).rotate g.side.other =
      .ok ((raised a g).plug x) := by
  rw [withColour_plug]
  have opposite : (across { a with colour := .black } x).side =
      ({ g with colour := .red } : Ancestor κ α).side.other := congrArg Side.other outer
  have turned := rotate_plug_plug a.sibling opposite
  rw [plug_across] at turned
  apply turned.trans
  rw [← plug_across]
  simp [across, raised]

end Turning

/-! ### The tree as an ordered list -/

section Order
variable {κ α : Type}

def MapNode.toList : MapNode κ α → List (κ × α)
  | .null => []
  | .node _ l k v r => l.toList ++ (k, v) :: r.toList

/-- The entries left of a position. -/
def before : List (Ancestor κ α) → List (κ × α)
  | [] => []
  | a :: up =>
      match a.side with
      | .left => before up
      | .right => before up ++ (a.sibling.toList ++ [(a.key, a.value)])

/-- The entries right of a position. -/
def after : List (Ancestor κ α) → List (κ × α)
  | [] => []
  | a :: up =>
      match a.side with
      | .left => (a.key, a.value) :: a.sibling.toList ++ after up
      | .right => after up

variable {x t : MapNode κ α} {a : Ancestor κ α} {up : List (Ancestor κ α)} {c : Colour}

@[simp] theorem toList_withColour : (x.withColour c).toList = x.toList := by
  cases x <;> rfl

theorem toList_plug : before up ++ (a.plug x).toList ++ after up =
    before (a :: up) ++ x.toList ++ after (a :: up) := by
  cases h : a.side <;> simp [before, after, Ancestor.plug, h, MapNode.toList]

theorem toList_plugAll : (plugAll up x).toList = before up ++ x.toList ++ after up := by
  induction up generalizing x with
  | nil => simp [plugAll, before, after]
  | cons a up ih => rw [plugAll, ih, toList_plug]

/-- The child on the side of a rotation takes its parent's place. -/
theorem rotate_plug (h : x ≠ .null) :
    ∃ t, (a.plug x).rotate a.side.other = .ok t ∧ t ≠ .null ∧ t.toList = (a.plug x).toList := by
  cases x with
  | null => exact absurd rfl h
  | node c l k v r =>
      cases e : a.side with
      | left =>
          rw [Ancestor.plug, e]
          exact ⟨_, rfl, nofun, by simp [MapNode.toList]⟩
      | right =>
          rw [Ancestor.plug, e]
          exact ⟨_, rfl, nofun, by simp [MapNode.toList]⟩

/-- The node above everything, where there is one, is black. -/
def rootBlack : List (Ancestor κ α) → Prop
  | [] => True
  | [a] => a.colour = .black
  | _ :: b :: up => rootBlack (b :: up)

theorem rootBlack_tail (h : rootBlack (a :: up)) : rootBlack up := by
  cases up with
  | nil => trivial
  | cons b up => exact h

@[simp] theorem withColour_black_red : (x.withColour .black).red = false := by
  cases x <;> rfl

theorem plug_red : (a.plug x).red = decide (a.colour = .red) := by
  cases h : a.side <;> simp [Ancestor.plug, h, MapNode.red]

theorem plug_ne_null : a.plug x ≠ .null := by
  cases h : a.side <;> simp [Ancestor.plug, h]

theorem withColour_ne_null (h : x ≠ .null) : x.withColour c ≠ .null := by
  cases x with
  | null => exact absurd rfl h
  | node => nofun

theorem plugAll_red (top : rootBlack up) (h : up = [] → x.red = false) :
    (plugAll up x).red = false := by
  induction up generalizing x with
  | nil => exact h rfl
  | cons a up ih =>
      apply ih (rootBlack_tail top)
      intro e
      subst e
      have black : a.colour = .black := top
      rw [plug_red, black]
      rfl

theorem plug_toList_congr {b : Ancestor κ α} {y : MapNode κ α} (side : a.side = b.side)
    (key : a.key = b.key) (value : a.value = b.value)
    (sibling : a.sibling.toList = b.sibling.toList) (child : x.toList = y.toList) :
    (a.plug x).toList = (b.plug y).toList := by
  cases h : b.side <;>
    simp [Ancestor.plug, MapNode.toList, side, key, value, sibling, child, h]

theorem turnOut_spec (parent grand : Ancestor κ α) (node : x ≠ .null) :
    ∃ t, turnOut parent grand x = .ok t ∧ t ≠ .null ∧ t.toList = (parent.plug x).toList := by
  unfold turnOut
  by_cases outer : parent.side = grand.side
  · exact ⟨_, if_pos outer, plug_ne_null, rfl⟩
  · rw [if_neg outer, ← Side.other_of_ne outer]
    exact rotate_plug node

theorem rotateUp_spec (parent grand : Ancestor κ α) (node : x ≠ .null) :
    ∃ t, rotateUp parent grand x = .ok t ∧ t.toList = (grand.plug (parent.plug x)).toList := by
  obtain ⟨below, run, node', list⟩ := turnOut_spec parent grand node
  obtain ⟨t, run', -, list'⟩ := rotate_plug (a := { grand with colour := .red })
    (withColour_ne_null (c := .black) node')
  refine ⟨t, by rw [rotateUp, run]; exact run', ?_⟩
  rw [list']
  exact plug_toList_congr rfl rfl rfl rfl (toList_withColour.trans list)

/-- Rebalancing finishes, paints the root black and keeps the entries in their order. -/
theorem rebalanceInsert_spec (node : x ≠ .null) (top : rootBlack up) :
    ∃ t, rebalanceInsert x up = .ok t ∧ t.red = false ∧
      t.toList = before up ++ x.toList ++ after up := by
  induction x, up using rebalanceInsert.induct with
  | case1 x =>
      exact ⟨_, rfl, withColour_black_red, by simp [before, after]⟩
  | case2 x parent red =>
      have black : parent.colour = .black := top
      rw [black] at red
      cases red
  | case3 x parent black =>
      refine ⟨_, by rw [rebalanceInsert, if_neg black], withColour_black_red, ?_⟩
      rw [toList_withColour, ← toList_plug]
      simp [before, after]
  | case4 x parent grand up red uncle black sibling ih =>
      obtain ⟨t, run, blackRoot, list⟩ := ih plug_ne_null (rootBlack_tail (rootBlack_tail top))
      refine ⟨t, ?_, blackRoot, ?_⟩
      · rw [rebalanceInsert, if_pos red, if_pos uncle]
        exact run
      · rw [list, ← toList_plug, ← toList_plug]
        congr 2
        exact plug_toList_congr rfl rfl rfl toList_withColour (plug_toList_congr rfl rfl rfl rfl rfl)
  | case5 x parent grand up red uncle =>
      obtain ⟨t, run, list⟩ := rotateUp_spec parent grand node
      refine ⟨(plugAll up t).withColour .black, ?_, withColour_black_red, ?_⟩
      · rw [rebalanceInsert, if_pos red, if_neg uncle, run]
        rfl
      · rw [toList_withColour, toList_plugAll, list, ← toList_plug, ← toList_plug]
  | case6 x parent grand up black =>
      refine ⟨_, by rw [rebalanceInsert, if_neg black], withColour_black_red, ?_⟩
      rw [toList_withColour, toList_plugAll]

section Keys
variable [LinearOrder κ]

/-- `entries` with the entry of `key` replaced, or added where it belongs. -/
def Inserted (key : κ) (value : α) (entries entries' : List (κ × α)) : Prop :=
  ∃ l r, (∀ e ∈ l, e.1 < key) ∧ (∀ e ∈ r, key < e.1) ∧ entries' = l ++ (key, value) :: r ∧
    (entries = l ++ r ∨ ∃ old, entries = l ++ (key, old) :: r)

def Sorted (entries : List (κ × α)) : Prop := entries.Pairwise (·.1 < ·.1)

variable {key : κ} {value : α} {entries entries' l r : List (κ × α)}

theorem Inserted.extend (h : Inserted key value entries entries') (left : ∀ e ∈ l, e.1 < key)
    (right : ∀ e ∈ r, key < e.1) :
    Inserted key value (l ++ entries ++ r) (l ++ entries' ++ r) := by
  obtain ⟨l', r', left', right', rfl, old⟩ := h
  refine ⟨l ++ l', r' ++ r, ?_, ?_, by simp, ?_⟩
  · intro e he
    exact (List.mem_append.mp he).elim (left e) (left' e)
  · intro e he
    exact (List.mem_append.mp he).elim (right' e) (right e)
  · rcases old with rfl | ⟨old, rfl⟩
    · exact .inl (by simp)
    · exact .inr ⟨old, by simp⟩

theorem Inserted.sorted (h : Inserted key value entries entries') (sorted : Sorted entries) :
    Sorted entries' := by
  obtain ⟨l, r, left, right, rfl, old⟩ := h
  have both : Sorted (l ++ r) := by
    rcases old with rfl | ⟨old, rfl⟩
    · exact sorted
    · exact List.Pairwise.sublist ((List.Sublist.refl l).append (List.sublist_cons_self _ r)) sorted
  obtain ⟨sortedL, sortedR, across⟩ := List.pairwise_append.mp both
  refine List.pairwise_append.mpr ⟨sortedL, List.pairwise_cons.mpr ⟨right, sortedR⟩, ?_⟩
  intro a ha b hb
  rcases List.mem_cons.mp hb with rfl | hb
  · exact left a ha
  · exact across a ha b hb

theorem Inserted.mem_iff (h : Inserted key value entries entries') {k : κ} {v : α} :
    (k, v) ∈ entries' ↔ if k = key then v = value else (k, v) ∈ entries := by
  obtain ⟨l, r, left, right, rfl, old⟩ := h
  have apart : k = key → (k, v) ∉ l ∧ (k, v) ∉ r := by
    rintro rfl
    exact ⟨fun h => (left _ h).false, fun h => (right _ h).false⟩
  split_ifs with same
  · have := apart same
    subst same
    simp [this.1, this.2]
  · rcases old with rfl | ⟨old, rfl⟩ <;> simp [same]

theorem MapNode.tryGetValue_iff {v : α} (sorted : Sorted x.toList) :
    x.tryGetValue key = some v ↔ (key, v) ∈ x.toList := by
  induction x with
  | null => simp [MapNode.tryGetValue, MapNode.toList]
  | node c l k w r ihl ihr =>
      obtain ⟨sortedL, right, across⟩ := List.pairwise_append.mp sorted
      obtain ⟨above, sortedR⟩ := List.pairwise_cons.mp right
      have below : ∀ e ∈ l.toList, e.1 < k := fun e he => across e he (k, w) List.mem_cons_self
      have notL : k ≤ key → (key, v) ∉ l.toList := fun h m => (below _ m).not_ge h
      have notR : key ≤ k → (key, v) ∉ r.toList := fun h m => (above _ m).not_ge h
      rw [MapNode.tryGetValue, MapNode.toList, List.mem_append, List.mem_cons]
      rcases lt_trichotomy key k with lt | rfl | gt
      · rw [if_pos lt, ihl sortedL]
        simp [lt.ne, notR lt.le]
      · rw [if_neg (lt_irrefl key), if_neg (lt_irrefl key)]
        simp [notL, notR, eq_comm]
      · rw [if_neg gt.not_gt, if_pos gt, ihr sortedR]
        simp [gt.ne', notL gt.le]

/-- The descent adds the entry where it belongs and leaves the rest. -/
theorem addAt_spec (key : κ) (value : α) (up : List (Ancestor κ α)) (sorted : Sorted x.toList)
    (top : rootBlack up) (root : up = [] → x.red = false) :
    ∃ t new mid, addAt key value x up = .ok (t, new) ∧ t.red = false ∧
      t.toList = before up ++ mid ++ after up ∧ Inserted key value x.toList mid := by
  induction x generalizing up with
  | null =>
      have inserted : Inserted key value [] [(key, value)] :=
        ⟨[], [], by simp, by simp, rfl, .inl rfl⟩
      cases up with
      | nil => exact ⟨_, _, _, rfl, rfl, by simp [MapNode.toList, before, after], inserted⟩
      | cons parent up =>
          obtain ⟨t, run, black, list⟩ := rebalanceInsert_spec
            (x := .node .red .null key value .null) nofun top
          exact ⟨t, true, _, by rw [addAt, run]; rfl, black, list, inserted⟩
  | node c l k v r ihl ihr =>
      obtain ⟨sortedL, right, across⟩ := List.pairwise_append.mp sorted
      obtain ⟨above, sortedR⟩ := List.pairwise_cons.mp right
      have below : ∀ e ∈ l.toList, e.1 < k := fun e he => across e he (k, v) List.mem_cons_self
      have top' : ∀ side sibling, rootBlack (⟨side, c, k, v, sibling⟩ :: up) := by
        intro side sibling
        cases up with
        | nil =>
            have black := root rfl
            cases c with
            | red => cases black
            | black => rfl
        | cons => exact top
      rw [addAt]
      rcases lt_trichotomy key k with lt | rfl | gt
      · obtain ⟨t, new, mid, run, black, list, inserted⟩ := ihl _ sortedL (top' .left r) nofun
        refine ⟨t, new, mid ++ (k, v) :: r.toList, by rw [if_pos lt, run], black, ?_, ?_⟩
        · simpa [before, after] using list
        · apply inserted.extend (l := []) nofun
          intro e he
          rcases List.mem_cons.mp he with rfl | he
          · exact lt
          · exact lt.trans (above e he)
      · refine ⟨plugAll up (.node c l key value r), false, l.toList ++ (key, value) :: r.toList,
          ?_, plugAll_red top root, toList_plugAll, _, _, below, above, rfl, .inr ⟨v, rfl⟩⟩
        rw [if_neg (lt_irrefl key), if_neg (lt_irrefl key)]
      · obtain ⟨t, new, mid, run, black, list, inserted⟩ := ihr _ sortedR (top' .right l) nofun
        refine ⟨t, new, l.toList ++ (k, v) :: mid, ?_, black, ?_, ?_⟩
        · rw [if_neg gt.not_gt, if_pos gt, run]
        · simpa [before, after] using list
        · have := inserted.extend (l := l.toList ++ [(k, v)]) (r := []) ?_ nofun
          · simpa [MapNode.toList] using this
          · intro e he
            rcases List.mem_append.mp he with he | he
            · exact (below e he).trans gt
            · cases List.mem_singleton.mp he
              exact gt

/-- The flag of `addAt` says whether there is one more entry. -/
theorem addAt_length (up : List (Ancestor κ α)) {new : Bool} (top : rootBlack up)
    (root : up = [] → x.red = false)
    (run : addAt key value x up = .ok (t, new)) :
    t.toList.length = (before up).length + x.toList.length + (after up).length +
      if new then 1 else 0 := by
  induction x generalizing up with
  | null =>
      cases up with
      | nil =>
          cases run
          rfl
      | cons parent up =>
          obtain ⟨t', balanced, -, list⟩ := rebalanceInsert_spec
            (x := .node .red .null key value .null) nofun top
          rw [addAt, balanced] at run
          cases run
          simp [list, MapNode.toList]
          omega
  | node c l k v r ihl ihr =>
      have top' : ∀ side sibling, rootBlack (⟨side, c, k, v, sibling⟩ :: up) := by
        intro side sibling
        cases up with
        | nil => exact Colour.black_of_ne (of_decide_eq_false (root rfl))
        | cons => exact top
      rw [addAt] at run
      split_ifs at run
      · rw [ihl _ (top' .left r) nofun run]
        simp [before, after, MapNode.toList]
        omega
      · rw [ihr _ (top' .right l) nofun run]
        simp [before, after, MapNode.toList]
        omega
      · cases run
        rw [toList_plugAll]
        simp [MapNode.toList]
        omega

/-- A search tree with a black root. -/
structure Map.Sound (m : Map κ α) : Prop where
  sorted : Sorted m.root.toList
  black : m.root.red = false

theorem Map.empty_sound : (Map.empty : Map κ α).Sound := ⟨List.Pairwise.nil, rfl⟩

@[simp] theorem Map.empty_tryGetValue : (Map.empty : Map κ α).tryGetValue key = none := rfl

/-- Adding never faults and changes the value of one key. -/
theorem Map.add_spec {m : Map κ α} (key : κ) (value : α) (sound : m.Sound) :
    ∃ m', m.add key value = .ok m' ∧ m'.Sound ∧
      m'.tryGetValue = Function.update m.tryGetValue key (some value) := by
  obtain ⟨t, new, mid, run, black, list, inserted⟩ :=
    addAt_spec key value [] sound.sorted trivial fun _ => sound.black
  rw [before, after, List.append_nil, List.nil_append] at list
  rw [← list] at inserted
  have sorted := inserted.sorted sound.sorted
  refine ⟨_, by rw [Map.add, run]; rfl, ⟨sorted, black⟩, ?_⟩
  funext k
  apply Option.ext
  intro v
  rw [Map.tryGetValue, MapNode.tryGetValue_iff sorted, inserted.mem_iff,
    Function.update_apply]
  split_ifs with same
  · rw [Option.some_inj, eq_comm]
  · rw [Map.tryGetValue, MapNode.tryGetValue_iff sound.sorted]

end Keys
end Order
end Infos.Util
