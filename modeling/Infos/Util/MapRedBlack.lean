import Infos.Util.Map
import Mathlib.Data.Nat.Log
import Mathlib.Tactic.Ring

/-!
# The balance of the map

The rest of a tree fits a subtree of a given black height when only the colours
at the position itself can be wrong. Rebalancing moves such a position up.
-/
namespace Infos.Util
open Infos.Lib

section Balance
variable {κ α : Type}

/-- No red node has a red child, and all paths down pass `n` black nodes. -/
inductive RedBlack : MapNode κ α → Nat → Prop
  | null : RedBlack .null 0
  | red {l r : MapNode κ α} {k : κ} {v : α} {n : Nat} (blackL : l.red = false)
      (blackR : r.red = false) (left : RedBlack l n) (right : RedBlack r n) :
      RedBlack (.node .red l k v r) n
  | black {l r : MapNode κ α} {k : κ} {v : α} {n : Nat} (left : RedBlack l n)
      (right : RedBlack r n) : RedBlack (.node .black l k v r) (n + 1)

/-- The parent of a position is red. -/
def belowRed : List (Ancestor κ α) → Bool
  | [] => false
  | a :: _ => a.colour = .red

/-- What surrounds a position is balanced for a subtree of black height `n`. -/
def Fits : List (Ancestor κ α) → Nat → Prop
  | [], _ => True
  | a :: up, n => RedBlack a.sibling n ∧
      match a.colour with
      | .red => a.sibling.red = false ∧ belowRed up = false ∧ Fits up n
      | .black => Fits up (n + 1)

def MapNode.height : MapNode κ α → Nat
  | .null => 0
  | .node _ l _ _ r => max l.height r.height + 1

variable {x t : MapNode κ α} {a g : Ancestor κ α} {up : List (Ancestor κ α)} {n m : Nat}

theorem RedBlack.plug_black (h : RedBlack x n) (sibling : RedBlack a.sibling n)
    (black : a.colour = .black) : RedBlack (a.plug x) (n + 1) := by
  rw [Ancestor.plug, black]
  cases a.side with
  | left => exact .black h sibling
  | right => exact .black sibling h

theorem RedBlack.plug_red (h : RedBlack x n) (sibling : RedBlack a.sibling n)
    (red : a.colour = .red) (blackX : x.red = false) (blackS : a.sibling.red = false) :
    RedBlack (a.plug x) n := by
  rw [Ancestor.plug, red]
  cases a.side with
  | left => exact .red blackX blackS h sibling
  | right => exact .red blackS blackX sibling h

theorem Fits.plugAll (fits : Fits up n) (h : RedBlack x n)
    (below : belowRed up = true → x.red = false) : ∃ m, RedBlack (plugAll up x) m := by
  induction up generalizing x n with
  | nil => exact ⟨n, h⟩
  | cons a up ih =>
      rw [Fits] at fits
      obtain ⟨sibling, rest⟩ := fits
      cases colour : a.colour with
      | red =>
          rw [colour] at rest
          refine ih rest.2.2 (h.plug_red sibling colour (below ?_) rest.1) ?_
          · rw [belowRed, colour]
            rfl
          · rw [rest.2.1]
            nofun
      | black =>
          rw [colour] at rest
          refine ih rest (h.plug_black sibling colour) fun _ => ?_
          rw [Infos.Util.plug_red, colour]
          rfl

theorem RedBlack.blacken (h : RedBlack x n) (red : x.red = true) :
    RedBlack (x.withColour .black) (n + 1) := by
  cases h with
  | null => cases red
  | red _ _ left right => exact .black left right
  | black => cases red

theorem RedBlack.withColour_black (h : RedBlack x n) : ∃ m, RedBlack (x.withColour .black) m := by
  cases h with
  | null => exact ⟨0, .null⟩
  | red _ _ left right => exact ⟨n + 1, .black left right⟩
  | black left right => exact ⟨_, .black left right⟩

theorem plug_redBlack_red (h : RedBlack (a.plug x) n) (red : a.colour = .red) :
    RedBlack x n ∧ x.red = false ∧ RedBlack a.sibling n ∧ a.sibling.red = false := by
  rw [Ancestor.plug, red] at h
  cases side : a.side with
  | left =>
      rw [side] at h
      cases h with
      | red blackL blackR left right => exact ⟨left, blackL, right, blackR⟩
  | right =>
      rw [side] at h
      cases h with
      | red blackL blackR left right => exact ⟨right, blackR, left, blackL⟩

theorem raised_redBlack (h : RedBlack x n) (sibling : RedBlack a.sibling n)
    (uncle : RedBlack g.sibling n) (blackS : a.sibling.red = false)
    (blackU : g.sibling.red = false) :
    RedBlack ((raised a g).plug x) (n + 1) ∧ ((raised a g).plug x).red = false := by
  have lowered : RedBlack ({ g with colour := .red }.plug a.sibling) n :=
    sibling.plug_red uncle rfl blackS blackU
  exact ⟨h.plug_black lowered rfl, plug_red⟩

/-- The rotations below a black grandparent and beside a black uncle repair the violation. -/
theorem rotateUp_redBlack (h : RedBlack x n) (red : x.red = true) (parent : a.colour = .red)
    (sibling : RedBlack a.sibling n) (uncle : RedBlack g.sibling n)
    (blackS : a.sibling.red = false) (blackU : g.sibling.red = false) :
    ∃ t, rotateUp a g x = .ok t ∧ RedBlack t (n + 1) ∧ t.red = false := by
  by_cases outer : a.side = g.side
  · refine ⟨(raised a g).plug x, ?_, raised_redBlack h sibling uncle blackS blackU⟩
    rw [rotateUp, turnOut, if_pos outer]
    exact raised_plug outer
  · have node : x ≠ .null := fun e => by
      rw [e] at red
      cases red
    obtain ⟨b, z, side, rfl⟩ := exists_plug node a.side.other
    have redB : b.colour = .red := of_decide_eq_true (plug_red.symm.trans red)
    obtain ⟨inner, blackZ, siblingB, blackB⟩ := plug_redBlack_red h redB
    refine ⟨(raised b g).plug (a.plug z), ?_, raised_redBlack
      (inner.plug_red sibling parent blackZ blackS) siblingB uncle blackB blackU⟩
    rw [rotateUp, turnOut_inner outer side]
    exact raised_plug (side.trans (Side.other_of_ne outer))

theorem rebalanceInsert_redBlack (h : RedBlack x n) (red : x.red = true) (fits : Fits up n)
    (run : rebalanceInsert x up = .ok t) : ∃ m, RedBlack t m := by
  induction x, up using rebalanceInsert.induct generalizing n with
  | case1 x =>
      cases run
      exact h.withColour_black
  | case2 x parent redP =>
      rw [rebalanceInsert, if_pos redP] at run
      cases run
  | case3 x parent blackP =>
      rw [rebalanceInsert, if_neg blackP] at run
      cases run
      exact (h.plug_black fits.1 (Colour.black_of_ne blackP)).withColour_black
  | case4 x parent grand up redP uncle =>
      rename_i black sibling ih
      rw [rebalanceInsert, if_pos redP, if_pos uncle] at run
      rw [Fits, redP] at fits
      obtain ⟨siblingP, -, blackG, rest⟩ := fits
      rw [Fits] at rest
      have grandBlack : grand.colour = .black :=
        Colour.black_of_ne fun e => by simp [belowRed, e] at blackG
      rw [grandBlack] at rest
      refine ih (n := n + 1) ?_ ?_ rest.2 run
      · refine RedBlack.plug_red (h.plug_black siblingP rfl) (rest.1.blacken uncle) rfl ?_ ?_
        · exact plug_red
        · exact withColour_black_red
      · exact plug_red
  | case5 x parent grand up redP uncle =>
      rw [rebalanceInsert, if_pos redP, if_neg uncle] at run
      rw [Fits, redP] at fits
      obtain ⟨siblingP, blackS, blackG, rest⟩ := fits
      rw [Fits] at rest
      have grandBlack : grand.colour = .black :=
        Colour.black_of_ne fun e => by simp [belowRed, e] at blackG
      rw [grandBlack] at rest
      obtain ⟨turned, run', balanced, blackT⟩ := rotateUp_redBlack h red redP siblingP rest.1 blackS
        (Bool.eq_false_iff.mpr uncle)
      rw [run'] at run
      cases run
      obtain ⟨m, whole⟩ := rest.2.plugAll balanced fun _ => blackT
      exact whole.withColour_black
  | case6 x parent grand up blackP =>
      rw [rebalanceInsert, if_neg blackP] at run
      cases run
      obtain ⟨m, whole⟩ := fits.plugAll h fun e => absurd (of_decide_eq_true e) blackP
      exact whole.withColour_black

/-- Black height bounds the height, and the size bounds the black height. -/
theorem RedBlack.height_le (h : RedBlack t n) :
    t.height ≤ 2 * n + if t.red then 1 else 0 := by
  induction h with
  | null => exact Nat.zero_le _
  | @red l r k v n blackL blackR left right ihl ihr =>
      rw [blackL] at ihl
      rw [blackR] at ihr
      have top : (MapNode.node Colour.red l k v r).red = true := rfl
      rw [top, MapNode.height]
      simp only [Bool.false_eq_true, if_false, if_true] at ihl ihr ⊢
      omega
  | @black l r k v n left right ihl ihr =>
      have top : (MapNode.node Colour.black l k v r).red = false := rfl
      rw [top, MapNode.height]
      have one : ∀ b : Bool, (if b then 1 else 0) ≤ 1 := fun b => by cases b <;> decide
      have := one l.red
      have := one r.red
      simp only [Bool.false_eq_true, if_false]
      omega

theorem RedBlack.pow_le (h : RedBlack t n) : 2 ^ n ≤ t.toList.length + 1 := by
  induction h with
  | null => exact Nat.le_refl 1
  | red blackL blackR left right ihl ihr =>
      rw [MapNode.toList, List.length_append, List.length_cons]
      omega
  | black left right ihl ihr =>
      rw [MapNode.toList, List.length_append, List.length_cons, pow_succ]
      omega

theorem RedBlack.height_le_log (h : RedBlack t n) (black : t.red = false) :
    t.height ≤ 2 * Nat.log 2 (t.toList.length + 1) := by
  have height := h.height_le
  have few : n ≤ Nat.log 2 (t.toList.length + 1) := Nat.le_log_of_pow_le Nat.one_lt_two h.pow_le
  rw [black] at height
  simp only [Bool.false_eq_true, if_false] at height
  omega

theorem addAt_redBlack [LinearOrder κ] (up : List (Ancestor κ α)) {key : κ} {value : α}
    {new : Bool} (h : RedBlack x n) (fits : Fits up n) (below : belowRed up = true → x.red = false)
    (run : addAt key value x up = .ok (t, new)) : ∃ m, RedBlack t m := by
  induction x generalizing up n with
  | null =>
      cases h
      cases up with
      | nil =>
          cases run
          exact ⟨1, .black .null .null⟩
      | cons a up =>
          rw [addAt] at run
          cases balanced : rebalanceInsert (.node .red .null key value .null) (a :: up) with
          | error e =>
              rw [balanced] at run
              cases run
          | ok t' =>
              rw [balanced] at run
              cases run
              exact rebalanceInsert_redBlack (.red rfl rfl .null .null) rfl fits balanced
  | node c l k v r ihl ihr =>
      obtain ⟨n', left, right, fitsL, fitsR, blackL, blackR⟩ : ∃ n', RedBlack l n' ∧ RedBlack r n' ∧
          Fits (⟨.left, c, k, v, r⟩ :: up) n' ∧ Fits (⟨.right, c, k, v, l⟩ :: up) n' ∧
          (c = .red → l.red = false) ∧ (c = .red → r.red = false) := by
        cases h with
        | red blackL blackR left right =>
            have top : belowRed up = false :=
              Bool.eq_false_iff.mpr fun e => absurd (below e).symm Bool.false_ne_true
            exact ⟨n, left, right, ⟨right, blackR, top, fits⟩, ⟨left, blackL, top, fits⟩,
              fun _ => blackL, fun _ => blackR⟩
        | @black _ _ _ _ n left right =>
            exact ⟨n, left, right, ⟨right, fits⟩, ⟨left, fits⟩,
              fun e => absurd e.symm Colour.noConfusion, fun e => absurd e.symm Colour.noConfusion⟩
      rw [addAt] at run
      split_ifs at run
      · exact ihl _ left fitsL (fun e => blackL (of_decide_eq_true e)) run
      · exact ihr _ right fitsR (fun e => blackR (of_decide_eq_true e)) run
      · cases run
        have same : RedBlack (.node c l k value r) n := by
          cases h with
          | red blackL blackR left right => exact .red blackL blackR left right
          | black left right => exact .black left right
        exact fits.plugAll same below

end Balance
end Infos.Util
