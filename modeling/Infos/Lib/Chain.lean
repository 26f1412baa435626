import Mathlib.Logic.Function.Basic
import Mathlib.Data.List.Basic
import Mathlib.Data.List.Nodup

/-!
# NULL-terminated chains of cells reached through slots

A slot is the address of a pointer variable, either a list head or the `next`
field inside a cell. Code that walks a list with a pointer to a pointer moves
from slot to slot and writes through the slot it stops at.
-/
namespace Infos.Lib
open Function

section Chain
variable {σ α : Type} {link : α → σ} {mem mem' : σ → Option α} {s : σ} {xs ys : List α} {p : α}

/-- Following the pointers from slot `s` visits exactly these cells, then NULL. -/
def Chain (link : α → σ) (mem : σ → Option α) : σ → List α → Prop
  | s, [] => mem s = none
  | s, x :: xs => mem s = some x ∧ Chain link mem (link x) xs

/-- The slot that follows a prefix of the cells. -/
def slotAfter (link : α → σ) : σ → List α → σ
  | s, [] => s
  | _, x :: xs => slotAfter link (link x) xs

theorem slotAfter_mem (link : α → σ) (s : σ) (xs : List α) :
    slotAfter link s xs ∈ s :: xs.map link := by
  induction xs generalizing s with
  | nil => exact List.mem_cons_self
  | cons x xs ih => exact List.mem_cons_of_mem s (ih (link x))

/-- A pointer structure spells at most one list; in particular a chain is acyclic. -/
theorem Chain.unique (hx : Chain link mem s xs) (hy : Chain link mem s ys) : xs = ys := by
  induction xs generalizing s ys with
  | nil =>
      cases ys with
      | nil => rfl
      | cons y ys => cases hx.symm.trans hy.1
  | cons x xs ih =>
      cases ys with
      | nil => cases hx.1.symm.trans hy
      | cons y ys =>
          have same : x = y := Option.some.inj (hx.1.symm.trans hy.1)
          subst same
          rw [ih hx.2 hy.2]

theorem Chain.frame (h : Chain link mem s xs)
    (same : ∀ t ∈ s :: xs.map link, mem' t = mem t) : Chain link mem' s xs := by
  induction xs generalizing s with
  | nil => exact (same s List.mem_cons_self).trans h
  | cons x xs ih =>
      exact ⟨(same s List.mem_cons_self).trans h.1,
        ih h.2 fun t ht => same t (List.mem_cons_of_mem s ht)⟩

theorem Chain.drop (h : Chain link mem s (xs ++ ys)) :
    Chain link mem (slotAfter link s xs) ys := by
  induction xs generalizing s with
  | nil => exact h
  | cons x xs ih => exact ih h.2

theorem Chain.mem_slotAfter (h : Chain link mem s (xs ++ p :: ys)) :
    mem (slotAfter link s xs) = some p := h.drop.1

theorem Chain.slotAfter_none (h : Chain link mem s xs) :
    mem (slotAfter link s xs) = none := by
  rw [← List.append_nil xs] at h
  exact h.drop

variable [DecidableEq σ]

theorem Chain.insert (h : Chain link mem s (xs ++ ys))
    (distinct : (s :: link p :: (xs ++ ys).map link).Nodup) :
    Chain link (update (update mem (link p) (mem (slotAfter link s xs)))
      (slotAfter link s xs) (some p)) s (xs ++ p :: ys) := by
  induction xs generalizing s with
  | nil =>
      simp only [List.nil_append, slotAfter, List.nodup_cons, List.mem_cons] at *
      have head : ∀ t ∈ ys.map link, t ≠ s ∧ t ≠ link p := fun t ht =>
        ⟨fun e => distinct.1 (.inr (e ▸ ht)), fun e => distinct.2.1 (e ▸ ht)⟩
      refine ⟨update_self _ _ _, ?_⟩
      cases ys with
      | nil => simpa [Chain, Ne.symm (fun e => distinct.1 (.inl e))] using h
      | cons y ys =>
          refine ⟨?_, h.2.frame fun t ht => ?_⟩
          · rw [update_of_ne (fun e => distinct.1 (.inl e.symm)), update_self]
            exact h.1
          · rw [update_of_ne (head t ht).1, update_of_ne (head t ht).2]
  | cons x xs ih =>
      simp only [List.cons_append, List.map_cons, List.nodup_cons, List.mem_cons, not_or] at distinct
      obtain ⟨⟨sp, sx, sxs⟩, ⟨px, pxs⟩, xxs, rest⟩ := distinct
      have away : s ≠ slotAfter link (link x) xs := by
        intro e
        rcases List.mem_cons.mp (e ▸ slotAfter_mem link (link x) xs) with same | later
        · exact sx same
        · exact sxs (by rw [List.map_append]; exact List.mem_append_left _ later)
      refine ⟨?_, ih h.2 ?_⟩
      · rw [slotAfter, update_of_ne away, update_of_ne sp]
        exact h.1
      · simp only [List.nodup_cons, List.mem_cons, not_or]
        exact ⟨⟨Ne.symm px, xxs⟩, pxs, rest⟩

theorem Chain.remove (h : Chain link mem s (xs ++ p :: ys))
    (distinct : (s :: (xs ++ p :: ys).map link).Nodup) :
    Chain link (update (update mem (slotAfter link s xs) (mem (link p))) (link p) none)
      s (xs ++ ys) := by
  induction xs generalizing s with
  | nil =>
      simp only [List.nil_append, slotAfter, List.map_cons, List.nodup_cons, List.mem_cons,
        not_or] at *
      obtain ⟨⟨sp, sys⟩, pys, rest⟩ := distinct
      have away : ∀ t ∈ ys.map link, t ≠ s ∧ t ≠ link p := fun t ht =>
        ⟨fun e => sys (e ▸ ht), fun e => pys (e ▸ ht)⟩
      have tail := h.2
      cases ys with
      | nil =>
          change update (update mem s (mem (link p))) (link p) none s = none
          rw [update_of_ne sp, update_self]
          exact tail
      | cons y ys =>
          refine ⟨?_, tail.2.frame fun t ht => ?_⟩
          · rw [update_of_ne sp, update_self]
            exact tail.1
          · rw [update_of_ne (away t ht).2, update_of_ne (away t ht).1]
  | cons x xs ih =>
      simp only [List.cons_append, List.map_cons, List.nodup_cons, List.mem_cons, not_or] at distinct
      obtain ⟨⟨sx, sxs⟩, xxs, rest⟩ := distinct
      have away : s ≠ slotAfter link (link x) xs := by
        intro e
        rcases List.mem_cons.mp (e ▸ slotAfter_mem link (link x) xs) with same | later
        · exact sx same
        · exact sxs (by rw [List.map_append]; exact List.mem_append_left _ later)
      have sp : s ≠ link p := fun e => sxs (e ▸ List.mem_map_of_mem (by simp))
      refine ⟨?_, ih h.2 (List.nodup_cons.mpr ⟨xxs, rest⟩)⟩
      rw [slotAfter, update_of_ne sp, update_of_ne away]
      exact h.1

end Chain

end Infos.Lib
