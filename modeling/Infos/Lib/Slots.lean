import Mathlib.Data.List.Nodup
import Mathlib.Logic.Function.Basic

/-!
# Slots

Tables whose slots are taken in a fixed order and never given back.
-/
namespace Infos.Lib.Slots
open Function

variable {ι α : Type} {places : List ι} {table : ι → Option α} {i : ι}

/-- The first free slot. -/
def firstFree (places : List ι) (table : ι → Option α) : Option ι :=
  places.find? fun i => (table i).isNone

/-- How many slots are left. -/
def free (places : List ι) (table : ι → Option α) : Nat :=
  places.countP fun i => (table i).isNone

theorem firstFree_some (found : firstFree places table = some i) :
    i ∈ places ∧ table i = none := by
  have vacant := List.find?_some found
  exact ⟨List.mem_of_find?_eq_some found, Option.isNone_iff_eq_none.mp vacant⟩

theorem firstFree_none_iff : firstFree places table = none ↔ free places table = 0 := by
  rw [firstFree, List.find?_eq_none, free, List.countP_eq_zero]

theorem free_congr {table' : ι → Option α}
    (same : ∀ i ∈ places, (table' i).isNone = (table i).isNone) :
    free places table' = free places table := by
  refine List.countP_congr fun i inside => ?_
  rw [same i inside]

section Take
variable [DecidableEq ι]

theorem free_update_outside (outside : i ∉ places) (table : ι → Option α) (x : Option α) :
    free places (update table i x) = free places table := by
  refine free_congr fun j inside => ?_
  have apart : j ≠ i := fun same => outside (same ▸ inside)
  rw [update_of_ne apart]

theorem free_update (nodup : places.Nodup) (inside : i ∈ places) (vacant : table i = none)
    (x : α) : free places (update table i (some x)) + 1 = free places table := by
  induction places with
  | nil => cases inside
  | cons j places ih =>
      obtain ⟨away, nodup⟩ := List.nodup_cons.mp nodup
      rw [free, List.countP_cons, free, List.countP_cons]
      by_cases here : i = j
      · subst here
        have rest := free_update_outside away table (some x)
        rw [free, free] at rest
        rw [rest, update_self, vacant]
        simp
      · have rest := ih nodup ((List.mem_cons.mp inside).resolve_left here)
        rw [free, free] at rest
        rw [update_of_ne (Ne.symm here), ← rest]
        omega

end Take
end Infos.Lib.Slots
