import Mathlib.Order.BooleanAlgebra.Set

/-!
# Wake-up cascades

Waking a node wakes the sleeping nodes that wait for it, and so on. `Cascade`
says which nodes end up awake; the lemmas say how a depth-first wake-up
composes.
-/
namespace Infos.Lib
open Set

/-- The nodes woken by waking `roots`: `E u v` says that `v` waits for `u`. -/
inductive Cascade {V : Type} (E : V → V → Prop) (asleep roots : Set V) : V → Prop
  | root {x : V} : x ∈ roots → x ∈ asleep → Cascade E asleep roots x
  | next {u x : V} : Cascade E asleep roots u → E u x → x ∈ asleep → Cascade E asleep roots x

namespace Cascade
variable {V : Type} {E E' : V → V → Prop} {asleep asleep' roots roots' : Set V} {w x : V}

theorem was_asleep (h : Cascade E asleep roots x) : x ∈ asleep := by
  cases h with
  | root _ hx => exact hx
  | next _ _ hx => exact hx

theorem mono (edges : ∀ u v, v ∈ asleep → E u v → E' u v) (sleepers : asleep ⊆ asleep')
    (more : ∀ r ∈ asleep, r ∈ roots → r ∈ roots') (h : Cascade E asleep roots x) :
    Cascade E' asleep' roots' x := by
  induction h with
  | root hr hx => exact .root (more _ hx hr) (sleepers hx)
  | next _ he hx ih => exact .next ih (edges _ _ hx he) (sleepers hx)

theorem within (h : Cascade E asleep roots x)
    (inside : ∀ y, Cascade E asleep roots y → y ∈ asleep') : Cascade E asleep' roots x := by
  induction h with
  | root hr hx => exact .root hr (inside _ (.root hr hx))
  | next hu he hx ih => exact .next ih he (inside _ (.next hu he hx))

theorem empty : ¬ Cascade E asleep ∅ x := by
  intro h
  induction h with
  | root hr _ => exact hr
  | next _ _ _ ih => exact ih

theorem trans (start : ∀ r ∈ roots', r ∈ asleep → Cascade E asleep roots r)
    (h : Cascade E asleep roots' x) : Cascade E asleep roots x := by
  induction h with
  | root hr hx => exact start _ hr hx
  | next _ he hx ih => exact .next ih he hx

/-- Waking one node, then all that waited for it. -/
theorem visit (hw : w ∈ asleep) :
    Cascade E asleep {w} x ↔ x = w ∨ Cascade E (asleep \ {w}) {v | E w v} x := by
  constructor
  · intro h
    induction h with
    | root hr _ => exact .inl hr
    | next _ he hx ih =>
        rename_i u y _
        by_cases same : y = w
        · exact .inl same
        · cases ih with
          | inl first =>
              subst first
              exact .inr (.root he ⟨hx, same⟩)
          | inr inside => exact .inr (.next inside he ⟨hx, same⟩)
  · intro h
    have first : Cascade E asleep {w} w := .root rfl hw
    cases h with
    | inl same => exact same ▸ first
    | inr inside =>
        have reached : Cascade E asleep {v | E w v} x :=
          inside.mono (fun _ _ _ he => he) sdiff_subset (fun _ _ hr => hr)
        exact trans (fun r hr hx => .next first hr hx) reached

/-- What waits for `w` is reached without passing through `w`. -/
theorem detour (h : Cascade E asleep {v | E w v} x) (other : x ≠ w) :
    Cascade E (asleep \ {w}) {v | E w v} x := by
  induction h with
  | root hr hx => exact .root hr ⟨hx, other⟩
  | next _ he hx ih =>
      rename_i u y _
      by_cases same : u = w
      · subst same
        exact .root he ⟨hx, other⟩
      · exact .next (ih same) he ⟨hx, other⟩

/-- Waking a first group and then a second one, when the woken nodes no longer sleep and
nobody waits for them any more. -/
theorem seq : Cascade E asleep (roots ∪ roots') x ↔ Cascade E asleep roots x ∨
    Cascade (fun u v => E u v ∧ ¬ Cascade E asleep roots u)
      (asleep \ {v | Cascade E asleep roots v}) roots' x := by
  constructor
  · intro h
    by_cases done : Cascade E asleep roots x
    · exact .inl done
    · refine .inr ?_
      induction h with
      | root hr hx =>
          cases hr with
          | inl hr => exact absurd (.root hr hx) done
          | inr hr => exact .root hr ⟨hx, done⟩
      | next _ he hx ih =>
          rename_i u y _
          by_cases before : Cascade E asleep roots u
          · exact absurd (.next before he hx) done
          · exact .next (ih before) ⟨he, before⟩ ⟨hx, done⟩
  · intro h
    cases h with
    | inl h => exact h.mono (fun _ _ _ he => he) Subset.rfl (fun _ _ => .inl)
    | inr h => exact h.mono (fun _ _ _ he => he.1) sdiff_subset (fun _ _ => .inr)

end Cascade
end Infos.Lib
