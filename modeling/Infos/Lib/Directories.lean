import Mathlib.Logic.Function.Basic
import Mathlib.Tactic.SplitIfs

/-!
# Directories keyed by a hash

A system of directories to which objects are added under names, where only a
hash of the name is kept. What a lookup finds is compared with what was added.
-/
namespace Infos.Lib

/-- `add s d name obj s'` adds `obj` to the directory `d`; `other` steps add nothing. -/
structure Directories (σ κ ν α : Type) where
  start : σ → Prop
  add : σ → κ → ν → α → σ → Prop
  other : σ → σ → Prop
  lookup : σ → κ → ν → Option α

namespace Directories
variable {σ κ ν η α : Type} {D : Directories σ κ ν α} {adds : List (κ × ν × α)} {s : σ} {d : κ}
  {name : ν} {obj : α}

/-- The states that are reached, with what was added, the latest first. -/
inductive Reach (D : Directories σ κ ν α) : List (κ × ν × α) → σ → Prop
  | start {s : σ} : D.start s → Reach D [] s
  | add {adds : List (κ × ν × α)} {s s' : σ} {d : κ} {name : ν} {obj : α} :
      Reach D adds s → D.add s d name obj s' → Reach D ((d, name, obj) :: adds) s'
  | other {adds : List (κ × ν × α)} {s s' : σ} : Reach D adds s → D.other s s' → Reach D adds s'

/-- What is found under a name was added under just that name. -/
def Exact (D : Directories σ κ ν α) : Prop :=
  ∀ adds s, D.Reach adds s → ∀ d name obj, D.lookup s d name = some obj → (d, name, obj) ∈ adds

section Hash
variable [DecidableEq κ] [DecidableEq η] {hash : ν → η}

/-- The object added last under a name with the same hash. -/
def lastAdded (hash : ν → η) (adds : List (κ × ν × α)) (d : κ) (name : ν) : Option α :=
  (adds.find? fun e => e.1 = d ∧ hash e.2.1 = hash name).map fun e => e.2.2

theorem lastAdded_cons (d' : κ) (name' : ν) (obj : α) (adds : List (κ × ν × α)) :
    lastAdded hash ((d', name', obj) :: adds) d name =
      if d = d' ∧ hash name = hash name' then some obj else lastAdded hash adds d name := by
  unfold lastAdded
  rw [List.find?_cons]
  by_cases here : d = d' ∧ hash name = hash name'
  · rw [if_pos here, here.1, here.2]
    simp
  · have there : ¬ (d' = d ∧ hash name' = hash name) := fun e => here ⟨e.1.symm, e.2.symm⟩
    rw [if_neg here, decide_eq_false there]

theorem mem_of_lastAdded (found : lastAdded hash adds d name = some obj) :
    ∃ name', (d, name', obj) ∈ adds ∧ hash name' = hash name := by
  obtain ⟨⟨d', name', obj'⟩, at_e, rfl⟩ := Option.map_eq_some_iff.mp found
  have same := List.find?_some at_e
  simp only [decide_eq_true_eq] at same
  obtain ⟨rfl, same⟩ := same
  exact ⟨name', List.mem_of_find?_eq_some at_e, same⟩

/-- A lookup finds what was added last under a name with the same hash. -/
def ByHash (hash : ν → η) (D : Directories σ κ ν α) : Prop :=
  ∀ adds s, D.Reach adds s → ∀ d name, D.lookup s d name = lastAdded hash adds d name

theorem ByHash.exact_of_apart (h : D.ByHash hash) (reached : D.Reach adds s)
    (apart : ∀ e ∈ adds, hash e.2.1 = hash name → e.2.1 = name)
    (found : D.lookup s d name = some obj) : (d, name, obj) ∈ adds := by
  rw [h adds s reached d name] at found
  obtain ⟨name', mem, same⟩ := mem_of_lastAdded found
  have name_eq : name' = name := apart (d, name', obj) mem same
  exact name_eq ▸ mem

theorem byHash_of_table (table : σ → κ → η → Option α) (Inv : σ → Prop)
    (start : ∀ s, D.start s → Inv s ∧ ∀ d k, table s d k = none)
    (add : ∀ s d name obj s', Inv s → D.add s d name obj s' → Inv s' ∧ ∀ d' k,
      table s' d' k = if d' = d ∧ k = hash name then some obj else table s d' k)
    (other : ∀ s s', Inv s → D.other s s' → Inv s' ∧ table s' = table s)
    (lookup : ∀ s, Inv s → ∀ d name, D.lookup s d name = table s d (hash name)) :
    D.ByHash hash := by
  have kept : ∀ adds s, D.Reach adds s → Inv s ∧
      ∀ d name, table s d (hash name) = lastAdded hash adds d name := by
    intro adds s reached
    induction reached with
    | start h => exact ⟨(start _ h).1, fun d name => (start _ h).2 d (hash name)⟩
    | add _ step ih =>
        obtain ⟨inv, updated⟩ := add _ _ _ _ _ ih.1 step
        refine ⟨inv, fun d name => ?_⟩
        rw [updated, lastAdded_cons, ih.2]
    | other _ step ih =>
        obtain ⟨inv, same⟩ := other _ _ ih.1 step
        rw [same]
        exact ⟨inv, ih.2⟩
  intro adds s reached d name
  obtain ⟨inv, tables⟩ := kept adds s reached
  rw [lookup s inv, tables]

end Hash

theorem not_exact {s s' : σ} {d : κ} {name name' : ν} {obj : α} (empty : D.Reach [] s)
    (add : D.add s d name obj s') (found : D.lookup s' d name' = some obj) (ne : name' ≠ name) :
    ¬ D.Exact := by
  intro exact
  have mem := exact _ s' (empty.add add) d name' obj found
  exact ne (Prod.mk.inj (Prod.mk.inj (List.mem_singleton.mp mem)).2).1

end Directories
end Infos.Lib
