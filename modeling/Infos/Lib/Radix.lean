import Mathlib.Data.List.Basic
import Mathlib.Logic.Function.Basic

/-!
# Radix trees in flat memory

A table is a pointer, its entries are the words found through `slot`, and an
entry may point to a table of the next level. A tree is kept honest by one
fact: distinct entry paths occupy distinct slots.
-/
namespace Infos.Lib
open Function

section Descend
variable {τ ι A W : Type} (slot : τ → ι → A) (child : W → Option τ)

/-- The table that a path of entries leads to. -/
def descend (mem : A → W) : τ → List ι → Option τ
  | t, [] => some t
  | t, i :: is => (child (mem (slot t i))).bind fun u => descend mem u is

variable {slot child} {mem mem' : A → W} {root t : τ} {p q r : List ι} {i : ι}

theorem descend_append :
    descend slot child mem root (p ++ q) =
      (descend slot child mem root p).bind fun u => descend slot child mem u q := by
  induction p generalizing root with
  | nil => rfl
  | cons i p ih =>
      rw [List.cons_append, descend, descend, Option.bind_assoc]
      congr 1
      funext u
      exact ih

theorem descend_snoc (h : descend slot child mem root p = some t) :
    descend slot child mem root (p ++ [i]) = child (mem (slot t i)) := by
  rw [descend_append, h]
  cases e : child (mem (slot t i)) <;> simp [descend, e]

theorem descend_congr
    (same : ∀ q i r u, p = q ++ i :: r → descend slot child mem root q = some u →
      mem' (slot u i) = mem (slot u i)) :
    descend slot child mem' root p = descend slot child mem root p := by
  induction p generalizing root with
  | nil => rfl
  | cons i p ih =>
      have first := same [] i p root rfl rfl
      rw [descend, descend, first]
      cases e : child (mem (slot root i)) with
      | none => rfl
      | some v =>
          apply ih
          intro q j r u split reached
          apply same (i :: q) j r u (by rw [split, List.cons_append])
          rw [descend, e]
          exact reached

end Descend

/-- Distinct entry paths, among those in `P`, occupy distinct slots. -/
def RadixTree {τ ι A W : Type} (slot : τ → ι → A) (child : W → Option τ) (mem : A → W)
    (root : τ) (P : List ι → Prop) : Prop :=
  ∀ p q i j t u, P (p ++ [i]) → P (q ++ [j]) → descend slot child mem root p = some t →
    descend slot child mem root q = some u → slot t i = slot u j → p = q ∧ i = j

namespace RadixTree
variable {τ ι A W : Type} {slot : τ → ι → A} {child : W → Option τ} {mem mem' : A → W}
  {root t c : τ} {P : List ι → Prop} {p q : List ι} {i j : ι} {w : W}

theorem unshared (h : RadixTree slot child mem root P) (hp : P (p ++ [i])) (hq : P (q ++ [i]))
    (ht : descend slot child mem root p = some t) (hu : descend slot child mem root q = some t) :
    p = q :=
  (h p q i i t t hp hq ht hu rfl).1

theorem descend_frame (closed : ∀ p q, P (p ++ q) → P p)
    (same : ∀ q i u, P (q ++ [i]) → descend slot child mem root q = some u →
      mem' (slot u i) = mem (slot u i)) (hp : P p) :
    descend slot child mem' root p = descend slot child mem root p := by
  refine descend_congr fun q i r u split reached => same q i u ?_ reached
  apply closed (q ++ [i]) r
  rw [List.append_assoc, List.singleton_append, ← split]
  exact hp

theorem frame (h : RadixTree slot child mem root P) (closed : ∀ p q, P (p ++ q) → P p)
    (same : ∀ q i u, P (q ++ [i]) → descend slot child mem root q = some u →
      mem' (slot u i) = mem (slot u i)) : RadixTree slot child mem' root P := by
  intro p q i j t u hp hq ht hu
  rw [descend_frame closed same (closed p [i] hp)] at ht
  rw [descend_frame closed same (closed q [j] hq)] at hu
  exact h p q i j t u hp hq ht hu

section Writes
variable [DecidableEq A]

theorem descend_write_other (h : RadixTree slot child mem root P)
    (closed : ∀ p q, P (p ++ q) → P p) (hq : P (q ++ [j]))
    (ht : descend slot child mem root q = some t) (hp : P p)
    (other : ∀ r, p ≠ q ++ j :: r) :
    descend slot child (update mem (slot t j) w) root p = descend slot child mem root p := by
  refine descend_congr fun q' i r u split reached => update_of_ne ?_ _ _
  intro e
  have hp' : P (q' ++ [i]) := by
    apply closed (q' ++ [i]) r
    rw [List.append_assoc, List.singleton_append, ← split]
    exact hp
  obtain ⟨rfl, rfl⟩ := h q' q i j u t hp' hq reached ht e
  exact other r split

theorem descend_write_self (h : RadixTree slot child mem root P)
    (closed : ∀ p q, P (p ++ q) → P p) (hq : P (q ++ [j]))
    (ht : descend slot child mem root q = some t) :
    descend slot child (update mem (slot t j) w) root q = some t := by
  rw [← ht]
  apply h.descend_write_other closed hq ht (closed q [j] hq)
  intro r e
  have := congrArg List.length e
  simp at this

theorem descend_write_leaf (h : RadixTree slot child mem root P)
    (closed : ∀ p q, P (p ++ q) → P p) (hq : P (q ++ [j]))
    (ht : descend slot child mem root q = some t) (leaf : ∀ r, P (q ++ j :: r) → r = [])
    (hp : P (p ++ [i])) :
    descend slot child (update mem (slot t j) w) root p = descend slot child mem root p := by
  apply h.descend_write_other closed hq ht (closed p [i] hp)
  rintro r rfl
  have := leaf (r ++ [i]) (by simpa using hp)
  simp at this

theorem write_leaf (h : RadixTree slot child mem root P)
    (closed : ∀ p q, P (p ++ q) → P p) (hq : P (q ++ [j]))
    (ht : descend slot child mem root q = some t) (leaf : ∀ r, P (q ++ j :: r) → r = []) :
    RadixTree slot child (update mem (slot t j) w) root P := by
  intro p p' i i' u u' hp hp' hu hu'
  rw [h.descend_write_leaf closed hq ht leaf hp] at hu
  rw [h.descend_write_leaf closed hq ht leaf hp'] at hu'
  exact h p p' i i' u u' hp hp' hu hu'

/-- What linking an empty table `c` under a childless entry does to the paths. -/
theorem descend_link [DecidableEq ι] (h : RadixTree slot child mem root P)
    (closed : ∀ p q, P (p ++ q) → P p) (hq : P (q ++ [j]))
    (ht : descend slot child mem root q = some t) (none : child (mem (slot t j)) = none)
    (link : child w = some c)
    (empty : ∀ i, P (q ++ [j] ++ [i]) → slot c i ≠ slot t j ∧ child (mem (slot c i)) = Option.none)
    (hp : P p) :
    descend slot child (update mem (slot t j) w) root p =
      if p = q ++ [j] then some c else descend slot child mem root p := by
  by_cases through : ∃ r, p = q ++ j :: r
  · obtain ⟨r, rfl⟩ := through
    have self := h.descend_write_self (w := w) closed hq ht
    rw [descend_append, self, descend_append, ht]
    simp only [Option.bind_some, descend, update_self, link, none, Option.bind_none]
    cases r with
    | nil => rw [if_pos rfl]; rfl
    | cons i r =>
        obtain ⟨apart, childless⟩ := empty i (closed (q ++ [j] ++ [i]) r (by simpa using hp))
        rw [descend, update_of_ne apart, childless, if_neg (by simp)]
        rfl
  · have other : ∀ r, p ≠ q ++ j :: r := fun r e => through ⟨r, e⟩
    rw [if_neg (other []), h.descend_write_other closed hq ht hp other]

theorem link [DecidableEq ι] (h : RadixTree slot child mem root P)
    (closed : ∀ p q, P (p ++ q) → P p)
    (hq : P (q ++ [j])) (ht : descend slot child mem root q = some t)
    (none : child (mem (slot t j)) = none) (link : child w = some c)
    (empty : ∀ i, P (q ++ [j] ++ [i]) → slot c i ≠ slot t j ∧ child (mem (slot c i)) = Option.none)
    (inj : ∀ i i', slot c i = slot c i' → i = i')
    (fresh : ∀ p i u, P (p ++ [i]) → descend slot child mem root p = some u →
      ∀ i', P (q ++ [j] ++ [i']) → slot c i' ≠ slot u i) :
    RadixTree slot child (update mem (slot t j) w) root P := by
  intro p p' i i' u u' hp hp' hu hu' e
  rw [h.descend_link closed hq ht none link empty (closed p [i] hp)] at hu
  rw [h.descend_link closed hq ht none link empty (closed p' [i'] hp')] at hu'
  split_ifs at hu hu' with new new' new'
  · cases hu
    cases hu'
    exact ⟨new.trans new'.symm, inj i i' e⟩
  · cases hu
    exact absurd e (fresh p' i' u' hp' hu' i (new ▸ hp))
  · cases hu'
    exact absurd e.symm (fresh p i u hp hu i' (new' ▸ hp'))
  · exact h p p' i i' u u' hp hp' hu hu' e

end Writes
end RadixTree
end Infos.Lib
