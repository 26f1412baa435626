import Mathlib.Algebra.Group.Int.Defs
import Mathlib.Algebra.Group.Nat.Defs
import Mathlib.Logic.Function.Basic

/-!
# Sections under one lock

Threads that take turns action by action, in any order, where the actions on what they share come
in sections and one lock is held for a section. The sections happen one behind the other, in the
order in which the lock is taken.
-/
namespace Infos.Lib.Sections
open Function

variable {ι α σ : Type}

/-- `phase t` is what is left of the section that `t` is in. -/
structure System (ι α σ : Type) where
  locked : Bool
  phase : ι → Option (List α)
  shared : σ

def perform (act : α → σ → σ) (body : List α) (x : σ) : σ := body.foldl (fun x a => act a x) x

def performAll (act : α → σ → σ) (sections : List (ι × List α)) (x : σ) : σ :=
  sections.foldl (fun x s => perform act s.2 x) x

theorem performAll_append (act : α → σ → σ) (sections : List (ι × List α)) (t : ι)
    (body : List α) (x : σ) :
    performAll act (sections ++ [(t, body)]) x = perform act body (performAll act sections x) := by
  rw [performAll, List.foldl_append]
  rfl

theorem perform_append (act : α → σ → σ) (past : List α) (a : α) (x : σ) :
    perform act (past ++ [a]) x = act a (perform act past x) := by
  rw [perform, List.foldl_append]
  rfl

/-- A step may take the lock, for a section. -/
inductive Step [DecidableEq ι] (act : α → σ → σ) :
    System ι α σ → List (ι × List α) → System ι α σ → Prop
  | take {s : System ι α σ} {t : ι} {body : List α} : s.locked = false → s.phase t = none →
      Step act s [(t, body)] { s with locked := true, phase := update s.phase t (some body) }
  | act {s : System ι α σ} {t : ι} {a : α} {rest : List α} : s.phase t = some (a :: rest) →
      Step act s [] { s with phase := update s.phase t (some rest), shared := act a s.shared }
  | release {s : System ι α σ} {t : ι} : s.phase t = some [] →
      Step act s [] { s with locked := false, phase := update s.phase t none }

/-- The sections `taken` were begun in the order of the lock, and this is what they did. -/
inductive Serial (act : α → σ → σ) (x : σ) (taken : List (ι × List α)) (s : System ι α σ) : Prop
  | free : s.locked = false → (∀ t, s.phase t = none) → s.shared = performAll act taken x →
      Serial act x taken s
  | held (t : ι) (past rest : List α) (done : List (ι × List α)) : s.locked = true →
      s.phase t = some rest → (∀ u, u ≠ t → s.phase u = none) →
      taken = done ++ [(t, past ++ rest)] →
      s.shared = perform act past (performAll act done x) → Serial act x taken s

namespace Serial
variable {act : α → σ → σ} {s s' : System ι α σ} {t : ι} {rest : List α} {x : σ}
  {taken more : List (ι × List α)}

theorem phase_none (h : Serial act x taken s) (unlocked : s.locked = false) (t : ι) :
    s.phase t = none := by
  cases h with
  | free _ none _ => exact none t
  | held t _ _ _ locked => exact nomatch unlocked.symm.trans locked

theorem holder [DecidableEq ι] (h : Serial act x taken s) (inside : s.phase t = some rest) :
    s.locked = true ∧ (∀ u, u ≠ t → s.phase u = none) ∧ ∃ past done,
      taken = done ++ [(t, past ++ rest)] ∧
        s.shared = perform act past (performAll act done x) := by
  cases h with
  | free _ none _ => exact nomatch (none t).symm.trans inside
  | held u past rest' done locked phase others begun shared =>
      by_cases same : t = u
      · subst same
        cases phase.symm.trans inside
        exact ⟨locked, others, past, done, begun, shared⟩
      · exact nomatch (others t same).symm.trans inside

theorem step [DecidableEq ι] (h : Serial act x taken s) (step : Step act s more s') :
    Serial act x (taken ++ more) s' := by
  cases step with
  | @take t body unlocked outside =>
      have none := h.phase_none unlocked
      refine .held t [] body taken rfl (update_self ..) ?_ rfl ?_
      · exact fun u ne => (update_of_ne ne ..).trans (none u)
      · cases h with
        | free _ _ shared => exact shared
        | held _ _ _ _ locked => exact nomatch unlocked.symm.trans locked
  | @act t a rest inside =>
      obtain ⟨locked, others, past, done, rfl, shared⟩ := h.holder inside
      refine .held t (past ++ [a]) rest done locked (update_self ..) ?_ ?_ ?_
      · exact fun u ne => (update_of_ne ne ..).trans (others u ne)
      · rw [List.append_nil, List.append_assoc]
        rfl
      · rw [perform_append, ← shared]
  | @release t inside =>
      obtain ⟨_, others, past, done, rfl, shared⟩ := h.holder inside
      refine .free rfl (fun u => ?_) ?_
      · by_cases same : u = t
        · subst same
          exact update_self ..
        · exact (update_of_ne same ..).trans (others u same)
      · rw [List.append_nil, List.append_nil, performAll_append]
        exact shared

end Serial
end Infos.Lib.Sections
