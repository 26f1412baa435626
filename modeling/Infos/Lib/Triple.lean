import Infos.Lib.Exec

/-!
# Pre- and postconditions for faulting executions

Partial correctness: a triple speaks of the runs that return. `zoom` runs a
component's program on its part of a larger state.
-/
namespace Infos.Lib

/-- From a state with `P`, every run of `x` that returns ends with `Q`. -/
def Triple {σ α : Type} (P : σ → Prop) (x : Exec σ α) (Q : α → σ → Prop) : Prop :=
  ∀ s a s', P s → x.run s = .ok (a, s') → Q a s'

namespace Triple
variable {σ α β : Type} {P P' : σ → Prop} {Q Q' : α → σ → Prop} {R : β → σ → Prop}
  {x : Exec σ α} {f : α → Exec σ β}

theorem bind (hx : Triple P x Q) (hf : ∀ a, Triple (Q a) (f a) R) : Triple P (x >>= f) R := by
  intro s b s'' hp run
  obtain ⟨a, s', run₁, run₂⟩ := of_bind_ok run
  exact hf a s' b s'' (hx s a s' hp run₁) run₂

theorem ret (a : α) (h : ∀ s, P s → Q a s) : Triple P (pure a : Exec σ α) Q := by
  intro s b s' hp run
  cases run
  exact h s hp

theorem getState : Triple P (get : Exec σ σ) fun _ => P := by
  intro s a s' hp run
  cases run
  exact hp

theorem throw (e : Fault) : Triple P (throw e : Exec σ α) Q := by
  intro s a s' _ run
  cases run

theorem ite {c : Prop} [Decidable c] {y : Exec σ α} (hx : c → Triple P x Q)
    (hy : ¬ c → Triple P y Q) : Triple P (if c then x else y) Q := by
  by_cases hc : c
  · rw [if_pos hc]; exact hx hc
  · rw [if_neg hc]; exact hy hc

theorem assertThat {R' : σ → Prop} (c : Bool) (h : ∀ s, P s → c = true → R' s) :
    Triple P (assertThat c : Exec σ Unit) fun _ => R' := by
  intro s a s' hp run
  cases c with
  | false => cases run
  | true =>
      cases run
      exact h s hp rfl

end Triple

/-- Every run of `x` that returns relates its first state to its last. -/
def Respects {σ α : Type} (R : σ → σ → Prop) (x : Exec σ α) : Prop :=
  ∀ s a s', x.run s = .ok (a, s') → R s s'

namespace Respects
variable {σ α β : Type} {R : σ → σ → Prop} {x : Exec σ α} {f : α → Exec σ β}

theorem bind [IsTrans σ R] (hx : Respects R x) (hf : ∀ a, Respects R (f a)) :
    Respects R (x >>= f) := by
  intro s b s'' run
  obtain ⟨a, s', run₁, run₂⟩ := of_bind_ok run
  exact IsTrans.trans s s' s'' (hx s a s' run₁) (hf a s' b s'' run₂)

theorem ret [Std.Refl R] (a : α) : Respects R (pure a : Exec σ α) := by
  intro s b s' run
  cases run
  exact Std.Refl.refl s

theorem getState [Std.Refl R] : Respects R (get : Exec σ σ) := by
  intro s b s' run
  cases run
  exact Std.Refl.refl s

theorem modify {g : σ → σ} (h : ∀ s, R s (g s)) : Respects R (modify g : Exec σ PUnit) := by
  intro s b s' run
  cases run
  exact h s

theorem throw (e : Fault) : Respects R (throw e : Exec σ α) := by
  intro s a s' run
  cases run

theorem ite {c : Prop} [Decidable c] {y : Exec σ α} (hx : Respects R x) (hy : Respects R y) :
    Respects R (if c then x else y) := by
  by_cases hc : c
  · rw [if_pos hc]; exact hx
  · rw [if_neg hc]; exact hy

theorem assertThat [Std.Refl R] (c : Bool) : Respects R (assertThat c : Exec σ Unit) := by
  unfold Lib.assertThat
  exact ite (ret ()) (throw _)

end Respects

/-- A program for a part of the state, read by `get` and put back by `set`. -/
def zoom {σ τ α : Type} (part : σ → τ) (replace : σ → τ → σ) (x : Exec τ α) : Exec σ α := do
  let s ← get
  match x.run (part s) with
  | .error e => throw e
  | .ok (a, t) => do
      set (replace s t)
      pure a

section Zoom
variable {σ τ α : Type} {part : σ → τ} {replace : σ → τ → σ} {x : Exec τ α} {s : σ} {t : τ} {a : α}

theorem zoom_run (h : x.run (part s) = .ok (a, t)) :
    (zoom part replace x).run s = .ok (a, replace s t) := by
  unfold zoom
  rw [bind_ok (run_get_eq s), h]
  rfl

theorem zoom_error {e : Fault} (h : x.run (part s) = .error e) :
    (zoom part replace x).run s = .error e := by
  unfold zoom
  rw [bind_ok (run_get_eq s), h]
  rfl

theorem of_zoom_ok {s' : σ} (h : (zoom part replace x).run s = .ok (a, s')) :
    ∃ t, x.run (part s) = .ok (a, t) ∧ s' = replace s t := by
  unfold zoom at h
  rw [bind_ok (run_get_eq s)] at h
  cases e : x.run (part s) with
  | error e' => rw [e] at h; cases h
  | ok r =>
      rw [e] at h
      cases h
      exact ⟨r.2, rfl, rfl⟩

end Zoom
end Infos.Lib
