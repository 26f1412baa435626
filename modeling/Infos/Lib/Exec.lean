import Mathlib.Algebra.Group.Int.Defs
import Mathlib.Algebra.Group.Nat.Defs
import Mathlib.Data.Set.Basic
import Mathlib.Logic.Relation

/-!
# Faulting executions

State passing for low-level code. A fault ends a run; `outOfFuel` is a loop
that did not finish within its budget and is never read as a result.
-/
namespace Infos.Lib

/-- What stops a run other than a return. -/
inductive Fault where
  | assertion
  | nullDeref
  | outOfBounds
  | uninitialised
  | useAfterFree
  | aborted
  | outOfFuel
  deriving DecidableEq, Repr

abbrev Exec (σ α : Type) := StateT σ (Except Fault) α

section Exec
variable {σ α β : Type}

theorem bind_ok {x : Exec σ α} {f : α → Exec σ β} {s s' : σ} {a : α}
    (h : x.run s = .ok (a, s')) : (x >>= f).run s = (f a).run s' := by
  rw [StateT.run_bind, h]
  rfl

theorem bind_error {x : Exec σ α} {f : α → Exec σ β} {s : σ} {e : Fault}
    (h : x.run s = .error e) : (x >>= f).run s = .error e := by
  rw [StateT.run_bind, h]
  rfl

/-- A finished sequence has a finished first part. -/
theorem of_bind_ok {x : Exec σ α} {f : α → Exec σ β} {s s'' : σ} {b : β}
    (h : (x >>= f).run s = .ok (b, s'')) :
    ∃ a s', x.run s = .ok (a, s') ∧ (f a).run s' = .ok (b, s'') := by
  rw [StateT.run_bind] at h
  cases hx : x.run s with
  | error e => rw [hx] at h; cases h
  | ok r => rw [hx] at h; exact ⟨r.1, r.2, rfl, h⟩

@[simp] theorem run_pure_eq (a : α) (s : σ) : (pure a : Exec σ α).run s = .ok (a, s) := rfl

@[simp] theorem run_throw_eq (e : Fault) (s : σ) :
    (throw e : Exec σ α).run s = .error e := rfl

@[simp] theorem run_get_eq (s : σ) : (get : Exec σ σ).run s = .ok (s, s) := rfl

@[simp] theorem run_set_eq (s s' : σ) : (set s' : Exec σ PUnit).run s = .ok (⟨⟩, s') := rfl

@[simp] theorem run_modify_eq (f : σ → σ) (s : σ) :
    (modify f : Exec σ PUnit).run s = .ok (⟨⟩, f s) := rfl

/-- Whether a run returns a given value, whatever state it leaves. -/
def returns [DecidableEq α] (x : Exec σ α) (s : σ) (a : α) : Bool :=
  match x.run s with
  | .ok (b, _) => b == a
  | .error _ => false

theorem of_returns [DecidableEq α] {x : Exec σ α} {s : σ} {a : α} (h : returns x s a = true) :
    ∃ s', x.run s = .ok (a, s') := by
  unfold returns at h
  split at h
  next b s' run =>
    cases beq_iff_eq.mp h
    exact ⟨s', run⟩
  next => cases h

/-- Whether a run returns with `p`. -/
def endsWith (x : Exec σ α) (s : σ) (p : α → σ → Bool) : Bool :=
  match x.run s with
  | .ok (a, s') => p a s'
  | .error _ => false

theorem of_endsWith {x : Exec σ α} {s : σ} {p : α → σ → Bool} (h : endsWith x s p = true) :
    ∃ a s', x.run s = .ok (a, s') ∧ p a s' = true := by
  unfold endsWith at h
  split at h
  next a s' run => exact ⟨a, s', run, h⟩
  next => cases h

/-- Where `x` returns, so does `y`, with the same result: more fuel, for one. -/
def Approximates (x y : Exec σ α) : Prop := ∀ s r, x.run s = .ok r → y.run s = .ok r

theorem Approximates.refl (x : Exec σ α) : Approximates x x := fun _ _ run => run

theorem Approximates.bind {x y : Exec σ α} {f g : α → Exec σ β} (h : Approximates x y)
    (h' : ∀ a, Approximates (f a) (g a)) : Approximates (x >>= f) (y >>= g) := by
  intro s r run
  obtain ⟨a, s', first, rest⟩ := of_bind_ok run
  rw [bind_ok (h s _ first)]
  exact h' a s' r rest

theorem Approximates.ite {p : Prop} [Decidable p] {x y x' y' : Exec σ α} (h : Approximates x y)
    (h' : Approximates x' y') : Approximates (if p then x else x') (if p then y else y') := by
  split
  · exact h
  · exact h'

end Exec

/-- A computation without the state. -/
def lift {σ α : Type} (x : Except Fault α) : Exec σ α := StateT.lift x

@[simp] theorem lift_ok {σ α : Type} (a : α) (s : σ) :
    (lift (.ok a) : Exec σ α).run s = .ok (a, s) := rfl

/-- `assert`: the failed expression aborts the run. -/
def assertThat {σ : Type} (p : Bool) : Exec σ Unit :=
  if p then pure () else throw .assertion

@[simp] theorem assertThat_run {σ : Type} {p : Bool} {s : σ} (h : p = true) :
    (assertThat p : Exec σ Unit).run s = .ok ((), s) := by
  rw [assertThat, if_pos h]
  rfl

end Infos.Lib
