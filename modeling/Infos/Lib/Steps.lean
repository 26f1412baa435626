import Infos.Lib.Exec

/-!
# A step again and again

The states of a run are those after any number of steps.
-/
namespace Infos.Lib

/-- The state after a number of steps. -/
def steps {σ : Type} (step : σ → Except Fault σ) : Nat → σ → Except Fault σ
  | 0, s => .ok s
  | n + 1, s => do
      let s' ← step s
      steps step n s'

section Steps
variable {σ : Type} {step : σ → Except Fault σ} {s s' : σ} {n : Nat}

theorem steps_succ (h : step s = .ok s') : steps step (n + 1) s = steps step n s' := by
  rw [steps, h]
  rfl

theorem of_steps_succ {t : σ} (h : steps step (n + 1) s = .ok t) :
    ∃ s', step s = .ok s' ∧ steps step n s' = .ok t := by
  cases first : step s with
  | error e =>
      rw [steps, first] at h
      cases h
  | ok s' =>
      rw [steps_succ first] at h
      exact ⟨s', rfl, h⟩

theorem steps_add {t : σ} {m : Nat} (first : steps step m s = .ok s')
    (second : steps step n s' = .ok t) : steps step (m + n) s = .ok t := by
  induction m generalizing s with
  | zero =>
      cases first
      rwa [Nat.zero_add]
  | succ m ih =>
      obtain ⟨s₁, one, rest⟩ := of_steps_succ first
      rw [Nat.add_right_comm, steps_succ one]
      exact ih rest

/-- No step of a run faults and all its states are good if and only if all its states are
careful, where one step from a good state leads to a good state exactly if it is careful. -/
theorem steps_good_iff {Good Careful : σ → Prop}
    (one : ∀ s, Good s → ((∃ s', step s = .ok s' ∧ Good s') ↔ Careful s)) (start : Good s) :
    (∀ n, ∃ s', steps step n s = .ok s' ∧ Good s') ↔
      ∀ n s', steps step n s = .ok s' → Careful s' := by
  constructor
  · intro all n
    induction n generalizing s with
    | zero =>
        rintro s' ⟨⟩
        obtain ⟨s₁, run, good⟩ := all 1
        obtain ⟨s₂, first, none⟩ := of_steps_succ run
        cases none
        exact (one s start).mp ⟨s₁, first, good⟩
    | succ n ih =>
        intro t run
        obtain ⟨s₁, first, rest⟩ := of_steps_succ run
        obtain ⟨s₂, run₂, good₂⟩ := all 1
        rw [steps_succ first] at run₂
        cases run₂
        refine ih good₂ (fun m => ?_) t rest
        obtain ⟨u, run, good⟩ := all (m + 1)
        rw [steps_succ first] at run
        exact ⟨u, run, good⟩
  · intro careful n
    induction n generalizing s with
    | zero => exact ⟨s, rfl, start⟩
    | succ n ih =>
        obtain ⟨s₁, first, good⟩ := (one s start).mpr (careful 0 s rfl)
        rw [steps_succ first]
        refine ih good fun m t run => careful (m + 1) t ?_
        rwa [steps_succ first]

end Steps
end Infos.Lib
