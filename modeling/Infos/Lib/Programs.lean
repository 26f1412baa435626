import Infos.Lib.Calls

/-!
# Programs among others

A program makes calls and gets an answer to each of them. Before a call, others may act on the
same machine; what they do is a list of turns. An assertion speaks of the machine and of what the
others have still to do.
-/
namespace Infos.Lib

/-- The answer to a call has a type of its own. -/
inductive Program (κ : Type) (ρ : κ → Type) (α : Type) where
  | ret (a : α)
  | fault (e : Fault)
  | call (c : κ) (next : ρ c → Program κ ρ α)

namespace Program
variable {κ : Type} {ρ : κ → Type} {α β : Type}

def bind : Program κ ρ α → (α → Program κ ρ β) → Program κ ρ β
  | .ret a, f => f a
  | .fault e, _ => .fault e
  | .call c next, f => .call c fun r => (next r).bind f

instance : Monad (Program κ ρ) where
  pure := .ret
  bind := .bind

def ask (c : κ) : Program κ ρ (ρ c) := .call c .ret

/-- A computation that calls nothing. -/
def ofExcept : Except Fault α → Program κ ρ α
  | .ok a => .ret a
  | .error e => .fault e

/-- How a run ends: with a result, with a fault of the program, or with one of the others. -/
inductive Outcome (ι σ μ α : Type) where
  | returned (a : α) (turns : List (List ι)) (s : σ) (log : List μ)
  | faulted (e : Fault)
  | halted (e : Fault)

variable {ι σ μ : Type} (serve : (c : κ) → Calls μ σ (ρ c)) (other : ι → Calls μ σ Unit)

/-- The others take their turn before each call. -/
def run : Program κ ρ α → List (List ι) → σ → List μ → Outcome ι σ μ α
  | .ret a, turns, s, log => .returned a turns s log
  | .fault e, _, _, _ => .faulted e
  | .call c next, turns, s, log =>
      match (Calls.runAll other (turns.headD [])).runOn s log with
      | (.error e, _) => .halted e
      | (.ok (_, s₁), log₁) =>
          match (serve c).runOn s₁ log₁ with
          | (.error e, _) => .faulted e
          | (.ok (r, s₂), log₂) => (next r).run turns.tail s₂ log₂

/-- The result is as wanted, unless the others ended the run. -/
def Outcome.Ends (Q : α → List ι → σ → Prop) : Outcome ι σ μ α → Prop
  | .returned a turns s _ => Q a turns.flatten s
  | .faulted _ => False
  | .halted _ => True

/-- Started where `P` holds, the program returns where `Q` holds. -/
def Meets (P : List ι → σ → Prop) (x : Program κ ρ α) (Q : α → List ι → σ → Prop) : Prop :=
  ∀ turns s log, P turns.flatten s → (x.run serve other turns s log).Ends Q

/-- No act of the others ends what the assertion says. -/
def Stable (P : List ι → σ → Prop) : Prop :=
  ∀ op ops s log s' log', P (op :: ops) s → (other op).runOn s log = (.ok ((), s'), log') →
    P ops s'

section Rules
variable {serve other} {P P' : List ι → σ → Prop} {Q Q' : α → List ι → σ → Prop}
  {R : β → List ι → σ → Prop} {x : Program κ ρ α} {f : α → Program κ ρ β}

theorem Stable.turn (stable : Stable other P) {turn ops : List ι} {s s' : σ} {log log' : List μ}
    (h : P (turn ++ ops) s) (ran : (Calls.runAll other turn).runOn s log = (.ok ((), s'), log')) :
    P ops s' := by
  induction turn generalizing s log with
  | nil =>
      cases ran
      exact h
  | cons op turn ih =>
      rw [Calls.runAll, Calls.runOn_bind] at ran
      rcases first : (other op).runOn s log with ⟨_ | ⟨⟨⟩, s₁⟩, log₁⟩
      · rw [first] at ran
        cases ran
      · rw [first] at ran
        exact ih (stable op (turn ++ ops) s log s₁ log₁ h first) ran

theorem flatten_headD_tail (turns : List (List ι)) :
    turns.flatten = turns.headD [] ++ turns.tail.flatten := by
  cases turns <;> rfl

theorem Meets.ret (a : α) (h : ∀ ops s, P ops s → Q a ops s) :
    Meets serve other P (pure a) Q :=
  fun turns s _ hp => h turns.flatten s hp

theorem Meets.of_fact {c : Prop} (h : c → Meets serve other P x Q) :
    Meets serve other (fun ops s => c ∧ P ops s) x Q :=
  fun turns s log hp => h hp.1 turns s log hp.2

theorem Meets.of_exists {γ : Type} {P : γ → List ι → σ → Prop}
    (h : ∀ a, Meets serve other (P a) x Q) :
    Meets serve other (fun ops s => ∃ a, P a ops s) x Q := by
  intro turns s log hp
  obtain ⟨a, hp⟩ := hp
  exact h a turns s log hp

theorem Meets.ofExcept_bind {y : Except Fault α} {a : α} {Q : β → List ι → σ → Prop}
    (result : y = .ok a) (h : Meets serve other P (f a) Q) :
    Meets serve other P (ofExcept y >>= f) Q := by
  rw [result]
  exact h

theorem Outcome.Ends.mono {r : Outcome ι σ μ α} (ends : r.Ends Q)
    (post : ∀ a ops s, Q a ops s → Q' a ops s) : r.Ends Q' := by
  cases r with
  | returned a turns s log => exact post a turns.flatten s ends
  | faulted e => exact ends
  | halted e => trivial

theorem Meets.bind (hx : Meets serve other P x Q) (hf : ∀ a, Meets serve other (Q a) (f a) R) :
    Meets serve other P (x >>= f) R := by
  intro turns s log hp
  have ended := hx turns s log hp
  clear hx hp
  induction x generalizing turns s log with
  | ret a => exact hf a turns s log ended
  | fault e => exact ended
  | call c next ih =>
      change ((Program.call c fun r => (next r).bind f).run serve other turns s log).Ends R
      rw [run] at ended ⊢
      rcases ran : (Calls.runAll other (turns.headD [])).runOn s log with ⟨_ | ⟨⟨⟩, s₁⟩, log₁⟩
      · trivial
      · rw [ran] at ended
        dsimp only at ended ⊢
        rcases answer : (serve c).runOn s₁ log₁ with ⟨_ | ⟨r, s₂⟩, log₂⟩
        · rw [answer] at ended
          exact ended
        · rw [answer] at ended
          exact ih r turns.tail s₂ log₂ ended

theorem Meets.ask {c : κ} {Q : ρ c → List ι → σ → Prop} (stable : Stable other P)
    (served : ∀ ops s log, P ops s → ∃ r s' log',
      (serve c).runOn s log = (.ok (r, s'), log') ∧ Q r ops s') :
    Meets serve other P (ask c) Q := by
  intro turns s log hp
  rw [flatten_headD_tail] at hp
  rw [Program.ask, run]
  rcases ran : (Calls.runAll other (turns.headD [])).runOn s log with ⟨_ | ⟨⟨⟩, s₁⟩, log₁⟩
  · trivial
  · obtain ⟨r, s₂, log₂, answer, post⟩ := served _ s₁ log₁ (stable.turn hp ran)
    dsimp only
    rw [answer]
    exact post

end Rules
end Program
end Infos.Lib
