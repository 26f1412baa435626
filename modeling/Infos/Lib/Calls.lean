import Infos.Lib.Exec

/-!
# Executions that call out

The calls a program makes are logged, the latest first, and the log outlives a
fault: what was asked stays asked. A call returns how many were made before it,
so that an environment can answer each one as it likes.
-/
namespace Infos.Lib

abbrev Calls (κ σ α : Type) := StateT σ (ExceptT Fault (StateM (List κ))) α

namespace Calls
variable {κ σ α β : Type}

/-- The outcome, and all the calls made so far. -/
def runOn (x : Calls κ σ α) (s : σ) (log : List κ) : Except Fault (α × σ) × List κ :=
  ((x.run s).run).run log

def call (c : κ) : Calls κ σ Nat :=
  fun s => ExceptT.mk fun log => (.ok (log.length, s), c :: log)

/-- A program that calls nothing. -/
def ofExec (x : Exec σ α) : Calls κ σ α := fun s => ExceptT.mk fun log => (x.run s, log)

section Run
variable {x : Calls κ σ α} {f : α → Calls κ σ β} {s s' : σ} {a : α} {e : Fault}
  {log log' : List κ}

@[simp] theorem runOn_pure (a : α) (s : σ) (log : List κ) :
    (pure a : Calls κ σ α).runOn s log = (.ok (a, s), log) := rfl

@[simp] theorem runOn_get (s : σ) (log : List κ) :
    (get : Calls κ σ σ).runOn s log = (.ok (s, s), log) := rfl

@[simp] theorem runOn_call (c : κ) (s : σ) (log : List κ) :
    (call c : Calls κ σ Nat).runOn s log = (.ok (log.length, s), c :: log) := rfl

@[simp] theorem runOn_ofExec (x : Exec σ α) (s : σ) (log : List κ) :
    (ofExec x : Calls κ σ α).runOn s log = (x.run s, log) := rfl

theorem runOn_bind (x : Calls κ σ α) (f : α → Calls κ σ β) (s : σ) (log : List κ) :
    (x >>= f).runOn s log =
      match x.runOn s log with
      | (.ok (a, s'), log') => (f a).runOn s' log'
      | (.error e, log') => (.error e, log') := by
  rcases ran : x.runOn s log with ⟨_ | ⟨a, s'⟩, log'⟩
  all_goals
    unfold runOn at ran ⊢
    rw [StateT.run_bind, ExceptT.run_bind, StateT.run_bind, ran]
    rfl

theorem runOn_bind_ok (h : x.runOn s log = (.ok (a, s'), log')) :
    (x >>= f).runOn s log = (f a).runOn s' log' := by
  rw [runOn_bind, h]

theorem runOn_bind_error (h : x.runOn s log = (.error e, log')) :
    (x >>= f).runOn s log = (.error e, log') := by
  rw [runOn_bind, h]

/-- A finished sequence has a finished first part. -/
theorem of_runOn_bind_ok {b : β} {s'' : σ} {log'' : List κ}
    (h : (x >>= f).runOn s log = (.ok (b, s''), log'')) :
    ∃ a s' log', x.runOn s log = (.ok (a, s'), log') ∧
      (f a).runOn s' log' = (.ok (b, s''), log'') := by
  rw [runOn_bind] at h
  rcases ran : x.runOn s log with ⟨_ | ⟨a, s'⟩, log'⟩
  · rw [ran] at h
    cases h
  · rw [ran] at h
    exact ⟨a, s', log', rfl, h⟩

theorem of_runOn_pure_ok {b : α} (h : (pure b : Calls κ σ α).runOn s log = (.ok (a, s'), log')) :
    a = b ∧ s' = s ∧ log' = log := by
  obtain ⟨result, same⟩ := Prod.mk.inj h
  obtain ⟨value, kept⟩ := Prod.mk.inj (Except.ok.inj result)
  exact ⟨value.symm, kept.symm, same.symm⟩

theorem runOn_ofExec_bind_ok {y : Exec σ α} (h : y.run s = .ok (a, s')) :
    ((ofExec y : Calls κ σ α) >>= f).runOn s log = (f a).runOn s' log :=
  runOn_bind_ok (by rw [runOn_ofExec, h])

end Run

/-- `x` calls nothing. -/
def Silent (x : Calls κ σ α) : Prop := ∀ s log, (x.runOn s log).2 = log

section Silent
variable {x : Calls κ σ α} {f : α → Calls κ σ β}

theorem Silent.ret (a : α) : Silent (pure a : Calls κ σ α) := fun _ _ => rfl

theorem Silent.ofExec (x : Exec σ α) : Silent (ofExec x : Calls κ σ α) := fun _ _ => rfl

/-- What calls nothing adds no call. -/
theorem Silent.after (hf : ∀ a, Silent (f a)) (s : σ) (log : List κ) :
    ((x >>= f).runOn s log).2 = (x.runOn s log).2 := by
  rw [runOn_bind]
  rcases x.runOn s log with ⟨_ | ⟨a, s'⟩, log'⟩
  · rfl
  · exact hf a s' log'

theorem Silent.bind (hx : Silent x) (hf : ∀ a, Silent (f a)) : Silent (x >>= f) :=
  fun s log => (Silent.after hf s log).trans (hx s log)

end Silent

/-! ### What is called -/

/-- From a state with `P`, `x` makes only calls with `C`, and if it returns, `Q` holds. -/
def Within (C : κ → Prop) (P : σ → Prop) (x : Calls κ σ α) (Q : α → σ → Prop) : Prop :=
  ∀ s log, P s → (∃ calls, (x.runOn s log).2 = calls ++ log ∧ ∀ c ∈ calls, C c) ∧
    ∀ a s', (x.runOn s log).1 = .ok (a, s') → Q a s'

namespace Within
variable {C : κ → Prop} {P P' : σ → Prop} {Q Q' : α → σ → Prop} {R : β → σ → Prop}
  {x : Calls κ σ α} {f : α → Calls κ σ β}

theorem bind (hx : Within C P x Q) (hf : ∀ a, Within C (Q a) (f a) R) : Within C P (x >>= f) R := by
  intro s log hp
  obtain ⟨⟨calls, grown, inside⟩, post⟩ := hx s log hp
  rw [runOn_bind]
  rcases ran : x.runOn s log with ⟨_ | ⟨a, s'⟩, log'⟩
  · rw [ran] at grown
    exact ⟨⟨calls, grown, inside⟩, nofun⟩
  · rw [ran] at grown post
    obtain ⟨⟨calls', grown', inside'⟩, post'⟩ := hf a s' log' (post a s' rfl)
    refine ⟨⟨calls' ++ calls, ?_, ?_⟩, post'⟩
    · rw [List.append_assoc, ← grown]
      exact grown'
    · intro c mem
      rcases List.mem_append.mp mem with mem | mem
      · exact inside' c mem
      · exact inside c mem

theorem ret (a : α) (h : ∀ s, P s → Q a s) : Within C P (pure a : Calls κ σ α) Q := by
  intro s log hp
  refine ⟨⟨[], rfl, nofun⟩, ?_⟩
  intro b s' run
  cases run
  exact h s hp

theorem throw (e : Fault) : Within C P (throw e : Calls κ σ α) Q :=
  fun _ _ _ => ⟨⟨[], rfl, nofun⟩, nofun⟩

theorem getState : Within C P (get : Calls κ σ σ) fun s s' => s = s' ∧ P s' := by
  intro s log hp
  refine ⟨⟨[], rfl, nofun⟩, ?_⟩
  intro a s' run
  cases run
  exact ⟨rfl, hp⟩

theorem modify {g : σ → σ} {Q : σ → Prop} (h : ∀ s, P s → Q (g s)) :
    Within C P (modify g : Calls κ σ PUnit) fun _ => Q := by
  intro s log hp
  refine ⟨⟨[], rfl, nofun⟩, ?_⟩
  intro a s' run
  cases run
  exact h s hp

theorem call {c : κ} (h : C c) : Within C P (call c : Calls κ σ Nat) fun _ => P := by
  intro s log hp
  refine ⟨⟨[c], rfl, ?_⟩, ?_⟩
  · intro d mem
    rw [List.mem_singleton.mp mem]
    exact h
  · intro a s' run
    cases run
    exact hp

theorem ofExec {x : Exec σ α} (h : ∀ s a s', P s → x.run s = .ok (a, s') → Q a s') :
    Within C P (ofExec x : Calls κ σ α) Q :=
  fun s _ hp => ⟨⟨[], rfl, nofun⟩, fun a s' run => h s a s' hp run⟩

theorem ite {c : Prop} [Decidable c] {y : Calls κ σ α} (hx : c → Within C P x Q)
    (hy : ¬ c → Within C P y Q) : Within C P (if c then x else y) Q := by
  by_cases hc : c
  · rw [if_pos hc]
    exact hx hc
  · rw [if_neg hc]
    exact hy hc

theorem mono (h : Within C P x Q) (pre : ∀ s, P' s → P s) (post : ∀ a s, Q a s → Q' a s) :
    Within C P' x Q' := by
  intro s log hp
  obtain ⟨calls, returned⟩ := h s log (pre s hp)
  exact ⟨calls, fun a s' run => post a s' (returned a s' run)⟩

theorem mono_calls {C' : κ → Prop} (h : Within C P x Q) (le : ∀ c, C c → C' c) :
    Within C' P x Q := by
  intro s log hp
  obtain ⟨⟨calls, grown, inside⟩, returned⟩ := h s log hp
  exact ⟨⟨calls, grown, fun c mem => le c (inside c mem)⟩, returned⟩

/-- Calls that are fine leave the question with the calls before them. -/
theorem forall_iff (h : Within C P x Q) {s : σ} (hp : P s) (log : List κ) :
    (∀ c ∈ (x.runOn s log).2, C c) ↔ ∀ c ∈ log, C c := by
  obtain ⟨⟨calls, grown, inside⟩, _⟩ := h s log hp
  rw [grown]
  constructor
  · exact fun all c mem => all c (List.mem_append_right _ mem)
  · intro before c mem
    rcases List.mem_append.mp mem with mem | mem
    · exact inside c mem
    · exact before c mem

end Within

/-- A program for a part of the state. -/
def zoom {τ : Type} (part : σ → τ) (replace : σ → τ → σ) (x : Calls κ τ α) : Calls κ σ α :=
  fun s => ExceptT.mk fun log =>
    match x.runOn (part s) log with
    | (.ok (a, t), log') => (.ok (a, replace s t), log')
    | (.error e, log') => (.error e, log')

section Zoom
variable {τ : Type} {part : σ → τ} {replace : σ → τ → σ} {x : Calls κ τ α}

theorem runOn_zoom (x : Calls κ τ α) (s : σ) (log : List κ) :
    (zoom part replace x).runOn s log =
      match x.runOn (part s) log with
      | (.ok (a, t), log') => (.ok (a, replace s t), log')
      | (.error e, log') => (.error e, log') := rfl

theorem of_runOn_zoom_ok {s s' : σ} {a : α} {log log' : List κ}
    (h : (zoom part replace x).runOn s log = (.ok (a, s'), log')) :
    ∃ t, x.runOn (part s) log = (.ok (a, t), log') ∧ s' = replace s t := by
  rw [runOn_zoom] at h
  rcases ran : x.runOn (part s) log with ⟨_ | ⟨b, t⟩, log''⟩
  · rw [ran] at h
    cases h
  · rw [ran] at h
    cases h
    exact ⟨t, rfl, rfl⟩

theorem Within.zoom {C : κ → Prop} {P : τ → Prop} {Q : α → τ → Prop} (h : Within C P x Q)
    {P' : σ → Prop} {Q' : α → σ → Prop} (pre : ∀ s, P' s → P (part s))
    (post : ∀ s a t, P' s → Q a t → Q' a (replace s t)) :
    Within C P' (zoom part replace x) Q' := by
  intro s log hp
  obtain ⟨grown, returned⟩ := h (part s) log (pre s hp)
  rw [runOn_zoom]
  rcases ran : x.runOn (part s) log with ⟨_ | ⟨a, t⟩, log'⟩
  all_goals rw [ran] at grown returned
  · exact ⟨grown, nofun⟩
  · refine ⟨grown, ?_⟩
    intro b s' run
    cases run
    exact post s a t hp (returned a t rfl)

end Zoom

/-! ### Runs without faults -/

/-- The run ends in no fault, unless it does not end. -/
def Fine (x : Calls κ σ α) (s : σ) (log : List κ) : Prop :=
  ∀ e, (x.runOn s log).1 = .error e → e = .outOfFuel

section Fine
variable {x : Calls κ σ α} {f : α → Calls κ σ β} {s s' : σ} {a : α} {e : Fault}
  {log log' : List κ}

theorem fine_ok (h : x.runOn s log = (.ok (a, s'), log')) : x.Fine s log := by
  intro e run
  rw [h] at run
  cases run

theorem fine_error (h : x.runOn s log = (.error e, log')) : x.Fine s log ↔ e = .outOfFuel := by
  unfold Fine
  rw [h]
  exact ⟨fun fine => fine e rfl, fun fuel e' run => (Except.error.inj run) ▸ fuel⟩

theorem fine_bind_ok (h : x.runOn s log = (.ok (a, s'), log')) :
    (x >>= f).Fine s log ↔ (f a).Fine s' log' := by
  unfold Fine
  rw [runOn_bind_ok h]

theorem fine_bind_error (h : x.runOn s log = (.error e, log')) :
    (x >>= f).Fine s log ↔ e = .outOfFuel := fine_error (runOn_bind_error h)

/-- What always returns adds no fault. -/
theorem fine_bind_of_fine (hf : ∀ a s log, (f a).Fine s log) :
    (x >>= f).Fine s log ↔ x.Fine s log := by
  rcases ran : x.runOn s log with ⟨e | ⟨a, s'⟩, log'⟩
  · rw [fine_bind_error ran, fine_error ran]
  · exact iff_of_true ((fine_bind_ok ran).mpr (hf a s' log')) (fine_ok ran)

theorem fine_bind_pure (g : α → β) : (x >>= fun a => pure (g a)).Fine s log ↔ x.Fine s log :=
  fine_bind_of_fine fun _ _ _ => fine_ok rfl

theorem fine_zoom {τ : Type} {part : τ → σ} {replace : τ → σ → τ} {t : τ} :
    (zoom part replace x).Fine t log ↔ x.Fine (part t) log := by
  have zoomed : (zoom part replace x).runOn t log = _ := runOn_zoom x t log
  rcases ran : x.runOn (part t) log with ⟨e | ⟨a, s'⟩, log'⟩
  · rw [ran] at zoomed
    rw [fine_error zoomed, fine_error ran]
  · rw [ran] at zoomed
    exact iff_of_true (fine_ok zoomed) (fine_ok ran)

end Fine

/-- All calls up to the end of the run are good, and it ends in no fault. -/
def Sound (Good : κ → Prop) (x : Calls κ σ α) (s : σ) (log : List κ) : Prop :=
  (∀ c ∈ (x.runOn s log).2, Good c) ∧ x.Fine s log

/-! ### Sequences of operations -/

section Sequence
variable {ι : Type} {run : ι → Calls κ σ Unit} {Good : κ → Prop} {Inv : σ → Prop}
  {Safe : σ → List κ → ι → Prop} {s : σ} {log : List κ}

def runAll (run : ι → Calls κ σ Unit) : List ι → Calls κ σ Unit
  | [] => pure ()
  | op :: ops => do
      run op
      runAll run ops

/-- A run is sound exactly when each step is safe where it is taken, if one step is sound exactly
where it is safe. -/
theorem runAll_sound_iff
    (step : ∀ s op log, Inv s →
      ((run op).Sound Good s log ↔ (∀ c ∈ log, Good c) ∧ Safe s log op))
    (kept : ∀ s op log s' log', Inv s → (run op).runOn s log = (.ok ((), s'), log') → Inv s')
    (ops : List ι) (h : Inv s) :
    (runAll run ops).Sound Good s log ↔ (∀ c ∈ log, Good c) ∧
      ∀ past op rest, ops = past ++ op :: rest → ∀ s' log',
        (runAll run past).runOn s log = (.ok ((), s'), log') → Safe s' log' op := by
  induction ops generalizing s log with
  | nil =>
      have idle : (runAll run []).runOn s log = (.ok ((), s), log) := rfl
      unfold Sound
      rw [idle, and_iff_left (fine_ok idle)]
      refine ⟨fun all => ⟨all, ?_⟩, And.left⟩
      intro past op rest split
      exact absurd split.symm (by simp)
  | cons op ops ih =>
      have first := step s op log h
      unfold Sound at first ⊢
      rcases ran : (run op).runOn s log with ⟨e | ⟨⟨⟩, s₁⟩, log₁⟩
      · have failed : (runAll run (op :: ops)).runOn s log = (.error e, log₁) :=
          runOn_bind_error ran
        rw [ran, fine_error ran] at first
        rw [failed, fine_error failed, first]
        refine and_congr_right fun _ => ⟨?_, fun all => all [] op ops rfl s log rfl⟩
        intro safe past op' rest split s' log' reached
        cases past with
        | nil =>
            cases split
            cases reached
            exact safe
        | cons _ past =>
            cases split
            rw [runAll, runOn_bind_error ran] at reached
            cases reached
      · rw [ran, and_iff_left (fine_ok ran)] at first
        rw [runAll, fine_bind_ok ran, runOn_bind_ok ran]
        refine (ih (kept s op log s₁ log₁ h ran)).trans ?_
        rw [first, and_assoc]
        refine and_congr_right fun _ => ⟨?_, ?_⟩
        · rintro ⟨safe, later⟩ past op' rest split s' log' reached
          cases past with
          | nil =>
              cases split
              cases reached
              exact safe
          | cons _ past =>
              cases split
              rw [runAll, runOn_bind_ok ran] at reached
              exact later past op' rest rfl s' log' reached
        · intro all
          refine ⟨all [] op ops rfl s log rfl, ?_⟩
          intro past op' rest split s' log' reached
          refine all (op :: past) op' rest (by rw [split, List.cons_append]) s' log' ?_
          rw [runAll, runOn_bind_ok ran]
          exact reached

/-- `P` holds of every step that is taken and of the state it leads to. -/
def Along (run : ι → Calls κ σ Unit) (P : ι → σ → Prop) : List ι → σ → List κ → Prop
  | [], _, _ => True
  | op :: ops, s, log =>
      match (run op).runOn s log with
      | (.ok (_, s'), log') => P op s' ∧ Along run P ops s' log'
      | (.error _, _) => True

/-- Where a step keeps the invariant and is good exactly if it is careful, a run is good exactly
if its steps are careful. -/
theorem along_iff {Good : ι → σ → Prop} {Careful : ι → Prop}
    (step : ∀ s op log s' log', Inv s → (run op).runOn s log = (.ok ((), s'), log') →
      (Good op s' ↔ Careful op) ∧ (Careful op → Inv s')) (ops : List ι) (h : Inv s) :
    Along run Good ops s log ↔ Along run (fun op _ => Careful op) ops s log := by
  induction ops generalizing s log with
  | nil => exact Iff.rfl
  | cons op ops ih =>
      unfold Along
      rcases ran : (run op).runOn s log with ⟨_ | ⟨⟨⟩, s'⟩, log'⟩
      · exact Iff.rfl
      · obtain ⟨good, kept⟩ := step s op log s' log' h ran
        dsimp only
        rw [good]
        exact and_congr_right fun careful => ih (kept careful)

theorem along_of_forall {Careful : ι → Prop} {ops : List ι} (all : ∀ op ∈ ops, Careful op) (s : σ)
    (log : List κ) : Along run (fun op _ => Careful op) ops s log := by
  induction ops generalizing s log with
  | nil => trivial
  | cons op ops ih =>
      unfold Along
      rcases (run op).runOn s log with ⟨_ | ⟨⟨⟩, s'⟩, log'⟩
      · trivial
      · refine ⟨all op List.mem_cons_self, ih ?_ s' log'⟩
        exact fun op' mem => all op' (List.mem_cons_of_mem op mem)

end Sequence
end Calls
end Infos.Lib
