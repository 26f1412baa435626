import Infos.Lib.Exec

/-!
# Runs of a machine whose operations may fault

A run takes valid operations one after another. An operation that faults ends
it, so every reached state was reached by operations that returned.
-/
namespace Infos.Lib

/-- `valid s op` is what the caller of `op` in state `s` promises. -/
structure Machine (σ ι ο : Type) where
  start : σ → Prop
  valid : σ → ι → Prop
  run : ι → Exec σ ο

namespace Machine
variable {σ ι ο : Type} {m : Machine σ ι ο} {I : σ → Prop}

inductive Reach (m : Machine σ ι ο) : σ → Prop
  | start {s : σ} : m.start s → Reach m s
  | step {s s' : σ} {op : ι} {out : ο} :
      Reach m s → m.valid s op → (m.run op).run s = .ok (out, s') → Reach m s'

/-- What holds at the start and across every returning operation holds in every reached state. -/
theorem Reach.invariant (initial : ∀ {s}, m.start s → I s)
    (kept : ∀ {s s' op out}, I s → m.valid s op → (m.run op).run s = .ok (out, s') → I s')
    {s : σ} (h : m.Reach s) : I s := by
  induction h with
  | start h => exact initial h
  | step _ valid run ih => exact kept ih valid run

end Machine
end Infos.Lib
