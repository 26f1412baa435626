import Mathlib.Data.List.Perm.Basic

/-!
# Breadth-first traversal

Trees wait in a queue. The front one is visited and its subtrees go to the back.
-/
namespace Infos.Lib

/-- `parts` are the values in a tree: its own one and those of its subtrees. -/
structure Branching (α β : Type) where
  value : α → β
  subs : α → List α
  parts : α → List β
  perm : ∀ a, (value a :: (subs a).flatMap parts).Perm (parts a)

namespace Branching
variable {α β : Type} (T : Branching α β)

/-- The values of the trees in the queue. -/
def remaining (queue : List α) : List β := queue.flatMap T.parts

def visit : Nat → List α → List β
  | 0, _ => []
  | _ + 1, [] => []
  | n + 1, a :: queue => T.value a :: visit n (queue ++ T.subs a)

/-- The values in the order of the visits. -/
def order (queue : List α) : List β := T.visit (T.remaining queue).length queue

variable {a : α}

theorem remaining_perm (a : α) (queue : List α) :
    (T.value a :: T.remaining (queue ++ T.subs a)).Perm (T.remaining (a :: queue)) := by
  unfold remaining
  rw [List.flatMap_append, List.flatMap_cons]
  calc T.value a :: (queue.flatMap T.parts ++ (T.subs a).flatMap T.parts)
    _ |>.Perm (queue.flatMap T.parts ++ T.value a :: (T.subs a).flatMap T.parts) :=
        List.perm_middle.symm
    _ |>.Perm (queue.flatMap T.parts ++ T.parts a) := (T.perm a).append_left _
    _ |>.Perm (T.parts a ++ queue.flatMap T.parts) := List.perm_append_comm

theorem remaining_length (a : α) (queue : List α) :
    (T.remaining (a :: queue)).length = (T.remaining (queue ++ T.subs a)).length + 1 :=
  (T.remaining_perm a queue).length_eq.symm

/-- What holds of a queue when it holds after the visit of the front holds of every queue. -/
theorem queue_induction {motive : List α → Prop} (nil : motive [])
    (cons : ∀ a queue, motive (queue ++ T.subs a) → motive (a :: queue)) (queue : List α) :
    motive queue := by
  generalize size : (T.remaining queue).length = n
  induction n generalizing queue with
  | zero =>
      cases queue with
      | nil => exact nil
      | cons a queue =>
          rw [T.remaining_length] at size
          cases size
  | succ n ih =>
      cases queue with
      | nil => exact nil
      | cons a queue =>
          rw [T.remaining_length] at size
          exact cons a queue (ih _ (Nat.succ.inj size))

@[simp] theorem order_nil : T.order [] = [] := rfl

@[simp] theorem order_cons (a : α) (queue : List α) :
    T.order (a :: queue) = T.value a :: T.order (queue ++ T.subs a) := by
  unfold order
  rw [T.remaining_length]
  rfl

theorem order_perm (queue : List α) : (T.order queue).Perm (T.remaining queue) := by
  induction queue using T.queue_induction with
  | nil => exact .nil
  | cons a queue ih =>
      rw [order_cons]
      exact (ih.cons _).trans (T.remaining_perm a queue)

theorem order_map {γ : Type} {T : Branching α β} {T' : Branching γ β} (f : α → γ)
    (value : ∀ a, T'.value (f a) = T.value a) (subs : ∀ a, T'.subs (f a) = (T.subs a).map f)
    (queue : List α) : T'.order (queue.map f) = T.order queue := by
  induction queue using T.queue_induction with
  | nil => rfl
  | cons a queue ih =>
      rw [List.map_cons, order_cons, order_cons, value, subs, ← List.map_append, ih]

theorem length_le (queue : List α) : queue.length ≤ (T.order queue).length := by
  rw [(T.order_perm queue).length_eq]
  induction queue with
  | nil => exact Nat.zero_le _
  | cons a queue ih =>
      have own : 0 < (T.parts a).length := (T.perm a).length_eq ▸ Nat.succ_pos _
      unfold remaining at ih ⊢
      rw [List.flatMap_cons, List.length_append, List.length_cons]
      omega

/-- Where no tree has more than two subtrees, the queue grows by at most as much as less is left
to visit. -/
theorem weight_le (queue : List α) (two : (T.subs a).length ≤ 2) :
    (queue ++ T.subs a).length + (T.order (queue ++ T.subs a)).length ≤
      (a :: queue).length + (T.order (a :: queue)).length := by
  rw [order_cons, List.length_cons, List.length_cons, List.length_append]
  omega

end Branching
end Infos.Lib
