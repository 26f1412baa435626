import Mathlib.Data.List.Basic
import Mathlib.Data.List.TakeWhile

/-!
# Separated strings

The parts of a list between separators, without the empty ones, and lists that are
put together from parts.
-/
namespace Infos.Lib

section Parts
variable {α : Type} [DecidableEq α] {sep : α} {a b c tail : List α} {parts : List (List α)}

/-- The non-empty parts between the separators. -/
def components (sep : α) (l : List α) : List (List α) := (l.splitOn sep).filter (· ≠ [])

@[simp] theorem components_nil : components sep [] = [] := by
  simp [components]

theorem components_append_sep :
    components sep (a ++ sep :: b) = components sep a ++ components sep b := by
  unfold components
  rw [List.splitOn_append_cons_self, List.filter_append]

theorem components_part (some : c ≠ []) (part : sep ∉ c) : components sep c = [c] := by
  unfold components
  rw [List.splitOn_eq_singleton part]
  simp [some]

theorem components_seps (all : ∀ x ∈ tail, x = sep) : components sep tail = [] := by
  induction tail with
  | nil => exact components_nil
  | cons x tail ih =>
      obtain rfl := all x List.mem_cons_self
      have split : components x ([] ++ x :: tail) = components x [] ++ components x tail :=
        components_append_sep
      rw [List.nil_append] at split
      rw [split, components_nil, ih fun y mem => all y (List.mem_cons_of_mem x mem)]
      rfl

@[simp] theorem components_cons_sep : components sep (sep :: b) = components sep b := by
  have split : components sep ([] ++ sep :: b) = components sep [] ++ components sep b :=
    components_append_sep
  simpa using split

@[simp] theorem components_replicate_append (n : Nat) (l : List α) :
    components sep (List.replicate n sep ++ l) = components sep l := by
  induction n with
  | zero => rfl
  | succ n ih => simpa [List.replicate_succ] using ih

theorem components_dropWhile (l : List α) :
    components sep (l.dropWhile (· = sep)) = components sep l := by
  induction l with
  | nil => rfl
  | cons x l ih =>
      by_cases separator : x = sep
      · subst separator
        simpa using ih
      · simp [separator]

theorem components_token (some : c ≠ []) (part : sep ∉ c)
    (ends : ∀ x, tail.head? = .some x → x = sep) :
    components sep (c ++ tail) = c :: components sep tail := by
  cases tail with
  | nil => simp [components_part some part]
  | cons x tail =>
      obtain rfl := ends x rfl
      simp [components_append_sep, components_part some part]

theorem notMem_takeWhile (sep : α) (l : List α) : sep ∉ l.takeWhile (· ≠ sep) := by
  intro mem
  simpa using List.mem_takeWhile_imp mem

theorem head_dropWhile (sep : α) (l : List α) {x : α}
    (h : (l.dropWhile (· ≠ sep)).head? = .some x) : x = sep := by
  have stops := List.head?_dropWhile_not (fun y => decide (y ≠ sep)) l
  rw [h] at stops
  simpa using stops

theorem skip_dropWhile (sep : α) (l : List α) :
    (if (l.dropWhile (· ≠ sep)).head? = some sep then (l.dropWhile (· ≠ sep)).tail
      else l.dropWhile (· ≠ sep)) = (l.dropWhile (· ≠ sep)).tail := by
  cases behind : l.dropWhile (· ≠ sep) with
  | nil => simp
  | cons x rest =>
      obtain rfl := head_dropWhile sep l (by rw [behind]; rfl)
      simp

theorem components_takeWhile {l : List α} (some : l.takeWhile (· ≠ sep) ≠ []) :
    components sep l = l.takeWhile (· ≠ sep) :: components sep (l.dropWhile (· ≠ sep)) := by
  have split := components_token some (notMem_takeWhile sep l) fun x => head_dropWhile sep l
  rwa [List.takeWhile_append_dropWhile] at split

/-- The parts in front of the first empty one. -/
def leading (sep : α) (l : List α) : List (List α) := (l.splitOn sep).takeWhile (· ≠ [])

/-- The non-empty parts behind the first empty one. -/
def later (sep : α) (l : List α) : List (List α) :=
  ((l.splitOn sep).dropWhile (· ≠ [])).filter (· ≠ [])

theorem components_eq_leading (sep : α) (l : List α) :
    components sep l = leading sep l ++ later sep l := by
  have front : ((l.splitOn sep).takeWhile (· ≠ [])).filter (· ≠ []) =
      (l.splitOn sep).takeWhile (· ≠ []) :=
    List.filter_eq_self.mpr fun c mem => by simpa using List.mem_takeWhile_imp mem
  rw [leading, later, ← front, ← List.filter_append, List.takeWhile_append_dropWhile]
  rfl

@[simp] theorem leading_nil : leading sep [] = [] := by
  simp [leading]

theorem splitOn_takeWhile (sep : α) (l : List α) :
    l.splitOn sep = l.takeWhile (· ≠ sep) :: match l.dropWhile (· ≠ sep) with
      | [] => []
      | _ :: rest => rest.splitOn sep := by
  have whole := List.takeWhile_append_dropWhile (p := (· ≠ sep)) (l := l)
  have part := notMem_takeWhile sep l
  cases behind : l.dropWhile (· ≠ sep) with
  | nil =>
      rw [behind, List.append_nil] at whole
      rw [whole] at part ⊢
      exact List.splitOn_eq_singleton part
  | cons x rest =>
      obtain rfl := head_dropWhile sep l (by rw [behind]; rfl)
      rw [behind] at whole
      conv_lhs => rw [← whole]
      rw [List.splitOn_append_cons_self, List.splitOn_eq_singleton part]
      rfl

theorem leading_takeWhile (sep : α) (l : List α) :
    leading sep l = if l.takeWhile (· ≠ sep) = [] then []
      else l.takeWhile (· ≠ sep) :: leading sep (l.dropWhile (· ≠ sep)).tail := by
  unfold leading
  rw [splitOn_takeWhile]
  generalize l.takeWhile (· ≠ sep) = token
  by_cases none : token = []
  · simp [none]
  · cases l.dropWhile (· ≠ sep) <;> simp [none]

theorem components_intercalate (proper : ∀ c ∈ parts, c ≠ [] ∧ sep ∉ c) (nonempty : parts ≠ [])
    (seps : ∀ x ∈ tail, x = sep) : components sep ([sep].intercalate parts ++ tail) = parts := by
  induction parts with
  | nil => exact absurd rfl nonempty
  | cons c parts ih =>
      obtain ⟨some, part⟩ := proper c List.mem_cons_self
      cases parts with
      | nil =>
          rw [List.intercalate_singleton]
          cases tail with
          | nil => rw [List.append_nil, components_part some part]
          | cons x tail =>
              obtain rfl := seps x List.mem_cons_self
              rw [components_append_sep, components_part some part,
                components_seps fun y mem => seps y (List.mem_cons_of_mem x mem)]
              rfl
      | cons d parts =>
          rw [List.intercalate_cons_cons, List.append_assoc, List.append_assoc,
            List.singleton_append, components_append_sep, components_part some part,
            ih (fun e mem => proper e (List.mem_cons_of_mem c mem)) (List.cons_ne_nil d parts)]
          rfl

theorem leading_intercalate (proper : ∀ c ∈ parts, c ≠ [] ∧ sep ∉ c) (nonempty : parts ≠ []) :
    leading sep ([sep].intercalate parts) = parts := by
  rw [leading, List.splitOn_intercalate sep (fun c mem => (proper c mem).2) nonempty,
    List.takeWhile_eq_self_iff]
  intro c mem
  exact decide_eq_true (proper c mem).1

end Parts

end Infos.Lib
