import Infos.Lib.Exec

/-!
# The counted list

`List` of the source: singly linked nodes and their number in an `unsigned int`.
Emptiness is read off the number, not off the nodes.
-/
namespace Infos.Util
open Infos.Lib

structure CountedList (α : Type) where
  elems : List α
  count : Nat

namespace CountedList
variable {α : Type}

def nil : CountedList α := ⟨[], 0⟩

def append (l : CountedList α) (elem : α) : CountedList α :=
  ⟨l.elems ++ [elem], (l.count + 1) % 2 ^ 32⟩

/-- The first node with this element is taken out, if there is one. -/
def remove [DecidableEq α] (l : CountedList α) (elem : α) : CountedList α :=
  if elem ∈ l.elems then ⟨l.elems.erase elem, (l.count + (2 ^ 32 - 1)) % 2 ^ 32⟩ else l

/-- `assert(_elems)`: there is a node. -/
def dequeue (l : CountedList α) : Except Fault (α × CountedList α) :=
  match l.elems with
  | [] => .error .assertion
  | front :: rest => .ok (front, ⟨rest, (l.count + (2 ^ 32 - 1)) % 2 ^ 32⟩)

def empty (l : CountedList α) : Bool := l.count == 0

/-- The number is that of the nodes, as far as it goes. -/
def Counted (l : CountedList α) : Prop := l.count = l.elems.length % 2 ^ 32

section Counted
variable {l : CountedList α} {x : α}

theorem nil_counted : (nil : CountedList α).Counted := rfl

/-- The nodes determine the number. -/
theorem Counted.ext {l' : CountedList α} (h : l.Counted) (h' : l'.Counted)
    (same : l.elems = l'.elems) : l = l' := by
  cases l with
  | mk elems count =>
      cases l' with
      | mk elems' count' =>
          cases same
          exact congrArg (CountedList.mk elems) (h.trans h'.symm)

theorem Counted.append (h : l.Counted) : (l.append x).Counted := by
  unfold Counted CountedList.append at *
  rw [h, List.length_append, List.length_singleton, Nat.mod_add_mod]

theorem Counted.remove [DecidableEq α] (h : l.Counted) : (l.remove x).Counted := by
  unfold CountedList.remove
  split_ifs with mem
  · have some := List.length_pos_of_mem mem
    unfold Counted at *
    dsimp only
    rw [h, List.length_erase_of_mem mem]
    omega
  · exact h

theorem Counted.empty_iff (h : l.Counted) : l.empty = true ↔ 2 ^ 32 ∣ l.elems.length := by
  unfold Counted at h
  rw [CountedList.empty, beq_iff_eq, h, Nat.dvd_iff_mod_eq_zero]

theorem Counted.dequeue {rest : List α} (h : l.Counted) (front : l.elems = x :: rest) :
    ∃ l', l.dequeue = .ok (x, l') ∧ l'.elems = rest ∧ l'.Counted := by
  refine ⟨⟨rest, (l.count + (2 ^ 32 - 1)) % 2 ^ 32⟩, ?_, rfl, ?_⟩
  · rw [CountedList.dequeue, front]
  · unfold Counted at *
    rw [h, front, List.length_cons]
    dsimp only
    omega

/-- Taking the front and appending it turns the list by one. -/
theorem Counted.dequeue_append {rest : List α} (h : l.Counted) (front : l.elems = x :: rest) :
    ∃ l', l.dequeue = .ok (x, l') ∧ (l'.append x).elems = rest ++ [x] ∧ (l'.append x).Counted := by
  obtain ⟨l', run, elems, counted⟩ := h.dequeue front
  exact ⟨l', run, congrArg (· ++ [x]) elems, counted.append⟩

end Counted
end CountedList
end Infos.Util
