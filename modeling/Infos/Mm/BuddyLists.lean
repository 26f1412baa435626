import Infos.Mm.Buddy
import Mathlib.Data.List.Sort
import Mathlib.Data.List.TakeWhile

/-!
# Free lists spelled by the slots

`Holds s L` says that the slots of `s` spell the seventeen ascending lists `L`.
Each primitive of the allocator is one list operation on `L`, whatever slots it
goes through.
-/
namespace Infos.Mm.Buddy
open Infos.Lib Function

/-- The lists of block starts, one for each order. -/
abbrev Lists := Nat → List Nat

/-- The slots of `s` spell `L`; a block start is a cell of at most one list. -/
structure Holds (s : State) (L : Lists) : Prop where
  chain : ∀ k < maxOrder, Chain Slot.next s.slots (.area k) (L k)
  ascending : ∀ k, (L k).Pairwise (· < ·)
  bounded : ∀ k, ∀ p ∈ L k, p < s.nrPages
  apart : ∀ {j k p}, p ∈ L j → p ∈ L k → j = k

theorem next_injective : Injective Slot.next := fun _ _ e => Slot.next.inj e

theorem Holds.nodup {s : State} {L : Lists} (h : Holds s L) (k : Nat) : (L k).Nodup :=
  (h.ascending k).imp fun lt => Nat.ne_of_lt lt

theorem Holds.length_le {s : State} {L : Lists} (h : Holds s L) (k : Nat) :
    (L k).length ≤ s.nrPages := by
  have sub : L k ⊆ List.range s.nrPages := fun p hp => List.mem_range.mpr (h.bounded k p hp)
  simpa using (List.subperm_of_subset (h.nodup k) sub).length_le

theorem Holds.fresh (nrPages : Nat) : Holds (State.fresh nrPages) fun _ => [] where
  chain _ _ := rfl
  ascending _ := List.Pairwise.nil
  bounded _ _ hp := absurd hp List.not_mem_nil
  apart hp := absurd hp List.not_mem_nil

theorem Holds.unique {s : State} {L L' : Lists} (h : Holds s L) (h' : Holds s L') {k : Nat}
    (hk : k < maxOrder) : L k = L' k :=
  (h.chain k hk).unique (h'.chain k hk)

theorem slots_nodup {k : Nat} {xs : List Nat} (h : xs.Nodup) :
    (Slot.area k :: xs.map Slot.next).Nodup :=
  List.nodup_cons.mpr ⟨by simp, h.map next_injective⟩

section Loads
variable {s : State} {L : Lists}

theorem load_run {slot : Slot} (h : slot.inBounds s.nrPages = true) :
    (load slot).run s = .ok (s.slots slot, s) := by
  rw [load, bind_ok (run_get_eq s), if_pos h, run_pure_eq]

theorem store_run {slot : Slot} (v : Option Nat) (h : slot.inBounds s.nrPages = true) :
    (store slot v).run s = .ok ((), { s with slots := update s.slots slot v }) := by
  rw [store, bind_ok (run_get_eq s), if_pos h, run_set_eq]

theorem Holds.next_inBounds (h : Holds s L) {k p : Nat} (hp : p ∈ L k) :
    (Slot.next p).inBounds s.nrPages = true := decide_eq_true (h.bounded k p hp)

theorem area_inBounds {k : Nat} (nr : Nat) (hk : k < maxOrder) :
    (Slot.area k).inBounds nr = true := decide_eq_true hk

theorem Holds.slotAfter_inBounds (h : Holds s L) {k : Nat} (hk : k < maxOrder)
    {xs ys : List Nat} (e : L k = xs ++ ys) :
    (slotAfter Slot.next (.area k) xs).inBounds s.nrPages = true := by
  rcases List.mem_cons.mp (slotAfter_mem Slot.next (.area k) xs) with root | cell
  · rw [root]; exact area_inBounds _ hk
  · obtain ⟨q, hq, same⟩ := List.mem_map.mp cell
    rw [← same]
    exact h.next_inBounds (k := k) (by rw [e]; exact List.mem_append_left ys hq)

theorem findSlot_run {stop : Nat → Bool} {slot : Slot} {xs ys : List Nat} {fuel : Nat}
    (chain : Chain Slot.next s.slots slot (xs ++ ys)) (root : slot.inBounds s.nrPages = true)
    (cells : ∀ q ∈ xs, q < s.nrPages) (pass : ∀ q ∈ xs, stop q = false)
    (halt : ∀ q, ys.head? = some q → stop q = true) (budget : xs.length < fuel) :
    (findSlot stop fuel slot).run s = .ok (slotAfter Slot.next slot xs, s) := by
  induction xs generalizing slot fuel with
  | nil =>
      obtain ⟨fuel, rfl⟩ := Nat.exists_eq_add_one_of_ne_zero (by omega : fuel ≠ 0)
      rw [findSlot, bind_ok (load_run root)]
      cases ys with
      | nil => rw [show s.slots slot = none from chain]; rfl
      | cons y ys =>
          rw [chain.1]
          simp only [halt y rfl, if_true]
          rfl
  | cons x xs ih =>
      obtain ⟨fuel, rfl⟩ := Nat.exists_eq_add_one_of_ne_zero (by omega : fuel ≠ 0)
      rw [findSlot, bind_ok (load_run root), chain.1]
      simp only [pass x List.mem_cons_self, Bool.false_eq_true, if_false]
      exact ih chain.2 (decide_eq_true (cells x List.mem_cons_self))
        (fun q hq => cells q (List.mem_cons_of_mem x hq))
        (fun q hq => pass q (List.mem_cons_of_mem x hq)) (by simpa using budget)

theorem Holds.find_mem (h : Holds s L) {k p fuel : Nat} (hk : k < maxOrder) {xs ys : List Nat}
    (e : L k = xs ++ p :: ys) (budget : s.nrPages < fuel) :
    (findSlot (fun q => some q == some p) fuel (.area k)).run s =
      .ok (slotAfter Slot.next (.area k) xs, s) := by
  have nodup := h.nodup k
  have len := h.length_le k
  rw [e] at nodup len
  rw [List.length_append] at len
  have chain := h.chain k hk
  rw [e] at chain
  refine findSlot_run chain (area_inBounds _ hk)
    (fun q hq => h.bounded k q (by rw [e]; exact List.mem_append_left _ hq)) ?_ ?_ (by omega)
  · intro q hq
    have ne : q ≠ p := fun same => (List.nodup_append.mp nodup).2.2 q hq p
      List.mem_cons_self same
    simpa using ne
  · intro q hq
    cases hq
    simp

theorem Holds.find_none (h : Holds s L) {k fuel : Nat} (hk : k < maxOrder)
    {target : Option Nat} (absent : ∀ q ∈ L k, some q ≠ target) (budget : s.nrPages < fuel) :
    (findSlot (fun q => some q == target) fuel (.area k)).run s =
      .ok (slotAfter Slot.next (.area k) (L k), s) := by
  have len := h.length_le k
  have chain := h.chain k hk
  rw [← List.append_nil (L k)] at chain
  refine findSlot_run chain (area_inBounds _ hk) (h.bounded k) ?_ ?_ (by omega)
  · intro q hq
    simpa using absent q hq
  · intro q hq
    cases hq

theorem Holds.last_slot (h : Holds s L) {k : Nat} (hk : k < maxOrder) :
    (load (slotAfter Slot.next (.area k) (L k))).run s = .ok (none, s) := by
  rw [load_run (h.slotAfter_inBounds hk (List.append_nil (L k)).symm),
    (h.chain k hk).slotAfter_none]

end Loads

section Writes
variable {s : State} {L : Lists} {k p fuel : Nat}

theorem Holds.frame (h : Holds s L) {j : Nat} (hj : j < maxOrder) (ne : j ≠ k) (out : p ∉ L j)
    {slots : Slot → Option Nat} {xs ys : List Nat} (e : L k = xs ++ ys)
    (same : ∀ t, t ≠ .next p → t ≠ slotAfter Slot.next (.area k) xs → slots t = s.slots t) :
    Chain Slot.next slots (.area j) (L j) := by
  refine (h.chain j hj).frame fun t ht => same t ?_ ?_
  · rintro rfl
    rcases List.mem_cons.mp ht with root | cell
    · cases root
    · obtain ⟨q, hq, eq⟩ := List.mem_map.mp cell
      exact out (next_injective eq ▸ hq)
  · rintro rfl
    rcases List.mem_cons.mp (slotAfter_mem Slot.next (.area k) xs) with root | cell
    · rw [root] at ht
      rcases List.mem_cons.mp ht with same | later
      · exact ne (Slot.area.inj same).symm
      · obtain ⟨q, _, eq⟩ := List.mem_map.mp later
        cases eq
    · obtain ⟨q, hq, eq⟩ := List.mem_map.mp cell
      rw [← eq] at ht
      rcases List.mem_cons.mp ht with same | later
      · cases same
      · obtain ⟨r, hr, eq'⟩ := List.mem_map.mp later
        have inK : q ∈ L k := by rw [e]; exact List.mem_append_left ys hq
        exact ne (h.apart (next_injective eq' ▸ hr) inK)

theorem ascending_orderedInsert {xs : List Nat} (h : xs.Pairwise (· < ·)) (hp : p ∉ xs) :
    (xs.orderedInsert (· ≤ ·) p).Pairwise (· < ·) := by
  have le := (h.imp Nat.le_of_lt).orderedInsert p xs
  have nodup : (xs.orderedInsert (· ≤ ·) p).Nodup :=
    (List.perm_orderedInsert _ p xs).nodup_iff.mpr
      (List.nodup_cons.mpr ⟨hp, h.imp Nat.ne_of_lt⟩)
  exact (le.and nodup).imp fun both => Nat.lt_of_le_of_ne both.1 both.2

/-- Writes to the cell of `p` and to one slot of list `k` that make list `k` spell `zs`, and leave
the other lists alone. -/
theorem Holds.withList (h : Holds s L) (hp : p < s.nrPages) (out : ∀ j, j ≠ k → p ∉ L j)
    {slots : Slot → Option Nat} {xs ys zs : List Nat} (split : L k = xs ++ ys)
    (same : ∀ t, t ≠ .next p → t ≠ slotAfter Slot.next (.area k) xs → slots t = s.slots t)
    (chain : Chain Slot.next slots (.area k) zs) (ascending : zs.Pairwise (· < ·))
    (members : ∀ q ∈ zs, q ∈ L k ∨ q = p) : Holds ⟨s.nrPages, slots⟩ (update L k zs) := by
  have mem : ∀ j q, q ∈ update L k zs j → q ∈ L j ∨ j = k ∧ q = p := by
    intro j q hq
    by_cases e : j = k
    · subst e
      rw [update_self] at hq
      exact (members q hq).imp_right fun same => ⟨rfl, same⟩
    · rw [update_of_ne e] at hq
      exact .inl hq
  constructor
  case chain =>
    intro j hj
    by_cases e : j = k
    · subst e
      rw [update_self]
      exact chain
    · rw [update_of_ne e]
      exact h.frame hj e (out j e) split same
  case ascending =>
    intro j
    by_cases e : j = k
    · subst e
      rw [update_self]
      exact ascending
    · rw [update_of_ne e]
      exact h.ascending j
  case bounded =>
    intro j q hq
    rcases mem j q hq with old | ⟨-, rfl⟩
    · exact h.bounded j q old
    · exact hp
  case apart =>
    intro i j q hi hj
    rcases mem i q hi with oldᵢ | ⟨rfl, rfl⟩
    · rcases mem j q hj with oldⱼ | ⟨rfl, rfl⟩
      · exact h.apart oldᵢ oldⱼ
      · by_contra other
        exact out i other oldᵢ
    · rcases mem j q hj with oldⱼ | ⟨rfl, -⟩
      · by_contra other
        exact out j (fun same => other same.symm) oldⱼ
      · rfl

/-- `insert_block` inserts in address order and returns the slot that now holds the block. -/
theorem Holds.insertBlock (h : Holds s L) (hk : k < maxOrder) (hp : p < s.nrPages)
    (out : ∀ j, p ∉ L j) (budget : s.nrPages < fuel) :
    ∃ slot s', (insertBlock fuel p k).run s = .ok (slot, s') ∧ s'.nrPages = s.nrPages ∧
      Holds s' (update L k ((L k).orderedInsert (· ≤ ·) p)) ∧
      slot.inBounds s'.nrPages = true ∧ s'.slots slot = some p ∧
      slot = slotAfter Slot.next (.area k) ((L k).takeWhile fun q => decide (q < p)) := by
  let xs := (L k).takeWhile fun q => decide (q < p)
  let ys := (L k).dropWhile fun q => decide (q < p)
  have split : L k = xs ++ ys := List.takeWhile_append_dropWhile.symm
  have ins : (L k).orderedInsert (· ≤ ·) p = xs ++ p :: ys := by
    rw [List.orderedInsert_eq_take_drop]; simp [xs, ys]
  have len := h.length_le k
  rw [split, List.length_append] at len
  have chain := h.chain k hk
  rw [split] at chain
  have found : (findSlot (fun q => !decide (p > q)) fuel (.area k)).run s =
      .ok (slotAfter Slot.next (.area k) xs, s) := by
    refine findSlot_run chain (area_inBounds _ hk) (fun q hq => h.bounded k q ?_) ?_ ?_ (by omega)
    · rw [split]; exact List.mem_append_left ys hq
    · intro q hq
      have below := List.mem_takeWhile_imp (p := fun q => decide (q < p)) hq
      simpa using below
    · intro q hq
      have stops := List.head?_dropWhile_not (fun q => decide (q < p)) (L k)
      rw [show List.dropWhile (fun q => decide (q < p)) (L k) = ys from rfl, hq] at stops
      simpa using stops
  have inb := h.slotAfter_inBounds hk split
  have cell : (Slot.next p).inBounds s.nrPages = true := decide_eq_true hp
  have distinct : (Slot.area k :: .next p :: (xs ++ ys).map Slot.next).Nodup := by
    have tail := h.nodup k
    rw [split] at tail
    have all : (p :: (xs ++ ys)).Nodup := List.nodup_cons.mpr ⟨split ▸ out k, tail⟩
    exact slots_nodup all
  let slots := update (update s.slots (.next p) (s.slots (slotAfter Slot.next (.area k) xs)))
    (slotAfter Slot.next (.area k) xs) (some p)
  refine ⟨slotAfter Slot.next (.area k) xs, ⟨s.nrPages, slots⟩, ?_, rfl, ?_, inb,
    update_self _ _ _, rfl⟩
  · rw [Buddy.insertBlock, bind_ok found, bind_ok (load_run inb),
      bind_ok (store_run _ cell)]
    exact bind_ok (store_run (some p) inb)
  · apply h.withList hp (fun j _ => out j) split
    · exact fun t t1 t2 => (update_of_ne t2 _ _).trans (update_of_ne t1 _ _)
    · rw [ins]
      exact chain.insert distinct
    · exact ascending_orderedInsert (h.ascending k) (out k)
    · intro q hq
      exact ((List.mem_orderedInsert _).mp hq).symm

theorem Holds.removeBlock (h : Holds s L) (hk : k < maxOrder) (hp : p ∈ L k)
    (budget : s.nrPages < fuel) :
    ∃ s', (removeBlock fuel (some p) k).run s = .ok ((), s') ∧ s'.nrPages = s.nrPages ∧
      Holds s' (update L k ((L k).erase p)) := by
  obtain ⟨xs, ys, split⟩ := List.append_of_mem hp
  have nodup := h.nodup k
  rw [split] at nodup
  have gone : (L k).erase p = xs ++ ys := by
    have fresh : p ∉ xs := fun hx => (List.nodup_append.mp nodup).2.2 p hx p List.mem_cons_self rfl
    rw [split, List.erase_append_right _ fresh, List.erase_cons_head]
  have chain := h.chain k hk
  rw [split] at chain
  have inb := h.slotAfter_inBounds hk split
  have nxt := h.next_inBounds hp
  let slots := update (update s.slots (slotAfter Slot.next (.area k) xs) (s.slots (.next p)))
    (.next p) none
  refine ⟨⟨s.nrPages, slots⟩, ?_, rfl, ?_⟩
  · rw [Buddy.removeBlock, bind_ok (h.find_mem hk split budget), bind_ok (load_run inb),
      bind_ok (assertThat_run (by rw [chain.mem_slotAfter]; simp))]
    dsimp only
    rw [bind_ok (load_run nxt), bind_ok (store_run _ inb)]
    exact store_run none nxt
  · apply h.withList (h.bounded k p hp) (fun j e other => e (h.apart other hp)) split
    · exact fun t t1 t2 => (update_of_ne t1 _ _).trans (update_of_ne t2 _ _)
    · rw [gone]
      exact chain.remove (slots_nodup nodup)
    · exact (h.ascending k).sublist List.erase_sublist
    · exact fun q hq => .inl (List.mem_of_mem_erase hq)

end Writes
end Infos.Mm.Buddy
