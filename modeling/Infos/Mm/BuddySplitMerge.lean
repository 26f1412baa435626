import Infos.Mm.BuddyTiling

/-!
# Splitting a block and merging it again

A split and the merge of the halves leave the lists as they were. What the split returns is not
the left half: the slot it reads once more belongs to the list the block has left.
-/
namespace Infos.Mm.Buddy
open Infos.Lib Function Tiled

section Model
variable (fuel : Nat) (L : Lists) (k p : Nat)

/-- A merge from either half gives back the lists, and a slot that holds the whole block. -/
def Restores (s : State) : Prop :=
  ∀ half, half = p ∨ half = p + 2 ^ k → ∀ slot, PointsAt (splitLists L k p) k slot half →
    ∃ slot' s', (mergeBlock fuel slot k).run s = .ok (slot', s') ∧ Holds s' L ∧
      PointsAt L (k + 1) slot' p ∧ s'.slots slot' = some p

/-- A split of the block of order `k + 1` returns `result`, moves the halves to the list below in
address order, and can be undone. -/
def Splits (s : State) (slot : Slot) (result : Option Nat) : Prop :=
  ∃ s', (splitBlock fuel slot (k + 1)).run s = .ok (result, s') ∧ Holds s' (splitLists L k p) ∧
    Restores fuel L k p s'

end Model

section Lists
variable {s : State} {L L' : Lists} {F : Set Nat} {k p fuel : Nat}

theorem Holds.slotAfter_eq (h : Holds s L) (hk : k < maxOrder) {xs ys : List Nat}
    (split : L k = xs ++ ys) : s.slots (slotAfter Slot.next (.area k) xs) = ys.head? := by
  have chain := h.chain k hk
  rw [split] at chain
  cases ys with
  | nil =>
      rw [List.append_nil] at chain
      exact chain.slotAfter_none
  | cons y ys => exact chain.mem_slotAfter

theorem Holds.ext_tiles {s' : State} (h : Holds s L) (h' : Holds s' L')
    (same : tiles L = tiles L') : L = L' := by
  funext j
  exact (h.ascending j).eq_of_mem_iff (h'.ascending j) fun q => Set.ext_iff.mp (congrFun same j) q

theorem splitBlock_result {slot : Slot} {r : Option Nat} {s' : State}
    (run : (splitBlock fuel slot k).run s = .ok (r, s')) : r = s'.slots slot := by
  rw [Buddy.splitBlock] at run
  obtain ⟨block, s₁, _, run⟩ := of_bind_ok run
  cases block with
  | none => cases run
  | some b =>
      obtain ⟨_, s₂, _, run⟩ := of_bind_ok run
      obtain ⟨_, s₃, _, run⟩ := of_bind_ok run
      obtain ⟨_, s₄, _, run⟩ := of_bind_ok run
      obtain ⟨_, s₅, _, run⟩ := of_bind_ok run
      obtain ⟨_, s₆, _, run⟩ := of_bind_ok run
      rw [load] at run
      obtain ⟨_, s₇, read, run⟩ := of_bind_ok run
      cases read
      split at run
      · cases run
        rfl
      · cases run

theorem splitLists_top (L : Lists) (k p : Nat) :
    splitLists L k p (k + 1) = (L (k + 1)).erase p := by
  rw [splitLists, update_of_ne (Nat.succ_ne_self k), update_of_ne (Nat.succ_ne_self k), update_self]

theorem erase_middle {xs ys : List Nat} (nodup : (xs ++ p :: ys).Nodup) :
    (xs ++ p :: ys).erase p = xs ++ ys := by
  have fresh : p ∉ xs := fun mem =>
    (List.nodup_append.mp nodup).2.2 p mem p List.mem_cons_self rfl
  rw [List.erase_append_right _ fresh, List.erase_cons_head]

theorem put_take_halves {T : Nat → Set Nat} {a b r : Nat} (whole : p ∈ T (k + 1)) (left : p ∉ T k)
    (right : r ∉ T k) (halves : a = p ∧ b = r ∨ a = r ∧ b = p) :
    put (take (take (put (put (take T (k + 1) p) k p) k r) k a) k b) (k + 1) p = T := by
  funext j
  ext q
  simp only [mem_put, mem_take]
  by_cases top : j = k + 1
  · subst top
    by_cases same : q = p
    · subst same
      simp [whole]
    · simp [same]
  · by_cases low : j = k
    · subst low
      have : q = p → q ∉ T j := fun same => same ▸ left
      have : q = r → q ∉ T j := fun same => same ▸ right
      rcases halves with ⟨rfl, rfl⟩ | ⟨rfl, rfl⟩ <;> simp <;> tauto
    · simp [top, low]

theorem halves_of (al : 2 ^ (k + 1) ∣ p) {half : Nat} (either : half = p ∨ half = p + 2 ^ k) :
    (half = p ∧ buddy k half = p + 2 ^ k ∨ half = p + 2 ^ k ∧ buddy k half = p) ∧
      parent k half = p := by
  rcases either with rfl | rfl
  · have bud := buddy_left al
    refine ⟨.inl ⟨rfl, bud⟩, ?_⟩
    rw [parent, bud]
    omega
  · have bud := buddy_right al
    refine ⟨.inr ⟨rfl, bud⟩, ?_⟩
    rw [parent, bud]
    omega

theorem halves_not_mem (h : Tiled s L F) (hp : p ∈ L (k + 1)) :
    p ∉ tiles L k ∧ p + 2 ^ k ∉ tiles L k := by
  have pos := Nat.two_pow_pos k
  have mid : p + 2 ^ k ∈ block (k + 1) p := by
    rw [block_split]
    exact .inr (start_mem_block k _)
  refine ⟨fun mem => ?_, h.not_start hp mid (by omega)⟩
  exact absurd (h.holds.apart mem hp) (Nat.ne_of_lt (Nat.lt_succ_self k))

theorem halves_mem (h : Tiled s L F) (q : Nat) (either : q = p ∨ q = p + 2 ^ k) :
    q ∈ splitLists L k p k := by
  change q ∈ tiles (splitLists L k p) k
  rw [h.splitLists_tiles p]
  rcases either with rfl | rfl <;> simp

theorem mergeLists_splitLists (h : Tiled s L F) (hp : p ∈ L (k + 1)) {s' : State}
    (tiled : Tiled s' (splitLists L k p) F) {half : Nat} (either : half = p ∨ half = p + 2 ^ k) :
    tiles (mergeLists (splitLists L k p) k half) = tiles L := by
  obtain ⟨halves, whole⟩ := halves_of (h.aligned hp) either
  obtain ⟨left, right⟩ := halves_not_mem h hp
  rw [tiled.mergeLists_tiles, h.splitLists_tiles, whole]
  exact put_take_halves hp left right halves

theorem restores_of_tiled (h : Tiled s L F) (hp : p ∈ L (k + 1)) {s' : State}
    (tiled : Tiled s' (splitLists L k p) F) (budget : s'.nrPages < fuel) :
    Restores fuel L k p s' := by
  rintro half either slot ⟨xs, ys, split, rfl⟩
  have top := h.order_lt hp
  obtain ⟨halves, whole⟩ := halves_of (h.aligned hp) either
  have other : buddy k half ∈ splitLists L k p k := by
    apply halves_mem h
    rcases halves with ⟨-, bud⟩ | ⟨-, bud⟩
    · exact .inr bud
    · exact .inl bud
  have mem := halves_mem h half either
  have inb := tiled.holds.slotAfter_inBounds (tiled.order_lt mem) split
  have at_slot := tiled.holds.slotAfter_eq (tiled.order_lt mem) split
  obtain ⟨slot', s'', run, -, merged, -, at', place⟩ :=
    tiled.mergeBlock (by omega) mem other inb at_slot budget
  have lists : mergeLists (splitLists L k p) k half = L :=
    merged.holds.ext_tiles h.holds (mergeLists_splitLists h hp tiled either)
  rw [whole, lists] at place
  rw [lists] at merged
  rw [whole] at at'
  exact ⟨slot', s'', run, merged.holds, place, at'⟩

end Lists

/-- In every state with sorted, aligned and disjoint lists and for every block above order 0: the
split and the merge do all that is asked of them, except that the split returns the block behind
the one it splits, or NULL, and so never the left half. -/
theorem splits_next {s : State} {L : Lists} {F : Set Nat} {k p fuel : Nat} (xs ys : List Nat)
    (h : Tiled s L F) (list : L (k + 1) = xs ++ p :: ys) (budget : s.nrPages < fuel) :
    Splits fuel L k p s (slotAfter Slot.next (.area (k + 1)) xs) ys.head? ∧
      ¬ Splits fuel L k p s (slotAfter Slot.next (.area (k + 1)) xs) (some p) := by
  have hp : p ∈ L (k + 1) := by
    rw [list]
    exact List.mem_append_right xs List.mem_cons_self
  have hk := h.order_lt hp
  have nodup := h.holds.nodup (k + 1)
  rw [list] at nodup
  have inb := h.holds.slotAfter_inBounds hk list
  obtain ⟨r, s', run, nr, tiled⟩ := h.splitBlock hp inb (h.holds.slotAfter_eq hk list) budget
  have left : splitLists L k p (k + 1) = xs ++ ys := by
    rw [splitLists_top, list, erase_middle nodup]
  have result : r = ys.head? :=
    (splitBlock_result run).trans (tiled.holds.slotAfter_eq hk left)
  rw [result] at run
  refine ⟨⟨s', run, tiled.holds, restores_of_tiled h hp tiled (nr ▸ budget)⟩, ?_⟩
  rintro ⟨s'', run', -⟩
  rw [run] at run'
  have same : ys.head? = some p := congrArg Prod.fst (Except.ok.inj run')
  exact (List.nodup_cons.mp (List.nodup_append.mp nodup).2.1).1 (List.mem_of_head? same)

/-- Two free pages, in one block. -/
def twoPages : State := ⟨2, update (fun _ => none) (.area 1) (some 0)⟩

def onePair : Lists := update (fun _ => []) 1 [0]

theorem onePair_mem {k q : Nat} : q ∈ onePair k ↔ k = 1 ∧ q = 0 := by
  rw [onePair, update_apply]
  split_ifs with one <;> simp [one]

theorem twoPages_tiled : Tiled twoPages onePair (∅ ∪ block 1 0) where
  holds := {
    chain := by
      intro k _
      by_cases one : k = 1
      · subst one
        exact ⟨rfl, rfl⟩
      · have empty : onePair k = [] := update_of_ne one _ _
        rw [empty]
        change update (fun _ => none) (Slot.area 1) (some 0) (Slot.area k) = none
        rw [update_of_ne fun same => one (Slot.area.inj same)]
    ascending := by
      intro k
      rw [onePair, update_apply]
      split_ifs <;> simp
    bounded := by
      intro k q mem
      rw [(onePair_mem.mp mem).2]
      exact Nat.two_pos
    apart := fun hj hk => (onePair_mem.mp hj).1.trans (onePair_mem.mp hk).1.symm }
  tiling := by
    have tiles : tiles onePair = put (fun _ => ∅) 1 0 := by
      funext k
      ext q
      rw [mem_tiles, onePair_mem, mem_put]
      simp
    rw [tiles]
    exact (Tiling.empty _).put (by decide) (Nat.dvd_zero _) (Set.disjoint_empty _)
  inside := by
    rintro x (none | mem)
    · exact absurd none (Set.notMem_empty x)
    · exact (mem_block.mp mem).2

theorem splits_next_pair :
    Splits 3 onePair 0 0 twoPages (slotAfter Slot.next (.area 1) []) ([] : List Nat).head? ∧
      ¬ Splits 3 onePair 0 0 twoPages (slotAfter Slot.next (.area 1) []) (some 0) :=
  splits_next [] [] twoPages_tiled rfl (by decide)

/-- The split of the only block returns NULL. -/
theorem split_returns_null : Tiled twoPages onePair (∅ ∪ block 1 0) ∧
    PointsAt onePair 1 (.area 1) 0 ∧ ¬ Splits 3 onePair 0 0 twoPages (.area 1) (some 0) := by
  refine ⟨twoPages_tiled, ⟨[], [], rfl, rfl⟩, ?_⟩
  rintro ⟨s', run, -⟩
  have none : returns (splitBlock 3 (.area 1) 1) twoPages none = true := by decide
  obtain ⟨t, same⟩ := of_returns none
  rw [same] at run
  cases run

end Infos.Mm.Buddy
