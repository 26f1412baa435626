import Infos.Mm.BuddyLists
import Infos.Lib.Dyadic

/-!
# The free lists as a tiling of the free pages

Splitting and merging move blocks between lists and keep the set of free pages.
`Tiled s L F` is what holds between any two of them; `NoPairs` is what every
complete operation restores.
-/
namespace Infos.Mm.Buddy
open Infos.Lib Function Set

/-- The free blocks of each order. -/
def tiles (L : Lists) (k : Nat) : Set Nat := {p | p ∈ L k}

@[simp] theorem mem_tiles {L : Lists} {k p : Nat} : p ∈ tiles L k ↔ p ∈ L k := Iff.rfl

/-- The lists of `s` cut the free pages `F` into blocks. -/
structure Tiled (s : State) (L : Lists) (F : Set Nat) : Prop where
  holds : Holds s L
  tiling : Tiling (maxOrder - 1) F (tiles L)
  inside : ∀ x ∈ F, x < s.nrPages

/-- The slot is the one of list `k` that holds the block. -/
def PointsAt (L : Lists) (k : Nat) (slot : Slot) (p : Nat) : Prop :=
  ∃ xs ys, L k = xs ++ p :: ys ∧ slot = slotAfter Slot.next (.area k) xs

theorem pointsAt_insert {L : Lists} {k p : Nat} {xs : List Nat}
    (inserted : L k = xs.orderedInsert (· ≤ ·) p) :
    PointsAt L k (slotAfter Slot.next (.area k) (xs.takeWhile fun q => decide (q < p))) p := by
  refine ⟨_, xs.dropWhile fun q => decide (q < p), ?_, rfl⟩
  rw [inserted, List.orderedInsert_eq_take_drop]
  simp

theorem tiles_insert (L : Lists) (k p : Nat) :
    tiles (update L k ((L k).orderedInsert (· ≤ ·) p)) = put (tiles L) k p := by
  funext j
  ext q
  rw [mem_put, mem_tiles, mem_tiles]
  by_cases e : j = k
  · subst e; simp [List.mem_orderedInsert, or_comm]
  · simp [e]

theorem tiles_erase {L : Lists} {k : Nat} (nodup : (L k).Nodup) (p : Nat) :
    tiles (update L k ((L k).erase p)) = take (tiles L) k p := by
  funext j
  ext q
  rw [mem_take, mem_tiles, mem_tiles]
  by_cases e : j = k
  · subst e; simp [nodup.mem_erase_iff, and_comm]
  · simp [e]

theorem pagesPerBlock_eq (order : Nat) : pagesPerBlock order = 2 ^ order := Nat.one_shiftLeft order

theorem aligned_iff {pgd order : Nat} :
    isCorrectAlignmentForOrder pgd order = true ↔ 2 ^ order ∣ pgd := by
  rw [isCorrectAlignmentForOrder, pagesPerBlock_eq, beq_iff_eq, Nat.dvd_iff_mod_eq_zero]

theorem buddyOf_eq {nr pgd order : Nat} (hk : order < maxOrder) (al : 2 ^ order ∣ pgd) :
    buddyOf nr pgd order = pfnToPgd nr (buddy order pgd) := by
  have here := aligned_iff.mpr al
  rw [buddyOf, if_neg (by omega), here]
  simp only [Bool.not_true, Bool.false_eq_true, if_false, pagesPerBlock_eq, aligned_iff]
  rfl

theorem buddyOf_eq_some {nr pgd order : Nat} (hk : order < maxOrder) (al : 2 ^ order ∣ pgd)
    (hb : buddy order pgd < nr) : buddyOf nr pgd order = some (buddy order pgd) := by
  rw [buddyOf_eq hk al, pfnToPgd, if_neg (by omega)]

theorem buddyOf_some {nr pgd order b : Nat} (hk : order < maxOrder) (al : 2 ^ order ∣ pgd)
    (h : buddyOf nr pgd order = some b) : b = buddy order pgd := by
  rw [buddyOf_eq hk al, pfnToPgd] at h
  split at h
  · cases h
  · exact (Option.some.inj h).symm

namespace Tiled
variable {s : State} {L : Lists} {F : Set Nat} {k p fuel : Nat}

theorem order_lt (h : Tiled s L F) (hp : p ∈ L k) : k < maxOrder :=
  Nat.lt_of_le_pred (by decide) (h.tiling.order hp)

theorem aligned (h : Tiled s L F) (hp : p ∈ L k) : 2 ^ k ∣ p := h.tiling.aligned hp

theorem block_lt (h : Tiled s L F) (hp : p ∈ L k) {x : Nat} (hx : x ∈ block k p) :
    x < s.nrPages := h.inside x (h.tiling.subset hp hx)

theorem not_start (h : Tiled s L F) {j q : Nat} (hp : p ∈ L k) (hq : q ∈ block k p)
    (ne : q ≠ p) : q ∉ L j := fun hj =>
  ne ((h.tiling.disjoint hj hp (start_mem_block j q) hq).2)

/-- The lists after `split_block` on the block of order `k + 1` at `p`. -/
def splitLists (L : Lists) (k p : Nat) : Lists :=
  let L₁ := update L (k + 1) ((L (k + 1)).erase p)
  let L₂ := update L₁ k ((L₁ k).orderedInsert (· ≤ ·) p)
  update L₂ k ((L₂ k).orderedInsert (· ≤ ·) (p + 2 ^ k))

theorem splitLists_tiles (h : Tiled s L F) (p : Nat) :
    tiles (splitLists L k p) = put (put (take (tiles L) (k + 1) p) k p) k (p + 2 ^ k) := by
  rw [splitLists, tiles_insert, tiles_insert, tiles_erase (h.holds.nodup (k + 1))]

theorem splitBlock (h : Tiled s L F) {slot : Slot} (hp : p ∈ L (k + 1))
    (inb : slot.inBounds s.nrPages = true) (at_slot : s.slots slot = some p)
    (budget : s.nrPages < fuel) :
    ∃ r s', (splitBlock fuel slot (k + 1)).run s = .ok (r, s') ∧ s'.nrPages = s.nrPages ∧
      Tiled s' (splitLists L k p) F := by
  have hk := h.order_lt hp
  have al := h.aligned hp
  have pos := Nat.two_pow_pos k
  have mid : p + 2 ^ k ∈ block (k + 1) p := by
    rw [block_split]; exact .inr (start_mem_block k _)
  have inside : ∀ {s' : State}, s'.nrPages = s.nrPages → ∀ x ∈ F, x < s'.nrPages :=
    fun e x hx => e.symm ▸ h.inside x hx
  obtain ⟨s₁, run₁, nr₁, holds₁⟩ := h.holds.removeBlock hk hp budget
  have out₁ : ∀ j, p ∉ update L (k + 1) ((L (k + 1)).erase p) j := by
    intro j
    by_cases e : j = k + 1
    · subst e
      rw [update_self]
      exact (h.holds.nodup (k + 1)).not_mem_erase
    · rw [update_of_ne e]
      exact fun hj => e (h.holds.apart hj hp)
  obtain ⟨slot₂, s₂, run₂, nr₂, holds₂, _⟩ := holds₁.insertBlock (k := k) (by omega)
    (by rw [nr₁]; exact h.holds.bounded _ p hp) out₁ (nr₁ ▸ budget)
  have out₂ : ∀ j, p + 2 ^ k ∉ update (update L (k + 1) ((L (k + 1)).erase p)) k
      ((update L (k + 1) ((L (k + 1)).erase p) k).orderedInsert (· ≤ ·) p) j := by
    intro j hj
    have old : p + 2 ^ k ∈ L j := by
      change p + 2 ^ k ∈ tiles _ j at hj
      rw [tiles_insert, tiles_erase (h.holds.nodup (k + 1)), mem_put, mem_take] at hj
      rcases hj with hj | ⟨_, e⟩
      · exact hj.1
      · omega
    exact h.not_start hp mid (by omega) old
  obtain ⟨slot₃, s₃, run₃, nr₃, holds₃, _⟩ := holds₂.insertBlock (k := k) (p := p + 2 ^ k)
    (by omega) (by rw [nr₂, nr₁]; exact h.block_lt hp mid) out₂ ((nr₂.trans nr₁) ▸ budget)
  have nr : s₃.nrPages = s.nrPages := by rw [nr₃, nr₂, nr₁]
  refine ⟨s₃.slots slot, s₃, ?_, nr, holds₃, ?_, inside nr⟩
  · rw [Buddy.splitBlock, bind_ok (load_run inb), at_slot]
    dsimp only
    rw [bind_ok (assertThat_run (aligned_iff.mpr al)), bind_ok (assertThat_run (by simp)),
      bind_ok run₁, Nat.add_sub_cancel, bind_ok run₂, pagesPerBlock_eq, bind_ok run₃,
      load_run (by rw [nr]; exact inb)]
  · exact h.splitLists_tiles p ▸ h.tiling.split hp

/-- The lists after `merge_block` on the block of order `k` at `p`. -/
def mergeLists (L : Lists) (k p : Nat) : Lists :=
  let L₁ := update L k ((L k).erase p)
  let L₂ := update L₁ k ((L₁ k).erase (buddy k p))
  update L₂ (k + 1) ((L₂ (k + 1)).orderedInsert (· ≤ ·) (parent k p))

theorem mergeLists_tiles (h : Tiled s L F) (p : Nat) :
    tiles (mergeLists L k p) =
      put (take (take (tiles L) k p) k (buddy k p)) (k + 1) (parent k p) := by
  have nodup := h.holds.nodup k
  rw [mergeLists, tiles_insert, tiles_erase, tiles_erase nodup]
  rw [update_self]
  exact nodup.erase p

theorem mergeBlock (h : Tiled s L F) {slot : Slot} (hk : k < maxOrder - 1) (hp : p ∈ L k)
    (hb : buddy k p ∈ L k) (inb : slot.inBounds s.nrPages = true)
    (at_slot : s.slots slot = some p) (budget : s.nrPages < fuel) :
    ∃ slot' s', (mergeBlock fuel slot k).run s = .ok (slot', s') ∧ s'.nrPages = s.nrPages ∧
      Tiled s' (mergeLists L k p) F ∧ slot'.inBounds s'.nrPages = true ∧
      s'.slots slot' = some (parent k p) ∧
      PointsAt (mergeLists L k p) (k + 1) slot' (parent k p) := by
  have al := h.aligned hp
  have ne := buddy_ne al
  have nodup := h.holds.nodup k
  have hk' := h.order_lt hp
  have bud := buddyOf_eq_some hk' al (h.holds.bounded k _ hb)
  obtain ⟨s₁, run₁, nr₁, holds₁⟩ := h.holds.removeBlock hk' hp budget
  have still : buddy k p ∈ update L k ((L k).erase p) k := by
    rw [update_self]
    exact nodup.mem_erase_iff.mpr ⟨ne, hb⟩
  obtain ⟨s₂, run₂, nr₂, holds₂⟩ := holds₁.removeBlock hk' still (nr₁ ▸ budget)
  have start : parent k p = p ∨ parent k p = buddy k p := by
    rw [parent]; exact min_choice p (buddy k p)
  have lower : (if p < buddy k p then p else buddy k p) = parent k p := by
    rw [parent, Nat.min_def]; split_ifs <;> omega
  have out : ∀ j, parent k p ∉ update (update L k ((L k).erase p)) k
      ((update L k ((L k).erase p) k).erase (buddy k p)) j := by
    intro j hj
    change parent k p ∈ tiles _ j at hj
    rw [tiles_erase (holds₁.nodup k), tiles_erase nodup, mem_take, mem_take] at hj
    obtain ⟨⟨old, n₁⟩, n₂⟩ := hj
    rcases start with e | e <;> rw [e] at old n₁ n₂
    · exact n₁ ⟨h.holds.apart old hp, rfl⟩
    · exact n₂ ⟨h.holds.apart old hb, rfl⟩
  have bound : parent k p < s₂.nrPages := by
    rw [nr₂, nr₁]
    rcases start with e | e <;> rw [e]
    · exact h.holds.bounded k _ hp
    · exact h.holds.bounded k _ hb
  obtain ⟨slot₃, s₃, run₃, nr₃, holds₃, inb₃, at₃, place₃⟩ := holds₂.insertBlock (k := k + 1)
    (by omega) bound out ((nr₂.trans nr₁) ▸ budget)
  have nr : s₃.nrPages = s.nrPages := by rw [nr₃, nr₂, nr₁]
  refine ⟨slot₃, s₃, ?_, nr, ⟨holds₃, ?_, fun x hx => nr ▸ h.inside x hx⟩, inb₃, at₃, ?_⟩
  · rw [Buddy.mergeBlock, bind_ok (load_run inb), at_slot]
    dsimp only
    rw [bind_ok (assertThat_run (aligned_iff.mpr al)), bind_ok (run_get_eq s), bud,
      bind_ok run₁, bind_ok run₂]
    dsimp only
    rw [lower, run₃]
  · exact h.mergeLists_tiles p ▸ h.tiling.merge hk hp hb
  · rw [place₃]
    exact pointsAt_insert (update_self _ _ _)

end Tiled
end Infos.Mm.Buddy
