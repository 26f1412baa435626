import Infos.Mm.BuddyTiling

/-!
# What the four operations do to the free pages

Each operation runs without a fault from a sound state, within a budget above
the number of descriptors, and ends in a sound state.
-/
namespace Infos.Mm.Buddy
open Infos.Lib Function Set

/-- Between operations: the lists tile the free pages and no two buddies are both free. -/
structure Sound (s : State) (L : Lists) (F : Set Nat) : Prop extends Tiled s L F where
  noPairs : NoPairs (maxOrder - 1) (tiles L)

section Loads
variable {s : State} {L : Lists} {F : Set Nat} {k x fuel : Nat}

theorem Holds.area_eq (h : Holds s L) (hk : k < maxOrder) : s.slots (.area k) = (L k).head? := by
  have chain := h.chain k hk
  cases e : L k with
  | nil => rw [e] at chain; exact chain
  | cons p ps => rw [e] at chain; exact chain.1

theorem Holds.load_area (h : Holds s L) (hk : k < maxOrder) :
    (load (.area k)).run s = .ok ((L k).head?, s) := by
  rw [load_run (area_inBounds _ hk), h.area_eq hk]

theorem mem_block_zero {q : Nat} : x ∈ block 0 q ↔ x = q := by
  rw [mem_block]; omega

end Loads

/-! ### alloc_pages -/

section Alloc
variable {s : State} {L : Lists} {F : Set Nat} {order fuel : Nat}

theorem Holds.findOrder (h : Holds s L) {d : Nat} (hd : order + d < maxOrder)
    (budget : maxOrder ≤ order + d + fuel) :
    (∃ e, (findOrder order fuel d).run s = .ok (some e, s) ∧ d ≤ e ∧ order + e < maxOrder ∧
      L (order + e) ≠ [] ∧ ∀ i, d ≤ i → i < e → L (order + i) = []) ∨
    ((findOrder order fuel d).run s = .ok (none, s) ∧
      ∀ j, order + d ≤ j → j < maxOrder → L j = []) := by
  induction fuel generalizing d with
  | zero => omega
  | succ fuel ih =>
      rw [Buddy.findOrder, bind_ok (h.load_area hd)]
      cases e : L (order + d) with
      | cons p ps =>
          refine .inl ⟨d, rfl, le_rfl, hd, by simp [e], fun i lo hi => ?_⟩
          omega
      | nil =>
          dsimp only [List.head?_nil]
          by_cases last : order + (d + 1) ≥ maxOrder
          · rw [if_pos last]
            refine .inr ⟨rfl, fun j lo hi => ?_⟩
            rw [show j = order + d by omega, e]
          · rw [if_neg last]
            have here : ∀ i, d ≤ i → ¬ d + 1 ≤ i → L (order + i) = [] := fun i lo hi => by
              rw [show i = d by omega, e]
            rcases ih (d := d + 1) (by omega) (by omega) with
              ⟨e', run, lo, hi, ne, empty⟩ | ⟨run, empty⟩
            · refine .inl ⟨e', run, by omega, hi, ne, fun i lo' hi' => ?_⟩
              by_cases c : d + 1 ≤ i
              · exact empty i c hi'
              · exact here i lo' c
            · refine .inr ⟨run, fun j lo hi => ?_⟩
              by_cases c : order + (d + 1) ≤ j
              · exact empty j c hi
              · rw [show j = order + d by omega, e]

theorem Tiled.splitDown (h : Tiled s L F) {d p : Nat} {ps : List Nat}
    (head : L (order + d) = p :: ps) (empty : ∀ i < d, L (order + i) = [])
    (pairs : PairsOnlyAt (maxOrder - 1) p (tiles L)) (budget : s.nrPages < fuel) :
    ∃ s' L' qs, (splitDown fuel order d).run s = .ok ((), s') ∧ s'.nrPages = s.nrPages ∧
      Tiled s' L' F ∧ L' order = p :: qs ∧ PairsOnlyAt (maxOrder - 1) p (tiles L') := by
  induction d generalizing s L ps with
  | zero => exact ⟨s, L, ps, rfl, rfl, h, head, pairs⟩
  | succ d ih =>
      have hp : p ∈ L (order + d + 1) := by
        rw [show order + d + 1 = order + (d + 1) by omega, head]
        exact List.mem_cons_self
      have hk := h.order_lt hp
      have at_area : s.slots (.area (order + d + 1)) = some p := by
        rw [h.holds.area_eq hk, show order + d + 1 = order + (d + 1) by omega, head]
        rfl
      obtain ⟨r, s₁, run₁, nr₁, tiled₁⟩ := h.splitBlock hp (area_inBounds _ hk) at_area budget
      have below : L (order + d) = [] := empty d (Nat.lt_succ_self d)
      have head₁ : Tiled.splitLists L (order + d) p (order + d) = [p, p + 2 ^ (order + d)] := by
        have pos := Nat.two_pow_pos (order + d)
        simp only [Tiled.splitLists, update_self, update_of_ne (Nat.ne_of_lt (Nat.lt_succ_self _)),
          below, List.orderedInsert_nil, List.orderedInsert_cons]
        rw [if_neg (by omega)]
      have empty₁ : ∀ i < d, Tiled.splitLists L (order + d) p (order + i) = [] := by
        intro i hi
        simp only [Tiled.splitLists]
        rw [update_of_ne (by omega), update_of_ne (by omega), update_of_ne (by omega)]
        exact empty i (by omega)
      have pairs₁ : PairsOnlyAt (maxOrder - 1) p (tiles (Tiled.splitLists L (order + d) p)) := by
        rw [h.splitLists_tiles]
        exact pairs.split h.tiling (h.aligned hp) (start_mem_block _ p)
      obtain ⟨s', L', qs, run', nr', rest⟩ := ih tiled₁ head₁ empty₁ pairs₁ (nr₁ ▸ budget)
      refine ⟨s', L', qs, ?_, nr'.trans nr₁, rest⟩
      rw [Buddy.splitDown]
      exact (bind_ok run₁).trans run'

/-- `alloc_pages` fails only when every list from its order up is empty. Otherwise it
returns the start of the first block of the smallest such list that is not. -/
theorem Sound.allocPages (h : Sound s L F) (order : Nat) (budget : s.nrPages + maxOrder < fuel) :
    ((allocPages fuel order).run s = .ok (none, s) ∧
      ∀ j, order ≤ j → j < maxOrder → L j = []) ∨
    ∃ j p ps s' L', order ≤ j ∧ j < maxOrder ∧ L j = p :: ps ∧
      (∀ i, order ≤ i → i < j → L i = []) ∧
      (allocPages fuel order).run s = .ok (some p, s') ∧ s'.nrPages = s.nrPages ∧
      Sound s' L' (F \ block order p) := by
  by_cases high : order ≥ maxOrder
  · left
    rw [Buddy.allocPages, if_pos high]
    exact ⟨rfl, fun j lo hi => by omega⟩
  rw [Buddy.allocPages, if_neg high]
  rcases h.holds.findOrder (by omega : order + 0 < maxOrder)
      (by omega : maxOrder ≤ order + 0 + fuel) with
    ⟨d, run, _, hi, ne, empty⟩ | ⟨run, empty⟩
  · right
    obtain ⟨p, ps, head⟩ := List.exists_cons_of_ne_nil ne
    obtain ⟨s₁, L₁, qs, run₁, nr₁, tiled₁, head₁, pairs₁⟩ := h.toTiled.splitDown head
      (fun i hi => empty i (Nat.zero_le i) hi) (h.noPairs.onlyAt p)
      (by omega : s.nrPages < fuel)
    have hp : p ∈ L₁ order := by rw [head₁]; exact List.mem_cons_self
    have hk := tiled₁.order_lt hp
    obtain ⟨s₂, run₂, nr₂, holds₂⟩ := tiled₁.holds.removeBlock hk hp
      (by omega : s₁.nrPages < fuel)
    have sets := tiles_erase (tiled₁.holds.nodup order) p
    refine ⟨order + d, p, ps, s₂, _, Nat.le_add_right _ _, hi, head, fun i lo hi => ?_, ?_,
      nr₂.trans nr₁, ⟨holds₂, ?_, fun x hx => ?_⟩, ?_⟩
    · obtain ⟨i, rfl⟩ := Nat.exists_eq_add_of_le lo
      exact empty i (Nat.zero_le i) (by omega)
    · rw [bind_ok run]
      dsimp only
      rw [bind_ok run₁, bind_ok (tiled₁.holds.load_area hk), head₁, List.head?_cons, bind_ok run₂]
      rfl
    · exact sets ▸ tiled₁.tiling.take hp
    · rw [nr₂]; exact tiled₁.inside x hx.1
    · exact sets ▸ pairs₁.take tiled₁.tiling hp (start_mem_block _ p)
  · left
    exact ⟨by rw [bind_ok run]; rfl, fun j lo hi => empty j (by omega) hi⟩

end Alloc

/-! ### free_pages -/

section Free
variable {s : State} {L : Lists} {F : Set Nat} {k p fuel : Nat}

/-- A free block that the scan stops at: it starts before the last page of the block being
freed and holds its first or its last page. -/
def Caught (p k ord q : Nat) : Prop :=
  q < p + 2 ^ k - 1 ∧ (p ∈ block ord q ∨ p + 2 ^ k - 1 ∈ block ord q)

theorem overlaps_iff {ord q : Nat} :
    overlaps p k q ord = true ↔ p ∈ block ord q ∨ p + 2 ^ k - 1 ∈ block ord q := by
  simp only [overlaps, pagesPerBlock_eq, Bool.or_eq_true, Bool.and_eq_true, decide_eq_true_eq,
    mem_block, gt_iff_lt]

theorem not_caught {ord q : Nat} (h : Disjoint (block k p) F) (sub : block ord q ⊆ F) :
    ¬ Caught p k ord q := by
  have pos := Nat.two_pow_pos k
  rintro ⟨_, first | last⟩
  · exact disjoint_left.mp h (start_mem_block k p) (sub first)
  · exact disjoint_left.mp h (mem_block.mpr ⟨by omega, by omega⟩) (sub last)

/-- The scan of one list. The blocks behind the first that is not looked at start later. -/
theorem Holds.checkList (h : Holds s L) {ord : Nat} {slot : Slot} {ys : List Nat}
    (chain : Chain Slot.next s.slots slot ys) (ascending : ys.Pairwise (· < ·))
    (sub : ∀ q ∈ ys, q ∈ L ord) (inb : slot.inBounds s.nrPages = true)
    (budget : ys.length < fuel) :
    (∃ q ∈ ys, Caught p k ord q) ∧ (checkList p k ord fuel slot).run s = .error .assertion ∨
    (∀ q ∈ ys, ¬ Caught p k ord q) ∧ (checkList p k ord fuel slot).run s = .ok ((), s) := by
  induction ys generalizing slot fuel with
  | nil =>
      obtain ⟨fuel, rfl⟩ := Nat.exists_eq_add_one_of_ne_zero (by omega : fuel ≠ 0)
      rw [Buddy.checkList, bind_ok (load_run inb), show s.slots slot = none from chain]
      exact .inr ⟨fun q hq => absurd hq List.not_mem_nil, rfl⟩
  | cons q ys ih =>
      obtain ⟨fuel, rfl⟩ := Nat.exists_eq_add_one_of_ne_zero (by omega : fuel ≠ 0)
      obtain ⟨later, ascending⟩ := List.pairwise_cons.mp ascending
      rw [Buddy.checkList, bind_ok (load_run inb), chain.1]
      dsimp only
      rw [pagesPerBlock_eq]
      split_ifs with before
      · cases hit : overlaps p k q ord with
        | true => exact .inl ⟨⟨q, List.mem_cons_self, before, overlaps_iff.mp hit⟩, rfl⟩
        | false =>
            have apart : ¬ Caught p k ord q := fun caught => by
              rw [overlaps_iff.mpr caught.2] at hit
              cases hit
            rw [bind_ok (assertThat_run (by rfl))]
            rcases ih chain.2 ascending (fun r hr => sub r (List.mem_cons_of_mem q hr))
              (h.next_inBounds (sub q List.mem_cons_self)) (by simpa using budget) with
              ⟨⟨r, hr, caught⟩, run⟩ | ⟨none, run⟩
            · exact .inl ⟨⟨r, List.mem_cons_of_mem q hr, caught⟩, run⟩
            · exact .inr ⟨List.forall_mem_cons.mpr ⟨apart, none⟩, run⟩
      · refine .inr ⟨List.forall_mem_cons.mpr ⟨?_, ?_⟩, rfl⟩
        · exact fun caught => before caught.1
        · exact fun r hr caught => before ((later r hr).trans caught.1)

theorem Holds.checkNotFree (h : Holds s L) (budget : s.nrPages < fuel) {n : Nat}
    (hn : n ≤ maxOrder) :
    (∃ ord < n, ∃ q ∈ L ord, Caught p k ord q) ∧
      (checkNotFree fuel p k n).run s = .error .assertion ∨
    (∀ ord < n, ∀ q ∈ L ord, ¬ Caught p k ord q) ∧
      (checkNotFree fuel p k n).run s = .ok ((), s) := by
  induction n with
  | zero => exact .inr ⟨fun ord lt => absurd lt (Nat.not_lt_zero ord), rfl⟩
  | succ n ih =>
      have len := h.length_le n
      rw [Buddy.checkNotFree]
      rcases h.checkList (p := p) (k := k) (h.chain n hn) (h.ascending n) (fun _ hq => hq)
        (area_inBounds _ hn) (Nat.lt_of_le_of_lt len budget) with ⟨⟨q, hq, caught⟩, run⟩ | ⟨none, run⟩
      · exact .inl ⟨⟨n, Nat.lt_succ_self n, q, hq, caught⟩, bind_error run⟩
      · rw [bind_ok run]
        rcases ih (Nat.le_of_succ_le hn) with ⟨⟨ord, lt, found⟩, run'⟩ | ⟨none', run'⟩
        · exact .inl ⟨⟨ord, Nat.lt_succ_of_lt lt, found⟩, run'⟩
        · refine .inr ⟨?_, run'⟩
          intro ord lt q hq
          rcases Nat.lt_succ_iff_lt_or_eq.mp lt with below | rfl
          · exact none' ord below q hq
          · exact none q hq

theorem Tiled.checkNotFree (h : Tiled s L F) (apart : Disjoint (block k p) F)
    (budget : s.nrPages < fuel) : (checkNotFree fuel p k maxOrder).run s = .ok ((), s) := by
  rcases h.holds.checkNotFree (p := p) (k := k) budget le_rfl with
    ⟨⟨ord, _, q, hq, caught⟩, _⟩ | ⟨_, run⟩
  · exact absurd caught (not_caught apart (h.tiling.subset hq))
  · exact run

theorem Tiled.coalesce (h : Tiled s L F) {n x : Nat} (hp : p ∈ L k) (hx : x ∈ block k p)
    (pairs : PairsOnlyAt (maxOrder - 1) x (tiles L)) (budget : s.nrPages < fuel)
    (enough : maxOrder ≤ k + n) :
    ∃ s' L', (coalesce fuel n (buddyOf s.nrPages p k) k).run s = .ok ((), s') ∧
      s'.nrPages = s.nrPages ∧ Sound s' L' F := by
  induction n generalizing s L k p with
  | zero => have := h.order_lt hp; omega
  | succ n ih =>
      have al := h.aligned hp
      have hk := h.order_lt hp
      rw [Buddy.coalesce]
      by_cases top : k < maxOrder - 1
      · rw [if_pos top]
        by_cases hb : buddy k p ∈ L k
        · obtain ⟨xs, ys, split⟩ := List.append_of_mem hb
          have bud := buddyOf_eq_some hk al (h.holds.bounded k _ hb)
          have chain := h.holds.chain k hk
          rw [split] at chain
          have inb := h.holds.slotAfter_inBounds hk split
          have back : buddy k (buddy k p) ∈ L k := by rwa [buddy_buddy al]
          obtain ⟨slot, s₁, run₁, nr₁, tiled₁, inb₁, at₁, -⟩ :=
            h.mergeBlock top hb back inb chain.mem_slotAfter budget
          have hx₁ : x ∈ block (k + 1) (parent k (buddy k p)) := by
            rw [parent_buddy al, block_parent al]; exact .inl hx
          have pairs₁ : PairsOnlyAt (maxOrder - 1) x
              (tiles (Tiled.mergeLists L k (buddy k p))) := by
            rw [h.mergeLists_tiles]; exact pairs.merge hx₁
          have hp₁ : parent k (buddy k p) ∈ Tiled.mergeLists L k (buddy k p) (k + 1) := by
            change parent k (buddy k p) ∈ tiles _ (k + 1)
            rw [h.mergeLists_tiles, mem_put]
            exact .inr ⟨rfl, rfl⟩
          obtain ⟨s', L', run', nr', sound'⟩ :=
            ih tiled₁ hp₁ hx₁ pairs₁ (nr₁ ▸ budget) (by omega)
          refine ⟨s', L', ?_, nr'.trans nr₁, sound'⟩
          rw [bud, bind_ok (h.holds.find_mem hk split budget), bind_ok (load_run inb),
            chain.mem_slotAfter]
          dsimp only
          rw [bind_ok run₁, bind_ok (load_run inb₁), at₁]
          exact (bind_ok (run_get_eq s₁)).trans run'
        · have absent : ∀ q ∈ L k, some q ≠ buddyOf s.nrPages p k := fun q hq e =>
            hb (buddyOf_some hk al e.symm ▸ hq)
          refine ⟨s, L, ?_, rfl, h, pairs.noPairs h.tiling hp hx fun _ => hb⟩
          rw [bind_ok (h.holds.find_none hk absent budget), bind_ok (h.holds.last_slot hk)]
          rfl
      · rw [if_neg top]
        exact ⟨s, L, rfl, rfl, h, pairs.noPairs h.tiling hp hx fun lt => absurd lt top⟩

/-- `free_pages` on an aligned block with no free page gives exactly its pages back. -/
theorem Sound.freePages (h : Sound s L F) (hk : k < maxOrder) (al : 2 ^ k ∣ p)
    (hp : p + 2 ^ k ≤ s.nrPages) (apart : Disjoint (block k p) F)
    (budget : s.nrPages + maxOrder < fuel) :
    ∃ s' L', (freePages fuel p k).run s = .ok ((), s') ∧ s'.nrPages = s.nrPages ∧
      Sound s' L' (F ∪ block k p) := by
  have pos := Nat.two_pow_pos k
  have start := start_mem_block k p
  have out : ∀ j, p ∉ L j := fun j hj =>
    disjoint_left.mp apart start (h.tiling.subset hj (start_mem_block j p))
  obtain ⟨slot, s₁, run₁, nr₁, holds₁, _⟩ := h.holds.insertBlock hk (by omega) out
    (by omega : s.nrPages < fuel)
  have sets := tiles_insert L k p
  have tiled₁ : Tiled s₁ (update L k ((L k).orderedInsert (· ≤ ·) p)) (F ∪ block k p) := by
    refine ⟨holds₁, ?_, fun x hx => ?_⟩
    · rw [sets]; exact h.tiling.put (Nat.le_pred_of_lt hk) al apart
    · rw [nr₁]
      rcases hx with old | new
      · exact h.inside x old
      · have := mem_block.mp new; omega
  have hp₁ : p ∈ update L k ((L k).orderedInsert (· ≤ ·) p) k := by
    rw [update_self, List.mem_orderedInsert]; exact .inl rfl
  obtain ⟨s', L', run', nr', sound'⟩ := tiled₁.coalesce hp₁ start
    (sets ▸ h.noPairs.put) (by omega : s₁.nrPages < fuel) (by omega : maxOrder ≤ k + fuel)
  refine ⟨s', L', ?_, nr'.trans nr₁, sound'⟩
  rw [Buddy.freePages, bind_ok (assertThat_run (aligned_iff.mpr al)),
    bind_ok (h.toTiled.checkNotFree apart (by omega)), bind_ok run₁]
  exact (bind_ok (run_get_eq s₁)).trans run'

end Free

/-! ### reserve_page -/

section Reserve
variable {s : State} {L : Lists} {F : Set Nat} {k x fuel : Nat}

/-- The tile around `x`, if any, has order at most `k`. -/
def TileBelow (k x : Nat) (L : Lists) : Prop := ∀ j q, q ∈ L j → x ∈ block j q → j ≤ k

/-- What one stage of `reserve_page` leaves behind. -/
structure ReserveStage (s s' : State) (L' : Lists) (F : Set Nat) (k x : Nat) : Prop where
  nr : s'.nrPages = s.nrPages
  tiled : Tiled s' L' F
  pairs : PairsOnlyAt (maxOrder - 1) x (tiles L')
  below : TileBelow k x L'
  idle : x ∉ F → s' = s

theorem Tiled.reserveMiss (h : Tiled s L F) (pairs : PairsOnlyAt (maxOrder - 1) x (tiles L))
    (below : TileBelow (k + 1) x L) (rest : ∀ q ∈ L (k + 1), x ∉ block (k + 1) q) :
    ReserveStage s s L F k x where
  nr := rfl
  tiled := h
  pairs := pairs
  below := by
    intro j q hq hx
    have le := below j q hq hx
    have other : j ≠ k + 1 := by
      rintro rfl
      exact rest q hq hx
    omega
  idle _ := rfl

theorem Tiled.reserveHit (h : Tiled s L F) (pairs : PairsOnlyAt (maxOrder - 1) x (tiles L))
    {q : Nat} (hq : q ∈ L (k + 1)) (hx : x ∈ block (k + 1) q) (nr : s'.nrPages = s.nrPages)
    (tiled : Tiled s' (Tiled.splitLists L k q) F) :
    ReserveStage s s' (Tiled.splitLists L k q) F k x where
  nr := nr
  tiled := tiled
  pairs := by
    rw [h.splitLists_tiles]
    exact pairs.split h.tiling (h.aligned hq) hx
  below := by
    intro j r hr hxr
    have hr' : r ∈ tiles (Tiled.splitLists L k q) j := hr
    rw [h.splitLists_tiles] at hr'
    simp only [mem_put, mem_take, mem_tiles] at hr'
    rcases hr' with (⟨old, other⟩ | ⟨rfl, _⟩) | ⟨rfl, _⟩
    · exact absurd (h.tiling.disjoint old hq hxr hx) other
    · exact le_rfl
    · exact le_rfl
  idle out := absurd (h.tiling.subset hq hx) out

theorem Tiled.reserveScan (h : Tiled s L F) (pairs : PairsOnlyAt (maxOrder - 1) x (tiles L))
    (below : TileBelow (k + 1) x L) (budget : s.nrPages < fuel)
    {n : Nat} {slot : Slot} {xs ys : List Nat} (split : L (k + 1) = xs ++ ys)
    (chain : Chain Slot.next s.slots slot ys) (inb : slot.inBounds s.nrPages = true)
    (passed : ∀ q ∈ xs, x ∉ block (k + 1) q) (enough : ys.length < n) :
    ∃ s' L', (reserveScan fuel x (k + 1) n slot).run s = .ok ((), s') ∧
      ReserveStage s s' L' F k x := by
  have done : (∀ q ∈ ys, x ∉ block (k + 1) q) → ReserveStage s s L F k x := by
    intro rest
    apply h.reserveMiss pairs below
    intro q hq
    rw [split] at hq
    exact (List.mem_append.mp hq).elim (passed q) (rest q)
  induction ys generalizing slot xs n with
  | nil =>
      obtain ⟨n, rfl⟩ := Nat.exists_eq_add_one_of_ne_zero (by omega : n ≠ 0)
      refine ⟨s, L, ?_, done (fun q hq => absurd hq List.not_mem_nil)⟩
      rw [Buddy.reserveScan, bind_ok (load_run inb), show s.slots slot = none from chain]
      rfl
  | cons q ys ih =>
      obtain ⟨n, rfl⟩ := Nat.exists_eq_add_one_of_ne_zero (by omega : n ≠ 0)
      have hq : q ∈ L (k + 1) := by rw [split]; simp
      rw [Buddy.reserveScan, bind_ok (load_run inb), chain.1]
      dsimp only
      by_cases ge : x ≥ q
      · rw [if_pos ge]
        by_cases hx : x ∈ block (k + 1) q
        · have inside := mem_block.mp hx
          rw [if_pos (by rw [pagesPerBlock_eq]; simpa using inside)]
          obtain ⟨r, s', run', nr', tiled'⟩ := h.splitBlock hq inb chain.1 budget
          exact ⟨s', _, bind_ok run', h.reserveHit pairs hq hx nr' tiled'⟩
        · rw [if_neg (by rw [pagesPerBlock_eq]; simpa [mem_block] using hx)]
          refine ih (show L (k + 1) = (xs ++ [q]) ++ ys by rw [split]; simp) chain.2
            (h.holds.next_inBounds hq) ?_ (by simpa using enough) ?_
          · intro r hr
            rcases List.mem_append.mp hr with old | last
            · exact passed r old
            · rw [List.mem_singleton.mp last]; exact hx
          · intro rest
            apply done
            intro r hr
            rcases List.mem_cons.mp hr with rfl | later
            · exact hx
            · exact rest r later
      · rw [if_neg ge]
        refine ⟨s, L, rfl, done fun r hr hx => ?_⟩
        have asc := h.holds.ascending (k + 1)
        rw [split] at asc
        have := mem_block.mp hx
        rcases List.mem_cons.mp hr with rfl | later
        · omega
        · have := List.rel_of_pairwise_cons (List.pairwise_append.mp asc).2.1 later
          omega

theorem Tiled.reserveDown (h : Tiled s L F) (pairs : PairsOnlyAt (maxOrder - 1) x (tiles L))
    (below : TileBelow k x L) (hk : k < maxOrder) (budget : s.nrPages < fuel) :
    ∃ s' L', (reserveDown fuel x k).run s = .ok ((), s') ∧ ReserveStage s s' L' F 0 x := by
  induction k generalizing s L with
  | zero => exact ⟨s, L, rfl, rfl, h, pairs, below, fun _ => rfl⟩
  | succ k ih =>
      have len := h.holds.length_le (k + 1)
      obtain ⟨s₁, L₁, run₁, stage⟩ := h.reserveScan pairs below budget (n := fuel)
        (show L (k + 1) = [] ++ L (k + 1) from rfl) (h.holds.chain _ hk) (area_inBounds _ hk)
        (fun q hq => absurd hq List.not_mem_nil)
        (by omega)
      obtain ⟨s', L', run', stage'⟩ := ih stage.tiled stage.pairs stage.below (by omega)
        (stage.nr ▸ budget)
      refine ⟨s', L', ?_, stage'.nr.trans stage.nr, stage'.tiled, stage'.pairs, stage'.below,
        fun out => (stage'.idle out).trans (stage.idle out)⟩
      rw [Buddy.reserveDown, bind_ok run₁, run']

theorem Sound.reservePage (h : Sound s L F) (x : Nat) (budget : s.nrPages < fuel) :
    (x ∈ F ∧ ∃ s' L', (reservePage fuel x).run s = .ok (true, s') ∧ s'.nrPages = s.nrPages ∧
      Sound s' L' (F \ {x})) ∨
    (x ∉ F ∧ (reservePage fuel x).run s = .ok (false, s)) := by
  obtain ⟨s₁, L₁, run₁, stage⟩ := h.toTiled.reserveDown (k := maxOrder - 1) (x := x)
    (h.noPairs.onlyAt x) (fun j q hq _ => h.tiling.order hq) (by decide) budget
  have holds₁ := stage.tiled.holds
  have budget₁ : s₁.nrPages < fuel := stage.nr ▸ budget
  have zero : 0 < maxOrder := by decide
  have walk : (fun q => q == x) = fun q => some q == some x := by funext q; rfl
  by_cases hx : x ∈ F
  · refine .inl ⟨hx, ?_⟩
    obtain ⟨j, q, hq, hxq⟩ := (stage.tiled.tiling.cover x).mp hx
    have e : j = 0 := Nat.le_zero.mp (stage.below j q hq hxq)
    subst e
    have e' : x = q := mem_block_zero.mp hxq
    subst e'
    obtain ⟨xs, ys, split⟩ := List.append_of_mem (mem_tiles.mp hq)
    have chain := holds₁.chain 0 zero
    rw [split] at chain
    have inb := holds₁.slotAfter_inBounds zero split
    obtain ⟨s', run', nr', holds'⟩ := holds₁.removeBlock zero hq budget₁
    have sets := tiles_erase (holds₁.nodup 0) x
    have single : block 0 x = {x} := by ext y; rw [mem_block_zero]; rfl
    refine ⟨s', _, ?_, nr'.trans stage.nr, ⟨holds', ?_, fun y hy => ?_⟩, ?_⟩
    · rw [Buddy.reservePage, bind_ok run₁, walk, bind_ok (holds₁.find_mem zero split budget₁),
        bind_ok (load_run inb), chain.mem_slotAfter]
      exact bind_ok run'
    · rw [sets, ← single]; exact stage.tiled.tiling.take hq
    · rw [nr']; exact stage.tiled.inside y hy.1
    · rw [sets]; exact stage.pairs.take stage.tiled.tiling hq hxq
  · refine .inr ⟨hx, ?_⟩
    have same := stage.idle hx
    subst same
    have absent : ∀ q ∈ L₁ 0, some q ≠ some x := fun q hq e => by
      cases e
      exact hx (stage.tiled.tiling.subset hq (start_mem_block 0 _))
    rw [Buddy.reservePage, bind_ok run₁, walk, bind_ok (holds₁.find_none zero absent budget₁),
      bind_ok (holds₁.last_slot zero)]
    rfl

end Reserve

/-! ### init -/

section Init
variable {s : State} {L : Lists} {nr fuel c o : Nat}

theorem Iio_union_block (c o : Nat) : Iio o ∪ block c o = Iio (o + 2 ^ c) := by
  have pos := Nat.two_pow_pos c
  ext x
  simp only [mem_union, mem_Iio, mem_block]
  omega

theorem Sound.putNext (h : Sound s L (Iio o)) (hc : c < maxOrder) (al : 2 ^ c ∣ o)
    (fits : o + 2 ^ c ≤ s.nrPages) (alone : c < maxOrder - 1 → buddy c o ∉ L c)
    (budget : s.nrPages < fuel) :
    ∃ slot s', (insertBlock fuel o c).run s = .ok (slot, s') ∧ s'.nrPages = s.nrPages ∧
      Sound s' (update L c ((L c).orderedInsert (· ≤ ·) o)) (Iio (o + 2 ^ c)) := by
  have pos := Nat.two_pow_pos c
  have out : ∀ j, o ∉ L j := fun j hj =>
    absurd (h.tiling.subset hj (start_mem_block j o)) (lt_irrefl o)
  have apart : Disjoint (block c o) (Iio o) := by
    rw [disjoint_left]
    intro x hx lt
    exact absurd (mem_block.mp hx).1 (not_le.mpr lt)
  obtain ⟨slot, s', run, size, holds, _⟩ := h.holds.insertBlock hc (by omega) out budget
  have sets := tiles_insert L c o
  refine ⟨slot, s', run, size, ⟨holds, ?_, fun x hx => ?_⟩, ?_⟩
  · rw [sets, ← Iio_union_block]
    exact h.tiling.put (Nat.le_pred_of_lt hc) al apart
  · rw [size]; exact lt_of_lt_of_le hx fits
  · rw [sets]; exact h.noPairs.put_alone (fun q hq => h.aligned hq) al alone

/-- One order of `init` fills memory as far as its blocks reach. Below the top order that is
at most one block, so no two buddies are put in. -/
theorem Sound.initOrder (h : Sound s L (Iio o)) (size : s.nrPages = nr) (small : nr < 2 ^ 31)
    (hc : c < maxOrder) (al : 2 ^ c ∣ o) (ho : o ≤ nr)
    (short : c < maxOrder - 1 → nr < o + 2 ^ (c + 1) ∧ (L c = [] ∨ nr < o + 2 ^ c))
    (empty : ∀ j < c, L j = []) (budget : nr < fuel) {n : Nat} (enough : nr < o + n) :
    ∃ (s' : State) (L' : Lists) (o' : Nat),
      (initOrder fuel nr c n o).run s = .ok ((o' : Int), s') ∧ s'.nrPages = nr ∧
      Sound s' L' (Iio o') ∧ 2 ^ c ∣ o' ∧ o' ≤ nr ∧ nr < o' + 2 ^ c ∧ ∀ j < c, L' j = [] := by
  have pos := Nat.two_pow_pos c
  have top : 2 ^ c ≤ 65536 := Nat.pow_le_pow_right (n := 2) (by omega) (Nat.le_of_lt_succ hc)
  have sum : toUInt64 ((o : Int) + pagesPerBlock c) = o + 2 ^ c := by
    rw [pagesPerBlock_eq, ← Nat.cast_add, toUInt64_natCast (by omega)]
  induction n generalizing s L o with
  | zero => omega
  | succ n ih =>
      rw [Buddy.initOrder, sum]
      by_cases fits : o + 2 ^ c ≤ nr
      · rw [if_pos fits, if_neg (by omega), Int.toNat_natCast]
        have alone : c < maxOrder - 1 → buddy c o ∉ L c := fun lt hb => by
          rcases (short lt).2 with none | tight
          · rw [none] at hb; exact absurd hb List.not_mem_nil
          · omega
        obtain ⟨slot, s₁, run₁, nr₁, sound₁⟩ := h.putNext hc al (by omega) alone
          (by omega : s.nrPages < fuel)
        have short₁ : c < maxOrder - 1 → nr < o + 2 ^ c + 2 ^ (c + 1) ∧
            (update L c ((L c).orderedInsert (· ≤ ·) o) c = [] ∨ nr < o + 2 ^ c + 2 ^ c) := by
          intro lt
          have tight := (short lt).1
          rw [pow_succ] at tight ⊢
          exact ⟨by omega, .inr (by omega)⟩
        have empty₁ : ∀ j < c, update L c ((L c).orderedInsert (· ≤ ·) o) j = [] := fun j hj => by
          rw [update_of_ne (by omega)]; exact empty j hj
        have sum₁ : toUInt64 (((o + 2 ^ c : Nat) : Int) + pagesPerBlock c) = o + 2 ^ c + 2 ^ c := by
          rw [pagesPerBlock_eq, ← Nat.cast_add, toUInt64_natCast (by omega)]
        obtain ⟨s', L', o', run', rest⟩ := ih sound₁ (nr₁.trans size) (Nat.dvd_add al dvd_rfl) fits
          short₁ empty₁ (by omega) sum₁
        have next : toInt32 ((o : Int) + pagesPerBlock c) = ((o + 2 ^ c : Nat) : Int) := by
          rw [pagesPerBlock_eq, ← Nat.cast_add, toInt32_natCast (by omega)]
        refine ⟨s', L', o', ?_, rest⟩
        rw [bind_ok (assertThat_run (aligned_iff.mpr al)), bind_ok run₁, next, run']
      · rw [if_neg fits]
        exact ⟨s, L, o, rfl, size, h, al, ho, by omega, empty⟩

theorem Sound.initOrders (h : Sound s L (Iio o)) (size : s.nrPages = nr) (small : nr < 2 ^ 31)
    (budget : nr < fuel) {n : Nat} (hn : n < maxOrder) (al : 2 ^ n ∣ o) (ho : o ≤ nr)
    (short : n < maxOrder - 1 → nr < o + 2 ^ (n + 1)) (empty : ∀ j ≤ n, L j = []) :
    ∃ s' L', (initOrders fuel nr (n + 1) o).run s = .ok ((nr : Int), s') ∧ s'.nrPages = nr ∧
      Sound s' L' (Iio nr) := by
  induction n generalizing s L o with
  | zero =>
      obtain ⟨s₁, L₁, o₁, run₁, nr₁, sound₁, _, le₁, lt₁, _⟩ := h.initOrder size small hn al ho
        (fun lt => ⟨short lt, .inl (empty 0 le_rfl)⟩) (fun j hj => empty j hj.le) budget
        (n := fuel) (by omega)
      have full : o₁ = nr := by rw [pow_zero] at lt₁; omega
      subst full
      refine ⟨s₁, L₁, ?_, nr₁, sound₁⟩
      rw [Buddy.initOrders, bind_ok run₁, toUInt64_natCast (by omega), if_pos rfl]
      rfl
  | succ n ih =>
      obtain ⟨s₁, L₁, o₁, run₁, nr₁, sound₁, al₁, le₁, lt₁, empty₁⟩ := h.initOrder size small hn al
        ho (fun lt => ⟨short lt, .inl (empty _ le_rfl)⟩) (fun j hj => empty j hj.le) budget
        (n := fuel) (by omega)
      rw [Buddy.initOrders, bind_ok run₁, toUInt64_natCast (by omega)]
      by_cases full : o₁ = nr
      · subst full
        rw [if_pos rfl]
        exact ⟨s₁, L₁, rfl, nr₁, sound₁⟩
      · rw [if_neg full]
        exact ih sound₁ nr₁ (by omega) (pow_dvd_of_succ al₁) le₁ (fun _ => lt₁)
          fun j hj => empty₁ j (Nat.lt_succ_of_le hj)

theorem Sound.fresh (nr : Nat) : Sound (State.fresh nr) (fun _ => []) (Iio 0) where
  holds := Holds.fresh nr
  tiling := by
    have none : tiles (fun _ => []) = fun _ => (∅ : Set Nat) := by
      funext k; ext p; simp
    rw [none]
    exact (Tiling.empty _).congr_set (by ext x; simp)
  inside x hx := absurd hx (Nat.not_lt_zero x)
  noPairs k _ p hp := absurd hp List.not_mem_nil

theorem init_sound (small : nr < 2 ^ 31) (budget : nr < fuel) :
    ∃ s L, (init fuel nr).run (State.fresh nr) = .ok (true, s) ∧ s.nrPages = nr ∧
      Sound s L (Iio nr) := by
  have size : (State.fresh nr).nrPages = nr := rfl
  obtain ⟨s, L, run, size, sound⟩ := (Sound.fresh nr).initOrders size small budget
    (n := maxOrder - 1) (by decide) (dvd_zero _) (Nat.zero_le nr) (fun lt => absurd lt (lt_irrefl _))
    (fun _ _ => rfl)
  refine ⟨s, L, ?_, size, sound⟩
  rw [Buddy.init, bind_ok (show (Buddy.initOrders fuel nr maxOrder 0).run _ = _ from run),
    toUInt64_natCast (by omega), run_pure_eq, decide_eq_true rfl]

/-- From `2 ^ 31` pages on the `int` offset wraps at `2 ^ 31`, which ends the top order. -/
theorem Sound.initOrder_wrap (h : Sound s L (Iio o)) (size : s.nrPages = nr)
    (large : 2147483648 ≤ nr) (hnr : nr < 2 ^ 63) (al : 65536 ∣ o) (ho : o < 2147483648)
    (budget : nr < fuel) {n : Nat} (enough : nr < o + n) :
    ∃ s' L', (Buddy.initOrder fuel nr (maxOrder - 1) n o).run s = .ok (-2147483648, s') ∧
      s'.nrPages = nr ∧ Sound s' L' (Iio 2147483648) := by
  induction n generalizing s L o with
  | zero => omega
  | succ n ih =>
      have size₁ : pagesPerBlock (maxOrder - 1) = 65536 := by decide
      have sum : toUInt64 ((o : Int) + (65536 : Nat)) = o + 65536 := by
        rw [← Nat.cast_add, toUInt64_natCast (by omega)]
      obtain ⟨slot, s₁, run₁, nr₁, sound₁⟩ := h.putNext (c := maxOrder - 1) (by decide) al
        (by omega : o + 65536 ≤ s.nrPages) (fun lt => absurd lt (lt_irrefl _))
        (by omega : s.nrPages < fuel)
      rw [Buddy.initOrder, size₁, sum, if_pos (by omega), if_neg (by omega), Int.toNat_natCast,
        bind_ok (assertThat_run (aligned_iff.mpr al)), bind_ok run₁]
      by_cases last : o + 65536 = 2147483648
      · have wrap : toInt32 ((o : Int) + (65536 : Nat)) = -2147483648 := by
          rw [← Nat.cast_add, last]; decide
        obtain ⟨n, rfl⟩ := Nat.exists_eq_add_one_of_ne_zero (by omega : n ≠ 0)
        have stop : toUInt64 (-2147483648 + ((65536 : Nat) : Int)) = 18446744071562133504 := by
          decide
        rw [wrap, Buddy.initOrder, size₁, stop, if_neg (by omega)]
        exact ⟨s₁, _, rfl, nr₁.trans size, last ▸ sound₁⟩
      · have next : toInt32 ((o : Int) + (65536 : Nat)) = ((o + 65536 : Nat) : Int) := by
          rw [← Nat.cast_add, toInt32_natCast (by omega)]
        rw [next]
        exact ih sound₁ (nr₁.trans size) (Nat.dvd_add al dvd_rfl) (by omega) (by omega)

/-- A wrapped offset lets no smaller order put a block in. -/
theorem initOrders_wrapped (hnr : nr < 2 ^ 63) (budget : nr < fuel) {n : Nat}
    (hn : n < maxOrder) :
    (Buddy.initOrders fuel nr n (-2147483648)).run s = .ok (-2147483648, s) := by
  have miss : toUInt64 (-2147483648) ≠ nr := by
    have e : toUInt64 (-2147483648) = 18446744071562067968 := by decide
    omega
  induction n with
  | zero => rfl
  | succ n ih =>
      obtain ⟨fuel, rfl⟩ := Nat.exists_eq_add_one_of_ne_zero (by omega : fuel ≠ 0)
      have top : 2 ^ n ≤ 65536 := Nat.pow_le_pow_right (n := 2) (by omega)
        (Nat.le_of_lt_succ (Nat.lt_of_succ_lt hn))
      have stop : nr < toUInt64 (-2147483648 + (pagesPerBlock n : Int)) := by
        rw [pagesPerBlock_eq, toUInt64]; generalize 2 ^ n = m at top; omega
      have order : (Buddy.initOrder (fuel + 1) nr n (fuel + 1) (-2147483648)).run s =
          .ok (-2147483648, s) := by
        rw [Buddy.initOrder, if_neg (by omega)]; rfl
      rw [Buddy.initOrders, bind_ok order, if_neg miss]
      exact ih (by omega)

/-- Whatever `init` answers, it leaves the pages below `2 ^ 31` free in sound lists. -/
theorem init_sound_any (hnr : nr < 2 ^ 63) (budget : nr < fuel) :
    ∃ b s L, (init fuel nr).run (State.fresh nr) = .ok (b, s) ∧ s.nrPages = nr ∧
      Sound s L (Iio (min nr (2 ^ 31))) := by
  by_cases small : nr < 2 ^ 31
  · obtain ⟨s, L, run, size, sound⟩ := init_sound small budget
    exact ⟨true, s, L, run, size, by rwa [min_eq_left small.le]⟩
  · have fresh : (State.fresh nr).nrPages = nr := rfl
    obtain ⟨s, L, run, size, sound⟩ := (Sound.fresh nr).initOrder_wrap fresh (not_lt.mp small) hnr
      (dvd_zero _) (by decide) budget (n := fuel) (by omega)
    have miss : toUInt64 (-2147483648) ≠ nr := by
      have e : toUInt64 (-2147483648) = 18446744071562067968 := by decide
      omega
    have rest := initOrders_wrapped (s := s) hnr budget (by decide : maxOrder - 1 < maxOrder)
    refine ⟨false, s, L, ?_, size, by rwa [min_eq_right (by omega)]⟩
    have orders : (Buddy.initOrders fuel nr maxOrder 0).run (State.fresh nr) =
        .ok (-2147483648, s) := by
      rw [show maxOrder = (maxOrder - 1) + 1 from rfl, Buddy.initOrders]
      apply (bind_ok run).trans
      rw [if_neg miss, rest]
    rw [Buddy.init, bind_ok orders, run_pure_eq, decide_eq_false miss]

theorem initOrder_bounds {n : Nat} {offset offset' : Int} {s' : State}
    (run : (Buddy.initOrder fuel nr c n offset).run s = .ok (offset', s'))
    (lo : -2 ^ 31 ≤ offset) (hi : offset < 2 ^ 31) : -2 ^ 31 ≤ offset' ∧ offset' < 2 ^ 31 := by
  induction n generalizing s offset with
  | zero => cases run
  | succ n ih =>
      rw [Buddy.initOrder] at run
      split_ifs at run with fits neg
      · cases run
      · obtain ⟨_, s₁, _, run⟩ := of_bind_ok run
        obtain ⟨_, s₂, _, run⟩ := of_bind_ok run
        exact ih run (toInt32_bounds _).1 (toInt32_bounds _).2
      · cases run
        exact ⟨lo, hi⟩

theorem initOrders_bounds {n : Nat} {offset offset' : Int} {s' : State}
    (run : (Buddy.initOrders fuel nr n offset).run s = .ok (offset', s'))
    (lo : -2 ^ 31 ≤ offset) (hi : offset < 2 ^ 31) : -2 ^ 31 ≤ offset' ∧ offset' < 2 ^ 31 := by
  induction n generalizing s offset with
  | zero => cases run; exact ⟨lo, hi⟩
  | succ n ih =>
      rw [Buddy.initOrders] at run
      obtain ⟨mid, s₁, run₁, run⟩ := of_bind_ok run
      have bounds := initOrder_bounds run₁ lo hi
      split_ifs at run
      · cases run
        exact bounds
      · exact ih run bounds.1 bounds.2

theorem init_true_small {s' : State} (run : (Buddy.init fuel nr).run s = .ok (true, s'))
    (hnr : nr < 2 ^ 63) : nr < 2 ^ 31 := by
  rw [Buddy.init] at run
  obtain ⟨offset, s₁, run₁, run⟩ := of_bind_ok run
  obtain ⟨lo, hi⟩ := initOrders_bounds run₁ (by omega) (by omega)
  have full : toUInt64 offset = nr := by
    have flag := (Prod.mk.inj (Except.ok.inj run)).1
    simpa using flag
  rw [toUInt64] at full
  omega

end Init
end Infos.Mm.Buddy
