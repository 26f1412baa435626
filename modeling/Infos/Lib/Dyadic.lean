import Mathlib.Algebra.Ring.Parity
import Mathlib.Data.Nat.Basic
import Mathlib.Data.Set.Basic
import Mathlib.Data.Set.Lattice
import Mathlib.Order.CompletePartialOrder
import Mathlib.Order.Interval.Set.Basic
import Mathlib.Tactic.Ring

/-!
# Tilings by aligned power-of-two blocks

A tiling cuts a set of naturals into pairwise disjoint aligned blocks. When no
two buddies are both tiles it is the decomposition into maximal aligned blocks:
every aligned run inside the set lies in one tile, and the set alone determines
the tiles.
-/
namespace Infos.Lib
open Function Set

/-- The block of order `k` that starts at `p`. -/
def block (k p : Nat) : Set Nat := Ico p (p + 2 ^ k)

theorem mem_block {k p x : Nat} : x ∈ block k p ↔ p ≤ x ∧ x < p + 2 ^ k := Iff.rfl

theorem start_mem_block (k p : Nat) : p ∈ block k p :=
  ⟨le_rfl, Nat.lt_add_of_pos_right (Nat.two_pow_pos k)⟩

theorem last_mem_block (k p : Nat) : p + 2 ^ k - 1 ∈ block k p := by
  have pos := Nat.two_pow_pos k
  exact mem_block.mpr ⟨by omega, by omega⟩

/-- The other half of the parent block. -/
def buddy (k p : Nat) : Nat := if 2 ^ (k + 1) ∣ p then p + 2 ^ k else p - 2 ^ k

/-- The start of the parent block. -/
def parent (k p : Nat) : Nat := min p (buddy k p)

theorem mem_block_iff_div {k p x : Nat} (hp : 2 ^ k ∣ p) :
    x ∈ block k p ↔ x / 2 ^ k = p / 2 ^ k := by
  obtain ⟨q, rfl⟩ := hp
  have pos := Nat.two_pow_pos k
  rw [mem_block, Nat.mul_div_cancel_left q pos, Nat.div_eq_iff pos]
  constructor
  · rintro ⟨lo, hi⟩
    exact ⟨by rw [Nat.mul_comm]; exact lo, by rw [Nat.mul_comm q]; omega⟩
  · rintro ⟨lo, hi⟩
    rw [Nat.mul_comm q] at lo hi
    exact ⟨lo, by omega⟩

theorem odd_multiple {k p : Nat} (hp : 2 ^ k ∣ p) (hn : ¬ 2 ^ (k + 1) ∣ p) :
    ∃ q, p = 2 ^ (k + 1) * q + 2 ^ k := by
  obtain ⟨m, rfl⟩ := hp
  rcases Nat.even_or_odd' m with ⟨q, rfl | rfl⟩
  · exact absurd ⟨q, by rw [pow_succ, mul_assoc]⟩ hn
  · exact ⟨q, by rw [pow_succ]; ring⟩

theorem buddy_left {k p : Nat} (hp : 2 ^ (k + 1) ∣ p) : buddy k p = p + 2 ^ k := if_pos hp

theorem not_dvd_right {k p : Nat} (hp : 2 ^ (k + 1) ∣ p) : ¬ 2 ^ (k + 1) ∣ p + 2 ^ k := by
  intro h
  have := Nat.le_of_dvd (Nat.two_pow_pos k) ((Nat.dvd_add_right hp).mp h)
  have := Nat.pow_lt_pow_right (a := 2) (by omega) (Nat.lt_succ_self k)
  omega

theorem buddy_right {k p : Nat} (hp : 2 ^ (k + 1) ∣ p) : buddy k (p + 2 ^ k) = p := by
  rw [buddy, if_neg (not_dvd_right hp), Nat.add_sub_cancel]

theorem half_cases {k p : Nat} (hp : 2 ^ k ∣ p) :
    ∃ q, 2 ^ (k + 1) ∣ q ∧ parent k p = q ∧
      (p = q ∧ buddy k p = q + 2 ^ k ∨ p = q + 2 ^ k ∧ buddy k p = q) := by
  by_cases h : 2 ^ (k + 1) ∣ p
  · exact ⟨p, h, by rw [parent, buddy_left h]; omega, .inl ⟨rfl, buddy_left h⟩⟩
  · obtain ⟨q, rfl⟩ := odd_multiple hp h
    have left : 2 ^ (k + 1) ∣ 2 ^ (k + 1) * q := ⟨q, rfl⟩
    exact ⟨_, left, by rw [parent, buddy_right left]; omega, .inr ⟨rfl, buddy_right left⟩⟩

theorem pow_dvd_of_succ {k q : Nat} (hq : 2 ^ (k + 1) ∣ q) : 2 ^ k ∣ q :=
  (pow_dvd_pow 2 (Nat.le_succ k)).trans hq

theorem buddy_buddy {k p : Nat} (hp : 2 ^ k ∣ p) : buddy k (buddy k p) = p := by
  obtain ⟨q, hq, _, ⟨rfl, e⟩ | ⟨rfl, e⟩⟩ := half_cases hp
  · rw [e, buddy_right hq]
  · rw [e, buddy_left hq]

theorem buddy_ne {k p : Nat} (hp : 2 ^ k ∣ p) : buddy k p ≠ p := by
  have pos := Nat.two_pow_pos k
  obtain ⟨q, _, _, ⟨_, e⟩ | ⟨_, e⟩⟩ := half_cases hp <;> omega

theorem parent_buddy {k p : Nat} (hp : 2 ^ k ∣ p) : parent k (buddy k p) = parent k p := by
  rw [parent, buddy_buddy hp, parent, Nat.min_comm]

theorem parent_dvd {k p : Nat} (hp : 2 ^ k ∣ p) : 2 ^ (k + 1) ∣ parent k p := by
  obtain ⟨q, hq, e, _⟩ := half_cases hp
  rwa [e]

theorem half_of_buddy {i p q : Nat} (hp : 2 ^ (i + 1) ∣ p) (hq : 2 ^ i ∣ q)
    (e : buddy i q = p ∨ buddy i q = p + 2 ^ i) : q = p ∨ q = p + 2 ^ i := by
  rw [← buddy_buddy hq]
  rcases e with e | e
  · rw [e, buddy_left hp]; exact .inr rfl
  · rw [e, buddy_right hp]; exact .inl rfl

theorem block_split (k p : Nat) : block (k + 1) p = block k p ∪ block k (p + 2 ^ k) := by
  ext x
  simp only [mem_union, mem_block, pow_succ]
  omega

theorem block_halves_disjoint (k p : Nat) : Disjoint (block k p) (block k (p + 2 ^ k)) := by
  rw [Set.disjoint_left]
  intro x hx hy
  simp only [mem_block] at hx hy
  omega

theorem block_parent {k p : Nat} (hp : 2 ^ k ∣ p) :
    block (k + 1) (parent k p) = block k p ∪ block k (buddy k p) := by
  obtain ⟨q, _, e, ⟨e1, e2⟩ | ⟨e1, e2⟩⟩ := half_cases hp
  · rw [e, block_split, e1, ← e1, e2, e1]
  · rw [e, block_split, e1, ← e1, e2, e1, union_comm]

theorem block_nested {j k p q x : Nat} (hjk : j ≤ k) (hp : 2 ^ j ∣ p) (hq : 2 ^ k ∣ q)
    (hx : x ∈ block j p) (hy : x ∈ block k q) : block j p ⊆ block k q := by
  intro z hz
  rw [mem_block_iff_div hp] at hx hz
  rw [mem_block_iff_div hq] at hy ⊢
  obtain ⟨d, rfl⟩ := Nat.exists_eq_add_of_le hjk
  rw [pow_add, ← Nat.div_div_eq_div_mul] at hy ⊢
  rw [hz, ← hx, hy]

theorem block_eq_of_meet {k p q x : Nat} (hp : 2 ^ k ∣ p) (hq : 2 ^ k ∣ q)
    (hx : x ∈ block k p) (hy : x ∈ block k q) : p = q := by
  rw [mem_block_iff_div hp] at hx
  rw [mem_block_iff_div hq] at hy
  obtain ⟨a, rfl⟩ := hp
  obtain ⟨b, rfl⟩ := hq
  rw [Nat.mul_div_cancel_left _ (Nat.two_pow_pos k)] at hx hy
  rw [← hx, ← hy]

/-- `T` cuts `F` into aligned, pairwise disjoint blocks of orders at most `N`. -/
structure Tiling (N : Nat) (F : Set Nat) (T : Nat → Set Nat) : Prop where
  order : ∀ {k p}, p ∈ T k → k ≤ N
  aligned : ∀ {k p}, p ∈ T k → 2 ^ k ∣ p
  disjoint : ∀ {j k p q x}, p ∈ T j → q ∈ T k → x ∈ block j p → x ∈ block k q → j = k ∧ p = q
  cover : ∀ x, x ∈ F ↔ ∃ k, ∃ p ∈ T k, x ∈ block k p

/-- No two buddies below the top order are both tiles. -/
def NoPairs (N : Nat) (T : Nat → Set Nat) : Prop :=
  ∀ k < N, ∀ p ∈ T k, buddy k p ∉ T k

/-- Buddies that are both tiles are found only around `x`. -/
def PairsOnlyAt (N x : Nat) (T : Nat → Set Nat) : Prop :=
  ∀ k < N, ∀ p ∈ T k, buddy k p ∈ T k → x ∈ block k p ∨ x ∈ block k (buddy k p)

theorem NoPairs.onlyAt {N : Nat} {T : Nat → Set Nat} (h : NoPairs N T) (x : Nat) :
    PairsOnlyAt N x T :=
  fun k hk p hp hb => absurd hb (h k hk p hp)

namespace Tiling
variable {N : Nat} {F F' : Set Nat} {T T' : Nat → Set Nat}

theorem subset (h : Tiling N F T) {k p : Nat} (hp : p ∈ T k) : block k p ⊆ F :=
  fun x hx => (h.cover x).mpr ⟨k, p, hp, hx⟩

theorem congr_set (h : Tiling N F T) (e : F = F') : Tiling N F' T := e ▸ h

theorem empty (N : Nat) : Tiling N ∅ fun _ => ∅ where
  order h := absurd h (notMem_empty _)
  aligned h := absurd h (notMem_empty _)
  disjoint h := absurd h (notMem_empty _)
  cover _ := ⟨fun h => absurd h (notMem_empty _), fun ⟨_, _, h, _⟩ => absurd h (notMem_empty _)⟩

theorem cover_run (h : Tiling N F T) (np : NoPairs N T) {k p : Nat} (hk : k ≤ N)
    (hp : 2 ^ k ∣ p) (run : block k p ⊆ F) :
    ∃ j q, k ≤ j ∧ q ∈ T j ∧ block k p ⊆ block j q := by
  induction k generalizing p with
  | zero =>
      obtain ⟨j, q, hq, hx⟩ := (h.cover p).mp (run (start_mem_block 0 p))
      exact ⟨j, q, Nat.zero_le j, hq,
        block_nested (Nat.zero_le j) hp (h.aligned hq) (start_mem_block 0 p) hx⟩
  | succ k ih =>
      rw [block_split] at run
      have left := pow_dvd_of_succ hp
      have right : 2 ^ k ∣ p + 2 ^ k := Nat.dvd_add left dvd_rfl
      obtain ⟨i, a, hi, ha, la⟩ := ih (by omega) left (subset_union_left.trans run)
      obtain ⟨j, b, hj, hb, lb⟩ := ih (by omega) right (subset_union_right.trans run)
      have inA := la (start_mem_block k p)
      have inB := lb (start_mem_block k (p + 2 ^ k))
      have inP : p ∈ block (k + 1) p := start_mem_block (k + 1) p
      have inR : p + 2 ^ k ∈ block (k + 1) p := by
        rw [block_split]; exact .inr (start_mem_block k _)
      by_cases big : k + 1 ≤ i
      · exact ⟨i, a, big, ha, block_nested big hp (h.aligned ha) inP inA⟩
      by_cases big' : k + 1 ≤ j
      · exact ⟨j, b, big', hb, block_nested big' hp (h.aligned hb) inR inB⟩
      -- both halves are tiles of order k, which `np` forbids
      have ei : i = k := by omega
      have ej : j = k := by omega
      subst ei; subst ej
      have ea := block_eq_of_meet left (h.aligned ha) (start_mem_block _ p) inA
      have eb := block_eq_of_meet right (h.aligned hb) (start_mem_block _ _) inB
      subst ea
      exact absurd (by rw [buddy_left hp, eb]; exact hb) (np _ (by omega) _ ha)

/-- The tiled set determines the tiles. -/
theorem subset_of_noPairs (h : Tiling N F T) (np : NoPairs N T) (h' : Tiling N F T')
    (np' : NoPairs N T') (k : Nat) : T k ⊆ T' k := by
  intro p hp
  obtain ⟨j, q, hkj, hq, sub⟩ :=
    h'.cover_run np' (h.order hp) (h.aligned hp) (h.subset hp)
  obtain ⟨i, r, hji, hr, sub'⟩ :=
    h.cover_run np (h'.order hq) (h'.aligned hq) (h'.subset hq)
  have start := start_mem_block k p
  obtain ⟨ek, er⟩ := h.disjoint hp hr start (sub' (sub start))
  have ej : j = k := by omega
  subst ej
  rwa [block_eq_of_meet (h.aligned hp) (h'.aligned hq) start (sub start)]

theorem unique (h : Tiling N F T) (np : NoPairs N T) (h' : Tiling N F T')
    (np' : NoPairs N T') (k : Nat) : T k = T' k :=
  Subset.antisymm (h.subset_of_noPairs np h' np' k) (h'.subset_of_noPairs np' h np k)

end Tiling

/-- `T` with the block of order `k` at `p` added. -/
def put (T : Nat → Set Nat) (k p : Nat) : Nat → Set Nat := update T k (insert p (T k))

/-- `T` with the block of order `k` at `p` taken away. -/
def take (T : Nat → Set Nat) (k p : Nat) : Nat → Set Nat := update T k (T k \ {p})

section Updates
variable {N x : Nat} {F : Set Nat} {T : Nat → Set Nat} {j k p q : Nat}

@[simp] theorem mem_put : q ∈ put T k p j ↔ q ∈ T j ∨ j = k ∧ q = p := by
  by_cases e : j = k
  · subst e; simp [put, or_comm]
  · simp [put, e]

@[simp] theorem mem_take : q ∈ take T k p j ↔ q ∈ T j ∧ ¬ (j = k ∧ q = p) := by
  by_cases e : j = k
  · subst e; simp [take]
  · simp [take, e]

theorem Tiling.put (h : Tiling N F T) (hk : k ≤ N) (hp : 2 ^ k ∣ p)
    (apart : Disjoint (block k p) F) : Tiling N (F ∪ block k p) (put T k p) where
  order hq := by
    rcases mem_put.mp hq with old | ⟨rfl, _⟩
    · exact h.order old
    · exact hk
  aligned hq := by
    rcases mem_put.mp hq with old | ⟨rfl, rfl⟩
    · exact h.aligned old
    · exact hp
  disjoint ha hb hx hy := by
    rw [Set.disjoint_left] at apart
    rcases mem_put.mp ha with old | ⟨rfl, rfl⟩ <;> rcases mem_put.mp hb with old' | ⟨rfl, rfl⟩
    · exact h.disjoint old old' hx hy
    · exact absurd (h.subset old hx) (apart hy)
    · exact absurd (h.subset old' hy) (apart hx)
    · exact ⟨rfl, rfl⟩
  cover z := by
    rw [mem_union, h.cover]
    constructor
    · rintro (⟨i, r, hr, hz⟩ | hz)
      · exact ⟨i, r, mem_put.mpr (.inl hr), hz⟩
      · exact ⟨k, p, mem_put.mpr (.inr ⟨rfl, rfl⟩), hz⟩
    · rintro ⟨i, r, hr, hz⟩
      rcases mem_put.mp hr with old | ⟨rfl, rfl⟩
      · exact .inl ⟨i, r, old, hz⟩
      · exact .inr hz

theorem Tiling.take (h : Tiling N F T) (hp : p ∈ T k) :
    Tiling N (F \ block k p) (take T k p) where
  order hq := h.order (mem_take.mp hq).1
  aligned hq := h.aligned (mem_take.mp hq).1
  disjoint ha hb hx hy := h.disjoint (mem_take.mp ha).1 (mem_take.mp hb).1 hx hy
  cover z := by
    rw [mem_sdiff, h.cover]
    constructor
    · rintro ⟨⟨i, r, hr, hz⟩, out⟩
      refine ⟨i, r, mem_take.mpr ⟨hr, ?_⟩, hz⟩
      rintro ⟨rfl, rfl⟩
      exact out hz
    · rintro ⟨i, r, hr, hz⟩
      obtain ⟨hr, ne⟩ := mem_take.mp hr
      exact ⟨⟨i, r, hr, hz⟩, fun inside => ne (h.disjoint hr hp hz inside)⟩

theorem Tiling.split (h : Tiling N F T) (hp : p ∈ T (k + 1)) :
    Tiling N F (Lib.put (Lib.put (Lib.take T (k + 1) p) k p) k (p + 2 ^ k)) := by
  have hk := h.order hp
  have left := pow_dvd_of_succ (h.aligned hp)
  have inside := h.subset hp
  rw [block_split] at inside
  have apart : Disjoint (block k p) (F \ block (k + 1) p) := by
    rw [block_split]
    exact disjoint_sdiff_right.mono_left subset_union_left
  have apart' : Disjoint (block k (p + 2 ^ k)) (F \ block (k + 1) p ∪ block k p) := by
    rw [Set.disjoint_union_right, block_split]
    exact ⟨disjoint_sdiff_right.mono_left subset_union_right, (block_halves_disjoint k p).symm⟩
  refine (((h.take hp).put (by omega) left apart).put (by omega)
    (Nat.dvd_add left dvd_rfl) apart').congr_set ?_
  rw [block_split, union_assoc, sdiff_union_of_subset inside]

theorem Tiling.merge (h : Tiling N F T) (hk : k < N) (hp : p ∈ T k) (hb : buddy k p ∈ T k) :
    Tiling N F (Lib.put (Lib.take (Lib.take T k p) k (buddy k p)) (k + 1) (parent k p)) := by
  have al := h.aligned hp
  have hb' : buddy k p ∈ Lib.take T k p k := mem_take.mpr ⟨hb, fun e => buddy_ne al e.2⟩
  have inside : block (k + 1) (parent k p) ⊆ F := by
    rw [block_parent al]
    exact union_subset (h.subset hp) (h.subset hb)
  have gone : (F \ block k p) \ block k (buddy k p) = F \ block (k + 1) (parent k p) := by
    rw [sdiff_sdiff, block_parent al]
  refine ((((h.take hp).take hb').congr_set gone).put hk (parent_dvd al)
    disjoint_sdiff_right).congr_set ?_
  exact sdiff_union_of_subset inside

/-- Halving the tile around `x` leaves `x` in one of the two halves, the only new pair. -/
theorem PairsOnlyAt.split (h : PairsOnlyAt N x T) (t : Tiling N F T) (hp : 2 ^ (k + 1) ∣ p)
    (hx : x ∈ block (k + 1) p) :
    PairsOnlyAt N x (Lib.put (Lib.put (Lib.take T (k + 1) p) k p) k (p + 2 ^ k)) := by
  rw [block_split] at hx
  intro i hi q hq hb
  have fresh : ∀ r, r = p ∨ r = p + 2 ^ k → x ∈ block k r ∨ x ∈ block k (buddy k r) := by
    rintro r (rfl | rfl)
    · rw [buddy_left hp]; exact hx
    · rw [buddy_right hp]; exact hx.symm
  simp only [mem_put, mem_take] at hq hb
  rcases hq with (⟨oq, _⟩ | ⟨rfl, e⟩) | ⟨rfl, e⟩
  · rcases hb with (⟨ob, _⟩ | ⟨rfl, e⟩) | ⟨rfl, e⟩
    · exact h i hi q oq ob
    · exact fresh q (half_of_buddy hp (t.aligned oq) (.inl e))
    · exact fresh q (half_of_buddy hp (t.aligned oq) (.inr e))
  · exact fresh q (.inl e)
  · exact fresh q (.inr e)

/-- Joining the pair around `x` keeps `x` in the joined tile. -/
theorem PairsOnlyAt.merge (h : PairsOnlyAt N x T)
    (hx : x ∈ block (k + 1) (parent k p)) :
    PairsOnlyAt N x (Lib.put (Lib.take (Lib.take T k p) k (buddy k p)) (k + 1) (parent k p)) := by
  intro i hi q hq hb
  simp only [mem_put, mem_take] at hq hb
  rcases hq with ⟨⟨oq, _⟩, _⟩ | ⟨rfl, rfl⟩
  · rcases hb with ⟨⟨ob, _⟩, _⟩ | ⟨rfl, e⟩
    · exact h i hi q oq ob
    · exact .inr (e ▸ hx)
  · exact .inl hx

theorem NoPairs.put (h : NoPairs N T) : PairsOnlyAt N p (Lib.put T k p) := by
  intro i hi q hq hb
  rcases mem_put.mp hq with oq | ⟨rfl, rfl⟩
  · rcases mem_put.mp hb with ob | ⟨rfl, e⟩
    · exact absurd ob (h i hi q oq)
    · exact .inr (e ▸ start_mem_block _ _)
  · exact .inl (start_mem_block _ _)

theorem NoPairs.put_alone (h : NoPairs N T) (hT : ∀ q ∈ T k, 2 ^ k ∣ q) (hp : 2 ^ k ∣ p)
    (alone : k < N → buddy k p ∉ T k) : NoPairs N (Lib.put T k p) := by
  intro i hi q hq hb
  rcases mem_put.mp hq with oq | ⟨rfl, rfl⟩
  · rcases mem_put.mp hb with ob | ⟨rfl, e⟩
    · exact h i hi q oq ob
    · exact alone hi (by rw [← e, buddy_buddy (hT q oq)]; exact oq)
  · rcases mem_put.mp hb with ob | ⟨_, e⟩
    · exact alone hi ob
    · exact buddy_ne hp e

theorem PairsOnlyAt.take (h : PairsOnlyAt N x T) (t : Tiling N F T) (hp : p ∈ T k)
    (hx : x ∈ block k p) : NoPairs N (Lib.take T k p) := by
  intro i hi q hq hb
  obtain ⟨oq, nq⟩ := mem_take.mp hq
  obtain ⟨ob, nb⟩ := mem_take.mp hb
  rcases h i hi q oq ob with inq | inb
  · exact nq (t.disjoint oq hp inq hx)
  · exact nb (t.disjoint ob hp inb hx)

/-- If the tile around `x` cannot be joined, no pair is left at all. -/
theorem PairsOnlyAt.noPairs (h : PairsOnlyAt N x T) (t : Tiling N F T) (hp : p ∈ T k)
    (hx : x ∈ block k p) (alone : k < N → buddy k p ∉ T k) : NoPairs N T := by
  intro i hi q hq hb
  rcases h i hi q hq hb with inq | inb
  · obtain ⟨rfl, rfl⟩ := t.disjoint hq hp inq hx
    exact alone hi hb
  · obtain ⟨rfl, e⟩ := t.disjoint hb hp inb hx
    rw [← e, buddy_buddy (t.aligned hq)] at alone
    exact alone hi hq

end Updates
end Infos.Lib
