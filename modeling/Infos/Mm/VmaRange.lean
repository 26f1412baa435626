import Infos.Mm.VmaReached

/-!
# What a call of `allocate_virt` maps

The number of pages is rounded up to a power of two, and the pages that the rounding adds are
mapped as well.
-/
namespace Infos.Mm.Vma
open Infos.Lib Function

/-! ### Rounding up -/

theorem two_pow_log2ceil {n : Nat} (power : n.isPowerOfTwo) : 2 ^ log2ceil n = n := by
  obtain ⟨k, rfl⟩ := power
  have pos := Nat.two_pow_pos k
  have none := (Nat.and_sub_one_eq_zero_iff_isPowerOfTwo (n := 2 ^ k) (by omega)).mpr ⟨k, rfl⟩
  rw [log2ceil, if_neg (by omega), if_neg (not_not.mpr none), Nat.log2_two_pow, Nat.add_zero]

theorem le_two_pow_log2ceil (n : Nat) : n ≤ 2 ^ log2ceil n := by
  by_cases zero : n = 0
  · rw [zero]
    exact Nat.zero_le _
  · by_cases power : n.isPowerOfTwo
    · exact (two_pow_log2ceil power).ge
    · have low := fun e => power ((Nat.and_sub_one_eq_zero_iff_isPowerOfTwo zero).mp e)
      rw [log2ceil, if_neg zero, if_pos low]
      exact Nat.lt_log2_self.le

/-! ### The pages of a range -/

/-- Page `i` of the range at `va`. -/
def pageOf (va : BitVec 64) (i : Nat) : BitVec 64 := va + BitVec.ofNat 64 (4096 * i)

theorem toNat_pageOf {va : BitVec 64} {i : Nat} (user : va.toNat / 4096 + i < 2 ^ 35) :
    (pageOf va i).toNat = va.toNat + 4096 * i := by
  rw [pageOf, BitVec.toNat_add, BitVec.toNat_ofNat]
  omega

/-- From `s` to `s'`, the `n` pages at `va` were mapped to a fresh block, and no others. -/
structure MapsOnly (s s' : State) (va : BitVec 64) (n : Nat) : Prop where
  fresh : ∃ block ∈ s'.pageAllocations, (∀ f, block.Has f → ¬ Held s f) ∧
    ∀ i < n, block.Has (block.descriptorBase + i) ∧
      (getMapping (pageOf va i)).run s' = .ok (some (pgdToPa (block.descriptorBase + i)), s')
  others : ∀ va' : BitVec 64, va'.toNat < 2 ^ 47 →
    (va'.toNat < va.toNat ∨ va.toNat + 4096 * n ≤ va'.toNat) →
    ∀ r, (getMapping va').run s' = .ok (r, s') ↔ (getMapping va').run s = .ok (r, s)

/-- The pages that the rounding adds show the next free block already. -/
def AddedThere (s : State) (va : BitVec 64) (n : Nat) : Prop :=
  ∃ F, s.frames.head? = some F ∧ ∀ i, n ≤ i → i < 2 ^ log2ceil n →
    (getMapping (pageOf va i)).run s = .ok (some (pgdToPa (F + i)), s)

section Range
variable {s s' : State} {m m' : List Nat → Option (BitVec 64)} {T D T' D' : Nat → Prop}
  {allowed : State → BitVec 64 → Prop} {va : BitVec 64} {n : Nat}

theorem Space.getMapping (h : Space s m T D) {va : BitVec 64} (low : va.toNat < 2 ^ 47) :
    (getMapping va).run s = .ok ((m (path va)).map fun base => base ||| (va &&& 0xfff#64), s) :=
  h.tables.getMapping (userAddress_of_lt low)

theorem Space.getMapping_page (h : Space s m T D) {va : BitVec 64} (low : va.toNat < 2 ^ 47)
    (aligned : va.toNat % 4096 = 0) : (Vma.getMapping va).run s = .ok (m (path va), s) := by
  have offset : va &&& 0xfff#64 = 0#64 := by
    apply BitVec.eq_of_toNat_eq
    exact (toNat_pageOffset va).trans aligned
  have same : (fun base => base ||| (va &&& 0xfff#64)) = (id : BitVec 64 → BitVec 64) := by
    funext base
    rw [offset, BitVec.or_zero, id]
  rw [h.getMapping low, same, Option.map_id, id]

theorem Space.same_lookup (h : Space s m T D) (h' : Space s' m' T' D') {va : BitVec 64}
    (low : va.toNat < 2 ^ 47) (same : m' (path va) = m (path va)) (r : Option (BitVec 64)) :
    (Vma.getMapping va).run s' = .ok (r, s') ↔ (Vma.getMapping va).run s = .ok (r, s) := by
  rw [h.getMapping low, h'.getMapping low, same]
  simp only [Except.ok.injEq, Prod.mk.injEq, and_true]

theorem path_pageOf {va' : BitVec 64} (user : va.toNat / 4096 + n < 2 ^ 35)
    (low : va'.toNat < 2 ^ 47) (page : va'.toNat / 4096 = va.toNat / 4096 + n) :
    path (pageOf va n) = path va' := by
  have value := toNat_pageOf user
  rw [path_eq_iff_page (by omega) low]
  omega

theorem mapsOnly_iff {F : Nat} (h : Space s m T D) (h' : Space s' m' T' D')
    (aligned : va.toNat % 4096 = 0) (user : va.toNat / 4096 + 2 ^ log2ceil n ≤ 2 ^ 35)
    (mapped : Mapped m m' (va.toNat / 4096) (2 ^ log2ceil n) F)
    (block : ⟨F, log2ceil n⟩ ∈ s'.pageAllocations)
    (fresh : ∀ f, (⟨F, log2ceil n⟩ : PageAllocation).Has f → ¬ Held s f)
    (next : s.frames.head? = some F) : MapsOnly s s' va n ↔ AddedThere s va n := by
  have enough := le_two_pow_log2ceil n
  have value : ∀ i < 2 ^ log2ceil n, (pageOf va i).toNat = va.toNat + 4096 * i :=
    fun i lt => toNat_pageOf (by omega)
  have shown : ∀ i < 2 ^ log2ceil n, m' (path (pageOf va i)) = some (pgdToPa (F + i)) := by
    intro i lt
    have page := value i lt
    rw [mapped _ (by omega), if_pos (by omega), page]
    congr 2
    omega
  constructor
  · intro only
    refine ⟨F, next, ?_⟩
    intro i lo hi
    have page := value i hi
    rw [← only.others (pageOf va i) (by omega) (by omega), ← shown i hi]
    exact h'.getMapping_page (by omega) (by omega)
  · rintro ⟨G, front, there⟩
    cases next.symm.trans front
    refine ⟨⟨_, block, fresh, ?_⟩, ?_⟩
    · intro i lt
      have page := value i (by omega)
      refine ⟨⟨Nat.le_add_right _ _, by dsimp only; omega⟩, ?_⟩
      rw [h'.getMapping_page (by omega) (by omega), shown i (by omega)]
    · intro va' low out r
      refine h.same_lookup h' low ?_ r
      by_cases added : va.toNat / 4096 ≤ va'.toNat / 4096 ∧
          va'.toNat / 4096 < va.toNat / 4096 + 2 ^ log2ceil n
      · -- a page that the rounding added
        obtain ⟨i, page⟩ := Nat.exists_eq_add_of_le added.1
        have start := value i (by omega)
        have before := there i (by omega) (by omega)
        rw [h.getMapping_page (by omega) (by omega)] at before
        have same : path (pageOf va i) = path va' := path_pageOf (by omega) low page
        rw [← same, shown i (by omega)]
        exact (Prod.mk.inj (Except.ok.inj before)).1.symm
      · rw [mapped va' low, if_neg added]

/-- `allocate_virt` affects only the range it was asked for exactly if the number of pages is a
power of two, or the pages that the rounding adds show the same frames as before. -/
theorem allocateVirt_maps_only_iff (h : Reached allowed s) (aligned : va.toNat % 4096 = 0)
    {nrPages : Int} (positive : 1 ≤ nrPages) (int : nrPages < 2 ^ 31)
    (user : va.toNat / 4096 + 2 ^ log2ceil nrPages.toNat ≤ 2 ^ 35)
    (run : (allocateVirt va nrPages).run s = .ok (true, s')) (apart : Apart s'.pageAllocations) :
    MapsOnly s s' va nrPages.toNat ↔
      nrPages.toNat.isPowerOfTwo ∨ AddedThere s va nrPages.toNat := by
  obtain ⟨m, space⟩ := h.space
  have count : toUInt64 nrPages = nrPages.toNat := by
    unfold toUInt64
    omega
  rw [← count] at user ⊢
  obtain ⟨F, s₁, T', m', new, ext, _, space', mapped, _⟩ := space.allocateVirt user run apart
  have apart₁ := apart.of_prefix ext.blocks
  have block : ⟨F, log2ceil (toUInt64 nrPages)⟩ ∈ s'.pageAllocations := by
    apply ext.blocks.subset
    rw [new.blocks]
    simp
  have next : s.frames.head? = some F := by
    rw [new.frames]
    rfl
  rw [mapsOnly_iff space space' aligned user mapped block (fun f hf => new.fresh apart₁ hf) next]
  constructor
  · exact .inr
  · rintro (power | there)
    · refine ⟨F, next, ?_⟩
      intro i lo hi
      rw [two_pow_log2ceil power] at hi
      omega
    · exact there

end Range

/-- Memory for a page at 0x403000 and for four more in front of it. -/
def neighbourStart : State := ⟨fun _ => 0, [1, 2, 3, 4, 5, 8], [], 0, 0⟩

def neighbour : Exec State Bool := do
  create (some fun _ => 0)
  allocateVirt 0x403000 1

theorem neighbour_reached {s : State} {r : Bool} (run : neighbour.run neighbourStart = .ok (r, s))
    (blocks : s.pageAllocations = [⟨1, 0⟩, ⟨2, 0⟩, ⟨3, 0⟩, ⟨4, 0⟩, ⟨5, 0⟩]) :
    Reached (fun _ _ => True) s := by
  unfold neighbour at run
  obtain ⟨_, s₁, run₁, run⟩ := of_bind_ok run
  have apart : Apart s.pageAllocations := by
    rw [blocks]
    decide
  have apart₁ := apart.of_prefix (allocateVirt_extends _ _ _ _ _ run).blocks
  have fresh : FreshFrames neighbourStart.frames := ⟨by decide, by decide⟩
  have created : Reached (fun _ _ => True) s₁ := .create _ fresh rfl run₁ apart₁
  exact created.allocateVirt (by decide) (fun _ _ _ => trivial) run apart

/-- Two pages next to the mapped one: nothing else changes. -/
theorem twoPages_only :
    ∃ r s s', neighbour.run neighbourStart = .ok (r, s) ∧
      (allocateVirt 0x400000 2).run s = .ok (true, s') ∧ MapsOnly s s' 0x400000 2 := by
  have ran : endsWith neighbour neighbourStart (fun _ s =>
      s.pageAllocations == [⟨1, 0⟩, ⟨2, 0⟩, ⟨3, 0⟩, ⟨4, 0⟩, ⟨5, 0⟩] &&
      endsWith (allocateVirt 0x400000 2) s (fun r s' => r &&
        s'.pageAllocations == [⟨1, 0⟩, ⟨2, 0⟩, ⟨3, 0⟩, ⟨4, 0⟩, ⟨5, 0⟩, ⟨8, 1⟩])) = true := by
    decide +kernel
  obtain ⟨r, s, run, facts⟩ := of_endsWith ran
  simp only [Bool.and_eq_true, beq_iff_eq] at facts
  obtain ⟨blocks, ran'⟩ := facts
  obtain ⟨_, s', run', facts⟩ := of_endsWith ran'
  simp only [Bool.and_eq_true, beq_iff_eq] at facts
  obtain ⟨rfl, blocks'⟩ := facts
  have apart : Apart s'.pageAllocations := by
    rw [blocks']
    decide
  exact ⟨r, s, s', run, run', (allocateVirt_maps_only_iff (neighbour_reached run blocks)
    (by decide) (by decide) (by decide) (by decide) run' apart).mpr (.inl ⟨1, rfl⟩)⟩

/-- Three pages next to the mapped one: it gets another frame. -/
theorem threePages_stray :
    ∃ r s s', neighbour.run neighbourStart = .ok (r, s) ∧ Reached (fun _ _ => True) s ∧
      (allocateVirt 0x400000 3).run s = .ok (true, s') ∧ Apart s'.pageAllocations ∧
      ¬ MapsOnly s s' 0x400000 3 := by
  have ran : endsWith neighbour neighbourStart (fun _ s =>
      s.pageAllocations == [⟨1, 0⟩, ⟨2, 0⟩, ⟨3, 0⟩, ⟨4, 0⟩, ⟨5, 0⟩] &&
      returns (getMapping 0x403000) s (some 0x2000) &&
      endsWith (allocateVirt 0x400000 3) s (fun r s' => r &&
        s'.pageAllocations == [⟨1, 0⟩, ⟨2, 0⟩, ⟨3, 0⟩, ⟨4, 0⟩, ⟨5, 0⟩, ⟨8, 2⟩] &&
        returns (getMapping 0x403000) s' (some 0xb000))) = true := by
    decide +kernel
  obtain ⟨r, s, run, facts⟩ := of_endsWith ran
  simp only [Bool.and_eq_true, beq_iff_eq] at facts
  obtain ⟨⟨blocks, before⟩, ran'⟩ := facts
  obtain ⟨_, s', run', facts⟩ := of_endsWith ran'
  simp only [Bool.and_eq_true, beq_iff_eq] at facts
  obtain ⟨⟨rfl, blocks'⟩, after⟩ := facts
  refine ⟨r, s, s', run, neighbour_reached run blocks, run', by rw [blocks']; decide, ?_⟩
  intro only
  obtain ⟨t, found⟩ := of_returns before
  cases getMapping_same _ _ _ _ found
  have same := (only.others 0x403000 (by decide) (by decide) _).mpr found
  obtain ⟨t', moved⟩ := of_returns after
  rw [same] at moved
  cases moved

end Infos.Mm.Vma
