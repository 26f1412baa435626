import Infos.Mm.Marking
import Mathlib.Data.List.Induction
import Mathlib.Order.Bounds.Basic

/-!
# Which memory the block table covers

The byte size of a block is a 32-bit product, so only the remainder of its page
count modulo 2^20 reaches the last page number and the address lookups.
-/
namespace Infos.Mm
open Infos.Lib Set

/-- The blocks that are recorded: there are 16 places, and an empty block takes none. -/
def accepted (added : List AddedMemory) : List AddedMemory :=
  (added.filter fun a => a.nrPages ≠ 0).take 16

namespace AddedMemory

def block (a : AddedMemory) : PhysicalMemoryBlock := ⟨a.addr, a.addr >>> 12, a.nrPages, a.type⟩

/-- The number of the page behind the block. -/
def endPfn (a : AddedMemory) : Nat := a.addr / 0x1000 + a.nrPages

/-- What is left of the page count in the 32-bit size. -/
def sizePages (a : AddedMemory) : Nat := a.nrPages % 2 ^ 20

/-- A block within what callers may pass. -/
structure Valid (a : AddedMemory) : Prop where
  aligned : a.addr % 0x1000 = 0
  count : a.nrPages < 2 ^ 32
  fits : a.addr + 0x1000 * a.nrPages ≤ 2 ^ 52

instance (a : AddedMemory) : Decidable a.Valid :=
  decidable_of_iff (a.addr % 0x1000 = 0 ∧ a.nrPages < 2 ^ 32 ∧ a.addr + 0x1000 * a.nrPages ≤ 2 ^ 52)
    ⟨fun ⟨x, y, z⟩ => ⟨x, y, z⟩, fun ⟨x, y, z⟩ => ⟨x, y, z⟩⟩

/-- The last page number that `add_physical_memory` computes. -/
def countedLast (a : AddedMemory) : Nat :=
  (((a.addr + blockSize a.nrPages) % 2 ^ 64) >>> 12 + (2 ^ 64 - 1)) % 2 ^ 64

end AddedMemory

section Table
variable {added : List AddedMemory} {a b : AddedMemory}

/-- The ends of the accepted NORMAL blocks, by any measure. -/
def normalEnds (added : List AddedMemory) (last : AddedMemory → Nat) : Set Nat :=
  {p | ∃ b ∈ accepted added, b.type = .normal ∧ p = last b}

theorem accepted_snoc : accepted (added ++ [a]) =
    if a.nrPages = 0 ∨ (accepted added).length ≥ 16 then accepted added
    else accepted added ++ [a] := by
  unfold accepted
  rw [List.filter_append, List.take_append]
  by_cases zero : a.nrPages = 0
  · simp [zero]
  · by_cases full : (added.filter fun a => a.nrPages ≠ 0).length ≥ 16
    · have none : 16 - (added.filter fun a => a.nrPages ≠ 0).length = 0 := by omega
      simp only [none, List.take_zero, List.append_nil]
      rw [if_pos]
      right
      rw [List.length_take]
      omega
    · have fits : (added.filter fun a => a.nrPages ≠ 0).length < 16 := by omega
      rw [if_neg]
      · congr 1
        rw [List.take_of_length_le]
        · simp [zero]
        · apply (List.length_filter_le _ _).trans
          simp only [List.length_cons, List.length_nil]
          omega
      · rw [List.length_take]
        omega

theorem addPhysicalMemory_rejected {mm : MemoryManager}
    (rejected : a.nrPages = 0 ∨ mm.physMemBlocks.length ≥ 16) :
    mm.addPhysicalMemory a.addr a.nrPages a.type = mm := by
  rw [MemoryManager.addPhysicalMemory]
  rcases rejected with zero | many
  · exact if_pos zero
  · rw [if_pos many, ite_self]

theorem addPhysicalMemory_recorded {mm : MemoryManager}
    (recorded : ¬ (a.nrPages = 0 ∨ mm.physMemBlocks.length ≥ 16)) :
    mm.addPhysicalMemory a.addr a.nrPages a.type =
      ⟨if a.type = .normal then max a.countedLast mm.lastPfn else mm.lastPfn,
        mm.physMemBlocks ++ [a.block]⟩ := by
  obtain ⟨some, room⟩ := not_or.mp recorded
  rw [MemoryManager.addPhysicalMemory, if_neg some, if_neg room]
  change (if a.type = .normal ∧ a.countedLast > mm.lastPfn then
    (⟨a.countedLast, mm.physMemBlocks ++ [a.block]⟩ : MemoryManager)
    else { mm with physMemBlocks := mm.physMemBlocks ++ [a.block] }) = _
  by_cases normal : a.type = .normal
  · by_cases higher : a.countedLast > mm.lastPfn
    · rw [if_pos ⟨normal, higher⟩, if_pos normal, max_eq_left higher.le]
    · rw [if_neg fun h => higher h.2, if_pos normal, max_eq_right (not_lt.mp higher)]
  · rw [if_neg fun h => normal h.1, if_neg normal]

theorem normalEnds_normal (last : AddedMemory → Nat)
    (longer : accepted (added ++ [a]) = accepted added ++ [a]) (normal : a.type = .normal) :
    insert 0 (normalEnds (added ++ [a]) last) =
      insert (last a) (insert 0 (normalEnds added last)) := by
  ext p
  simp only [normalEnds, longer, mem_insert_iff, mem_ofPred_eq, List.mem_append,
    List.mem_singleton]
  constructor
  · rintro (zero | ⟨b, old | rfl, type, rfl⟩)
    · exact .inr (.inl zero)
    · exact .inr (.inr ⟨b, old, type, rfl⟩)
    · exact .inl rfl
  · rintro (rfl | zero | ⟨b, old, type, rfl⟩)
    · exact .inr ⟨a, .inr rfl, normal, rfl⟩
    · exact .inl zero
    · exact .inr ⟨b, .inl old, type, rfl⟩

theorem normalEnds_other (last : AddedMemory → Nat)
    (longer : accepted (added ++ [a]) = accepted added ++ [a]) (other : a.type ≠ .normal) :
    normalEnds (added ++ [a]) last = normalEnds added last := by
  ext p
  simp only [normalEnds, longer, mem_ofPred_eq, List.mem_append, List.mem_singleton]
  constructor
  · rintro ⟨b, old | rfl, type, e⟩
    · exact ⟨b, old, type, e⟩
    · exact absurd type other
  · rintro ⟨b, old, type, e⟩
    exact ⟨b, .inl old, type, e⟩

theorem ofBlocks_spec (added : List AddedMemory) :
    (MemoryManager.ofBlocks added).physMemBlocks = (accepted added).map AddedMemory.block ∧
      IsGreatest (insert 0 (normalEnds added AddedMemory.countedLast))
        (MemoryManager.ofBlocks added).lastPfn := by
  induction added using List.reverseRecOn with
  | nil =>
      refine ⟨rfl, ?_⟩
      have none : normalEnds [] AddedMemory.countedLast = ∅ := by
        ext p
        simp [normalEnds, accepted]
      rw [none, insert_empty_eq]
      exact isGreatest_singleton
  | append_singleton added a ih =>
      obtain ⟨blocks, greatest⟩ := ih
      have step : MemoryManager.ofBlocks (added ++ [a]) =
          (MemoryManager.ofBlocks added).addPhysicalMemory a.addr a.nrPages a.type := by
        rw [MemoryManager.ofBlocks, List.foldl_append]
        rfl
      have full : (MemoryManager.ofBlocks added).physMemBlocks.length =
          (accepted added).length := by
        rw [blocks, List.length_map]
      rw [step]
      by_cases rejected : a.nrPages = 0 ∨ (accepted added).length ≥ 16
      · have same : accepted (added ++ [a]) = accepted added := by
          rw [accepted_snoc, if_pos rejected]
        rw [addPhysicalMemory_rejected (full ▸ rejected), normalEnds, same]
        exact ⟨blocks, greatest⟩
      · have longer : accepted (added ++ [a]) = accepted added ++ [a] := by
          rw [accepted_snoc, if_neg rejected]
        rw [addPhysicalMemory_recorded (full ▸ rejected), blocks, longer, List.map_append,
          List.map_singleton]
        refine ⟨rfl, ?_⟩
        dsimp only
        split_ifs with normal
        · rw [normalEnds_normal AddedMemory.countedLast longer normal]
          exact greatest.insert a.countedLast
        · rw [normalEnds_other AddedMemory.countedLast longer normal]
          exact greatest

end Table

/-! ### Sizes -/

section Sizes
variable {added : List AddedMemory} {a b : AddedMemory} {x : Nat}

theorem blockSize_eq (n : Nat) : blockSize n = 0x1000 * (n % 2 ^ 20) := by
  unfold blockSize
  omega

theorem mem_accepted (mem : a ∈ accepted added) : a ∈ added ∧ 0 < a.nrPages := by
  have filtered := List.mem_filter.mp (List.mem_of_mem_take mem)
  exact ⟨filtered.1, Nat.pos_of_ne_zero (of_decide_eq_true filtered.2)⟩

theorem countedLast_eq (valid : a.Valid) : a.countedLast =
    if a.addr / 0x1000 + a.sizePages = 0 then 2 ^ 64 - 1
    else a.addr / 0x1000 + a.sizePages - 1 := by
  obtain ⟨aligned, -, fits⟩ := valid
  rw [AddedMemory.countedLast, blockSize_eq, Nat.shiftRight_eq_div_pow, AddedMemory.sizePages]
  split_ifs <;> omega

theorem sizePages_le (a : AddedMemory) : a.sizePages ≤ a.nrPages := Nat.mod_le _ _

theorem sizePages_eq (small : a.nrPages < 2 ^ 20) : a.sizePages = a.nrPages :=
  Nat.mod_eq_of_lt small

/-- A lookup finds the addresses that the 32-bit size of a block covers. -/
theorem lookup_iff (valid : ∀ a ∈ added, a.Valid) :
    ((MemoryManager.ofBlocks added).lookupPhysBlock x).isSome ↔
      ∃ b ∈ accepted added, b.addr ≤ x ∧ x < b.addr + 0x1000 * b.sizePages := by
  have covers : ∀ b ∈ accepted added,
      (b.block.baseAddress + blockSize b.block.nrPages) % 2 ^ 64 =
        b.addr + 0x1000 * b.sizePages := by
    intro b mem
    have fits := (valid b (mem_accepted mem).1).fits
    have fewer := sizePages_le b
    refine (Nat.mod_eq_of_lt ?_).trans (by rw [blockSize_eq]; rfl)
    rw [blockSize_eq]
    change b.addr + 0x1000 * b.sizePages < 2 ^ 64
    omega
  rw [MemoryManager.lookupPhysBlock, (ofBlocks_spec added).1, List.find?_isSome]
  constructor
  · rintro ⟨_, listed, inside⟩
    obtain ⟨b, mem, rfl⟩ := List.mem_map.mp listed
    rw [covers b mem, Bool.and_eq_true, decide_eq_true_iff, decide_eq_true_iff] at inside
    exact ⟨b, mem, inside⟩
  · rintro ⟨b, mem, low, high⟩
    refine ⟨b.block, List.mem_map_of_mem mem, ?_⟩
    rw [covers b mem, Bool.and_eq_true, decide_eq_true_iff, decide_eq_true_iff]
    exact ⟨low, high⟩

end Sizes

/-! ### The bookkeeping as a whole -/

/-- What the allocator relies on: the last page number is the greatest of the NORMAL blocks, or 0
without one, marking stays inside the descriptors, and lookups find what is inside a block. -/
structure CoversMemory (added : List AddedMemory) : Prop where
  lastPfn : IsGreatest (insert 0 (normalEnds added fun b => b.endPfn - 1))
    (MemoryManager.ofBlocks added).lastPfn
  marking : ∀ s : PageAllocator.State, s.nrPages = PageAllocator.nrPagesOf (.ofBlocks added) →
    ∃ s', (PageAllocator.markNormal (MemoryManager.ofBlocks added).physMemBlocks).run s =
      .ok ((), s')
  lookup : ∀ x, ((MemoryManager.ofBlocks added).lookupPhysBlock x).isSome ↔
    ∃ b ∈ accepted added, b.addr ≤ x ∧ x < b.addr + 0x1000 * b.nrPages

/-- A NORMAL block of less than 2^20 pages reaches as far as any, none at address 0 has a size
that wraps to nothing, and the part of a block that its size leaves out is covered by others. -/
structure SizesSuffice (added : List AddedMemory) : Prop where
  atZero : ∀ b ∈ accepted added, b.type = .normal → b.addr = 0 → b.sizePages ≠ 0
  reach : ∀ b ∈ accepted added, b.type = .normal →
    ∃ b' ∈ accepted added, b'.type = .normal ∧ b'.nrPages < 2 ^ 20 ∧ b.endPfn ≤ b'.endPfn
  rest : ∀ b ∈ accepted added, ∀ p, b.addr / 0x1000 + b.sizePages ≤ p → p < b.endPfn →
    ∃ b' ∈ accepted added, b'.addr / 0x1000 ≤ p ∧ p < b'.addr / 0x1000 + b'.sizePages

section Covers
variable {added : List AddedMemory}

theorem lookup_right_iff (valid : ∀ a ∈ added, a.Valid) :
    (∀ x, ((MemoryManager.ofBlocks added).lookupPhysBlock x).isSome ↔
      ∃ b ∈ accepted added, b.addr ≤ x ∧ x < b.addr + 0x1000 * b.nrPages) ↔
    ∀ b ∈ accepted added, ∀ p, b.addr / 0x1000 + b.sizePages ≤ p → p < b.endPfn →
      ∃ b' ∈ accepted added, b'.addr / 0x1000 ≤ p ∧ p < b'.addr / 0x1000 + b'.sizePages := by
  have page : ∀ b ∈ accepted added, b.addr = 0x1000 * (b.addr / 0x1000) := by
    intro b mem
    have aligned := (valid b (mem_accepted mem).1).aligned
    omega
  constructor
  · intro right b mem p low high
    have inside : ∃ b ∈ accepted added, b.addr ≤ 0x1000 * p ∧
        0x1000 * p < b.addr + 0x1000 * b.nrPages := by
      refine ⟨b, mem, ?_, ?_⟩
      · rw [page b mem]
        omega
      · rw [page b mem]
        unfold AddedMemory.endPfn at high
        omega
    obtain ⟨b', mem', low', high'⟩ := (lookup_iff valid).mp ((right (0x1000 * p)).mpr inside)
    rw [page b' mem'] at low' high'
    exact ⟨b', mem', by omega, by omega⟩
  · intro rest x
    rw [lookup_iff valid]
    constructor
    · rintro ⟨b, mem, low, high⟩
      have := sizePages_le b
      exact ⟨b, mem, low, by omega⟩
    · rintro ⟨b, mem, low, high⟩
      by_cases first : x < b.addr + 0x1000 * b.sizePages
      · exact ⟨b, mem, low, first⟩
      · have at_b := page b mem
        obtain ⟨b', mem', low', high'⟩ := rest b mem (x / 0x1000) (by omega) (by
          unfold AddedMemory.endPfn
          omega)
        have at_b' := page b' mem'
        exact ⟨b', mem', by omega, by omega⟩

theorem of_lastPfn_right (valid : ∀ a ∈ added, a.Valid)
    (right : IsGreatest (insert 0 (normalEnds added fun b => b.endPfn - 1))
      (MemoryManager.ofBlocks added).lastPfn) :
    (∀ b ∈ accepted added, b.type = .normal → b.addr = 0 → b.sizePages ≠ 0) ∧
    ∀ b ∈ accepted added, b.type = .normal →
      ∃ b' ∈ accepted added, b'.type = .normal ∧ b'.nrPages < 2 ^ 20 ∧ b.endPfn ≤ b'.endPfn := by
  obtain ⟨counted, above⟩ := (ofBlocks_spec added).2
  obtain ⟨attained, bound⟩ := right
  have small : (MemoryManager.ofBlocks added).lastPfn < 2 ^ 52 := by
    rcases attained with zero | ⟨b, mem, -, last⟩
    · rw [zero]
      decide
    · have fits := (valid b (mem_accepted mem).1).fits
      dsimp only [AddedMemory.endPfn] at last
      omega
  have nonzero : ∀ b ∈ accepted added, b.type = .normal → b.addr / 0x1000 + b.sizePages ≠ 0 := by
    intro b mem normal none
    have below := above (.inr ⟨b, mem, normal, rfl⟩)
    rw [countedLast_eq (valid b (mem_accepted mem).1), if_pos none] at below
    omega
  refine ⟨fun b mem normal zero none => nonzero b mem normal (by rw [zero, none]), ?_⟩
  intro b mem normal
  have most := bound (.inr ⟨b, mem, normal, rfl⟩)
  rcases counted with zero | ⟨b', mem', normal', last⟩
  · rw [zero] at most
    have some := (mem_accepted mem).2
    have one : b.nrPages < 2 ^ 20 := by
      simp only [AddedMemory.endPfn] at most
      omega
    exact ⟨b, mem, normal, one, le_rfl⟩
  · rw [countedLast_eq (valid b' (mem_accepted mem').1), if_neg (nonzero b' mem' normal')] at last
    have most' := bound (.inr ⟨b', mem', normal', rfl⟩)
    have fewer := sizePages_le b'
    have some := nonzero b' mem' normal'
    have some' := (mem_accepted mem').2
    rw [last] at most most'
    simp only [AddedMemory.endPfn, AddedMemory.sizePages] at most most' fewer some ⊢
    exact ⟨b', mem', normal', by omega, by omega⟩

/-- The last page number reaches every NORMAL block, if some block with an uncut size does. -/
theorem endPfn_le_lastPfn (valid : ∀ a ∈ added, a.Valid) {b : AddedMemory}
    (reach : ∃ b' ∈ accepted added, b'.type = .normal ∧ b'.nrPages < 2 ^ 20 ∧
      b.endPfn ≤ b'.endPfn) : b.endPfn - 1 ≤ (MemoryManager.ofBlocks added).lastPfn := by
  obtain ⟨b', mem', normal', small, further⟩ := reach
  have below := (ofBlocks_spec added).2.2 (.inr ⟨b', mem', normal', rfl⟩)
  have some := (mem_accepted mem').2
  rw [countedLast_eq (valid b' (mem_accepted mem').1), sizePages_eq small, if_neg (by omega)]
    at below
  simp only [AddedMemory.endPfn] at further ⊢
  omega

theorem lastPfn_right_iff (valid : ∀ a ∈ added, a.Valid) :
    IsGreatest (insert 0 (normalEnds added fun b => b.endPfn - 1))
      (MemoryManager.ofBlocks added).lastPfn ↔
    (∀ b ∈ accepted added, b.type = .normal → b.addr = 0 → b.sizePages ≠ 0) ∧
    ∀ b ∈ accepted added, b.type = .normal →
      ∃ b' ∈ accepted added, b'.type = .normal ∧ b'.nrPages < 2 ^ 20 ∧ b.endPfn ≤ b'.endPfn := by
  constructor
  · exact of_lastPfn_right valid
  · rintro ⟨atZero, reach⟩
    refine ⟨?_, ?_⟩
    · rcases (ofBlocks_spec added).2.1 with zero | ⟨b, mem, normal, last⟩
      · exact .inl zero
      · obtain ⟨b', mem', normal', small, further⟩ := reach b mem normal
        refine .inr ⟨b', mem', normal', ?_⟩
        have below := endPfn_le_lastPfn valid (reach b' mem' normal')
        have aligned := (valid b (mem_accepted mem).1).aligned
        have fewer := sizePages_le b
        have some := atZero b mem normal
        rw [countedLast_eq (valid b (mem_accepted mem).1), if_neg (by omega)] at last
        simp only [AddedMemory.endPfn] at further below ⊢
        omega
    · rintro _ (rfl | ⟨b, mem, normal, rfl⟩)
      · exact Nat.zero_le _
      · exact endPfn_le_lastPfn valid (reach b mem normal)

theorem marking_of_lastPfn (valid : ∀ a ∈ added, a.Valid)
    (right : IsGreatest (insert 0 (normalEnds added fun b => b.endPfn - 1))
      (MemoryManager.ofBlocks added).lastPfn) {s : PageAllocator.State}
    (size : s.nrPages = PageAllocator.nrPagesOf (.ofBlocks added)) :
    ∃ s', (PageAllocator.markNormal (MemoryManager.ofBlocks added).physMemBlocks).run s =
      .ok ((), s') := by
  rw [PageAllocator.markNormal_ok_iff, (ofBlocks_spec added).1]
  intro _ listed normal
  obtain ⟨b, mem, rfl⟩ := List.mem_map.mp listed
  refine .inr ?_
  have most := right.2 (.inr ⟨b, mem, normal, rfl⟩)
  have some := (mem_accepted mem).2
  have small : (MemoryManager.ofBlocks added).lastPfn < 2 ^ 52 := by
    rcases right.1 with zero | ⟨b', mem', -, last⟩
    · rw [zero]
      decide
    · have fits := (valid b' (mem_accepted mem').1).fits
      dsimp only [AddedMemory.endPfn] at last
      omega
  rw [size, PageAllocator.nrPagesOf]
  change b.addr >>> 12 + b.nrPages ≤ _
  rw [Nat.shiftRight_eq_div_pow]
  simp only [AddedMemory.endPfn] at most
  omega

end Covers

/-- For blocks within what callers may pass: the bookkeeping covers all memory if and only if the
32-bit sizes suffice. -/
theorem covers_memory_iff (added : List AddedMemory) (valid : ∀ a ∈ added, a.Valid) :
    CoversMemory added ↔ SizesSuffice added := by
  constructor
  · intro h
    obtain ⟨atZero, reach⟩ := (lastPfn_right_iff valid).mp h.lastPfn
    exact ⟨atZero, reach, (lookup_right_iff valid).mp h.lookup⟩
  · intro h
    have right := (lastPfn_right_iff valid).mpr ⟨h.atZero, h.reach⟩
    exact ⟨right, fun s size => marking_of_lastPfn valid right size,
      (lookup_right_iff valid).mpr h.rest⟩

theorem covers_memory_iff_two :
    CoversMemory [⟨0, 0x9f, .normal⟩, ⟨0x100000, 0x7f00, .normal⟩] ↔
      SizesSuffice [⟨0, 0x9f, .normal⟩, ⟨0x100000, 0x7f00, .normal⟩] :=
  covers_memory_iff _ (by decide)

/-- A NORMAL block of 4 GiB and one page counts as one page. -/
theorem large_block_not_covered :
    (∀ a ∈ ([⟨0x100000000, 2 ^ 20 + 1, .normal⟩] : List AddedMemory), a.Valid) ∧
      ¬ CoversMemory [⟨0x100000000, 2 ^ 20 + 1, .normal⟩] := by
  refine ⟨by decide, fun h => ?_⟩
  have found := (h.lookup 0x100001000).mpr
    ⟨⟨0x100000000, 2 ^ 20 + 1, .normal⟩, List.mem_cons_self, by decide, by decide⟩
  exact absurd found (by decide)

end Infos.Mm
