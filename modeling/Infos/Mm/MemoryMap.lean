import Infos.Mm.PhysicalMemory

/-!
# From the firmware's memory map to available pages

`mm_init` rounds the length of an entry down to pages and the address too; which
pages marking leaves available is compared with the bytes of the map.
-/
namespace Infos.Mm
open Infos.Lib Set PageAllocator

/-- An entry of the multiboot memory map. -/
structure MmapEntry where
  addr : Nat
  len : Nat
  type : Nat
  deriving DecidableEq, Repr

def multibootMemoryAvailable : Nat := 1

def multibootMemoryReserved : Nat := 2

/-- The call that the loop of `mm_init` makes for an entry. -/
def MmapEntry.added (e : MmapEntry) : Option AddedMemory :=
  -- `entry->len & ~0xfff`
  if (e.len >>> 12) <<< 12 ≠ 0 then
    if e.type = multibootMemoryAvailable then
      some ⟨e.addr, (e.len >>> 12) % 2 ^ 32, .normal⟩
    else if e.type = multibootMemoryReserved then
      some ⟨e.addr, (e.len >>> 12) % 2 ^ 32, .unusable⟩
    else none
  else none

/-- The calls of `mm_init`, in their order. -/
def mmInitCalls (entries : List MmapEntry) : List AddedMemory := entries.filterMap MmapEntry.added

def mmInit (entries : List MmapEntry) : MemoryManager := .ofBlocks (mmInitCalls entries)

section Pages

def MmapEntry.bytes (e : MmapEntry) : Set Nat := Ico e.addr (e.addr + e.len)

def pageBytes (p : Nat) : Set Nat := Ico (0x1000 * p) (0x1000 * (p + 1))

/-- The page count of an entry, as the block gets it. -/
def MmapEntry.count (e : MmapEntry) : Nat := e.len / 0x1000 % 2 ^ 32

/-- The pages of the block made from an entry. -/
def MmapEntry.pages (e : MmapEntry) : Set Nat :=
  Ico (e.addr / 0x1000) (e.addr / 0x1000 + e.count)

/-- The entries that get a block; there are 16 places. -/
def kept (entries : List MmapEntry) : List MmapEntry :=
  (entries.filter fun e =>
    (e.type = multibootMemoryAvailable ∨ e.type = multibootMemoryReserved) ∧ e.count ≠ 0).take 16

/-- What `mark_page_range` covers. -/
def pageRange (start count : Nat) : Set Nat := Ico start (start + count % 2 ^ 32)

/-- The pages that `init` keeps from the allocator: the first seven, the kernel's image and stack,
and the `nr` page descriptors. -/
def keptBack (layout : KernelLayout) (nr : Nat) : Set Nat :=
  let image := paToPfn layout.imageStart
  let stack := paToPfn (layout.stackStart - kernelVmemStart)
  let heap := paToPfn (layout.heapStart - kernelVmemStart)
  Iio 7 ∪ pageRange image (pfnCount image (paToPfn layout.imageEnd)) ∪
    pageRange stack (pfnCount stack (paToPfn (layout.stackEnd - kernelVmemStart))) ∪
    pageRange heap ((nr * sizeofPageDescriptor) >>> 12 + 1)

instance (layout : KernelLayout) (nr p : Nat) : Decidable (p ∈ keptBack layout nr) := by
  unfold keptBack pageRange
  infer_instance

/-- Every available page lies inside one AVAILABLE entry and meets no RESERVED one. -/
def RealMemory (entries : List MmapEntry) (m : PageAllocator.State) : Prop :=
  ∀ p < m.nrPages, m.types p = .available →
    (∃ e ∈ entries, e.type = multibootMemoryAvailable ∧ pageBytes p ⊆ e.bytes) ∧
    ∀ r ∈ entries, r.type = multibootMemoryReserved → Disjoint (pageBytes p) r.bytes

/-- Rounding does no harm: the first page of an AVAILABLE entry that starts inside it, and every
page that a RESERVED entry meets, is kept back or not offered. -/
structure RoundsSafely (entries : List MmapEntry) (back : Set Nat) : Prop where
  first : ∀ e ∈ kept entries, e.type = multibootMemoryAvailable → e.addr % 0x1000 ≠ 0 →
    e.addr / 0x1000 ∈ back ∨ ∃ e' ∈ entries, e'.type = multibootMemoryAvailable ∧
      pageBytes (e.addr / 0x1000) ⊆ e'.bytes
  apart : ∀ e ∈ kept entries, e.type = multibootMemoryAvailable →
    ∀ r ∈ entries, r.type = multibootMemoryReserved →
      ∀ p ∈ e.pages, p ∈ back ∨ Disjoint (pageBytes p) r.bytes

end Pages

section Marked
variable {s s' m : PageAllocator.State} {layout : KernelLayout} {p : Nat}

theorem normalPages_cons {b : PhysicalMemoryBlock} {rest : List PhysicalMemoryBlock} :
    p ∈ normalPages (b :: rest) ↔
      b.type = .normal ∧ b.basePfn ≤ p ∧ p < b.basePfn + b.nrPages ∨ p ∈ normalPages rest := by
  simp only [normalPages, mem_ofPred_eq, List.exists_mem_cons_iff]

theorem of_markNormal_ok {blocks : List PhysicalMemoryBlock}
    (run : (markNormal blocks).run s = .ok ((), s')) :
    s'.nrPages = s.nrPages ∧ (∀ p, s'.types p = .available ↔
      p ∈ normalPages blocks ∨ s.types p = .available) ∧
      ∀ p ∈ normalPages blocks, p < s.nrPages := by
  induction blocks generalizing s with
  | nil =>
      cases run
      exact ⟨rfl, fun p => ⟨.inr, fun h => h.resolve_left nofun⟩, nofun⟩
  | cons b rest ih =>
      rw [markNormal] at run
      by_cases normal : b.type = .normal
      · rw [if_pos normal] at run
        obtain ⟨_, s₁, run₁, run₂⟩ := of_bind_ok run
        have write := of_setTypes_ok run₁
        rw [setTypes_eq] at run₁
        split_ifs at run₁ with fits
        subst write
        obtain ⟨size, types, inside⟩ := ih run₂
        refine ⟨size, fun p => ?_, fun p mem => ?_⟩
        · rw [types, normalPages_cons]
          simp only [retyped, normal, true_and]
          split_ifs with here
          · simp [here]
          · simp [here]
        · rcases normalPages_cons.mp mem with ⟨-, low, high⟩ | mem
          · omega
          · exact inside p mem
      · rw [if_neg normal] at run
        obtain ⟨size, types, inside⟩ := ih run
        refine ⟨size, fun p => ?_, fun p mem => ?_⟩
        · rw [types, normalPages_cons]
          simp [normal]
        · exact inside p ((normalPages_cons.mp mem).resolve_left fun h => normal h.1)

theorem of_markPageRange_ok {type : PageDescriptorType} {start count : Nat}
    (run : (markPageRange type start count).run s = .ok ((), s')) (other : type ≠ .available) :
    s'.nrPages = s.nrPages ∧ ∀ p, s'.types p = .available ↔
      p ∉ pageRange start count ∧ s.types p = .available := by
  cases of_setTypes_ok run
  refine ⟨rfl, fun p => ?_⟩
  dsimp only [retyped]
  split_ifs with inside
  · exact ⟨fun e => absurd e other, fun h => absurd inside h.1⟩
  · exact ⟨fun e => ⟨inside, e⟩, And.right⟩

theorem of_kvaToPa_ok {va pa : Nat} (run : (kvaToPa va).run s = .ok (pa, s')) :
    pa = va - kernelVmemStart ∧ s = s' := by
  obtain ⟨_, s₁, check, run⟩ := of_bind_ok run
  rw [assertThat] at check
  split_ifs at check
  · cases check
    rw [run_pure_eq, Except.ok.injEq, Prod.mk.injEq] at run
    exact ⟨run.1.symm, run.2⟩
  · cases check

theorem of_markAll_ok {mm : MemoryManager} (run : (markAll mm layout).run s = .ok ((), m)) :
    m.nrPages = s.nrPages ∧ (∀ p, m.types p = .available ↔
      (p ∈ normalPages mm.physMemBlocks ∨ s.types p = .available) ∧
        p ∉ keptBack layout s.nrPages) ∧
      ∀ p ∈ normalPages mm.physMemBlocks, p < s.nrPages := by
  unfold markAll at run
  dsimp only at run
  obtain ⟨_, s₁, run₁, rest₁⟩ := of_bind_ok run
  obtain ⟨_, s₂, run₂, rest₂⟩ := of_bind_ok rest₁
  obtain ⟨_, s₃, run₃, rest₃⟩ := of_bind_ok rest₂
  obtain ⟨_, s₄, run₄, rest₄⟩ := of_bind_ok rest₃
  obtain ⟨_, _, pa₅, rest₅⟩ := of_bind_ok rest₄
  obtain ⟨stack, rfl⟩ := of_kvaToPa_ok pa₅
  obtain ⟨_, _, pa₆, rest₆⟩ := of_bind_ok rest₅
  obtain ⟨stackEnd, rfl⟩ := of_kvaToPa_ok pa₆
  obtain ⟨_, s₇, run₇, rest₇⟩ := of_bind_ok rest₆
  obtain ⟨_, _, pa₈, rest₈⟩ := of_bind_ok rest₇
  obtain ⟨heap, rfl⟩ := of_kvaToPa_ok pa₈
  rw [bind_ok (run_get_eq _)] at rest₈
  obtain ⟨size₁, types₁, inside⟩ := of_markNormal_ok run₁
  obtain ⟨size₂, types₂⟩ := of_markPageRange_ok run₂ nofun
  obtain ⟨size₃, types₃⟩ := of_markPageRange_ok run₃ nofun
  obtain ⟨size₄, types₄⟩ := of_markPageRange_ok run₄ nofun
  obtain ⟨size₇, types₇⟩ := of_markPageRange_ok run₇ nofun
  obtain ⟨size₉, types₉⟩ := of_markPageRange_ok rest₈ nofun
  have size : s₇.nrPages = s.nrPages :=
    size₇.trans (size₄.trans (size₃.trans (size₂.trans size₁)))
  refine ⟨size₉.trans size, fun p => ?_, inside⟩
  rw [types₉, types₇, types₄, types₃, types₂, types₁, size]
  have first : p ∈ Iio 7 ↔ p ∈ pageRange 0 1 ∨ p ∈ pageRange 1 6 := by
    simp only [pageRange, mem_Iio, mem_Ico]
    omega
  simp only [keptBack, mem_union, first, ← stack, ← stackEnd, ← heap, not_or]
  constructor
  · rintro ⟨outHeap, outStack, outImage, outTables, notZero, offered⟩
    exact ⟨offered, ⟨⟨⟨notZero, outTables⟩, outImage⟩, outStack⟩, outHeap⟩
  · rintro ⟨offered, ⟨⟨⟨notZero, outTables⟩, outImage⟩, outStack⟩, outHeap⟩
    exact ⟨outHeap, outStack, outImage, outTables, notZero, offered⟩

end Marked

section Kept
variable {entries : List MmapEntry} {e : MmapEntry} {p : Nat}

def MmapEntry.toAdded (e : MmapEntry) : AddedMemory :=
  ⟨e.addr, e.count, if e.type = multibootMemoryAvailable then .normal else .unusable⟩

theorem accepted_calls :
    accepted (mmInitCalls entries) = (kept entries).map MmapEntry.toAdded := by
  have calls : ((mmInitCalls entries).filter fun a => a.nrPages ≠ 0) =
      (entries.filter fun e => (e.type = multibootMemoryAvailable ∨
        e.type = multibootMemoryReserved) ∧ e.count ≠ 0).map MmapEntry.toAdded := by
    induction entries with
    | nil => rfl
    | cons e rest ih =>
        have count : (e.len >>> 12) % 2 ^ 32 = e.count := by
          rw [Nat.shiftRight_eq_div_pow]
          rfl
        have none : ¬ (e.len >>> 12) <<< 12 ≠ 0 → e.count = 0 := by
          rw [← count, Nat.shiftLeft_eq]
          omega
        rw [mmInitCalls] at ih
        rw [mmInitCalls, List.filterMap_cons, List.filter_cons, MmapEntry.added, count]
        by_cases long : (e.len >>> 12) <<< 12 ≠ 0
        · rw [if_pos long]
          by_cases available : e.type = multibootMemoryAvailable
          · rw [if_pos available, List.filter_cons, ih]
            by_cases some : e.count = 0 <;> simp [available, some, MmapEntry.toAdded]
          · rw [if_neg available]
            by_cases reserved : e.type = multibootMemoryReserved
            · rw [if_pos reserved, List.filter_cons, ih]
              by_cases some : e.count = 0 <;>
                simp [reserved, some, MmapEntry.toAdded, multibootMemoryAvailable,
                  multibootMemoryReserved]
            · rw [if_neg reserved, ih]
              simp [available, reserved]
        · rw [if_neg long, ih]
          simp [none long]
  rw [accepted, calls, kept, List.map_take]

theorem mem_kept (mem : e ∈ kept entries) : e ∈ entries ∧ e.count ≠ 0 := by
  have filtered := List.mem_filter.mp (List.mem_of_mem_take mem)
  exact ⟨filtered.1, (of_decide_eq_true filtered.2).2⟩

theorem mem_normalPages_iff :
    p ∈ normalPages (mmInit entries).physMemBlocks ↔
      ∃ e ∈ kept entries, e.type = multibootMemoryAvailable ∧ p ∈ e.pages := by
  rw [mmInit, (ofBlocks_spec _).1, accepted_calls]
  simp only [normalPages, mem_ofPred_eq, List.map_map, List.mem_map]
  have block : ∀ e : MmapEntry, (e.toAdded.block.type = .normal ∧ e.toAdded.block.basePfn ≤ p ∧
      p < e.toAdded.block.basePfn + e.toAdded.block.nrPages) ↔
      e.type = multibootMemoryAvailable ∧ p ∈ e.pages := by
    intro e
    have pfn : e.toAdded.block.basePfn = e.addr / 0x1000 := Nat.shiftRight_eq_div_pow _ _
    have type : e.toAdded.block.type = .normal ↔ e.type = multibootMemoryAvailable := by
      change (if e.type = multibootMemoryAvailable then MemoryType.normal else .unusable) = _ ↔ _
      split_ifs with available
      · simp [available]
      · simp [available]
    rw [type, pfn]
    rfl
  constructor
  · rintro ⟨_, ⟨e, mem, rfl⟩, normal⟩
    exact ⟨e, mem, (block e).mp normal⟩
  · rintro ⟨e, mem, inside⟩
    exact ⟨_, ⟨e, mem, rfl⟩, (block e).mpr inside⟩

/-- Only the first page of an entry can begin before it. -/
theorem pageBytes_subset (inside : p ∈ e.pages)
    (starts : e.addr % 0x1000 = 0 ∨ p ≠ e.addr / 0x1000) : pageBytes p ⊆ e.bytes := by
  obtain ⟨low, high⟩ := inside
  have rounded : e.count ≤ e.len / 0x1000 := Nat.mod_le _ _
  refine Ico_subset_Ico ?_ ?_
  · omega
  · omega

end Kept

/-- What is available after marking is memory of the map, unless rounding or an overlap gives away
a page that `init` does not keep back. -/
theorem real_memory_iff (entries : List MmapEntry) (layout : KernelLayout)
    {s s₁ m : PageAllocator.State}
    (setup : (setupPageDescriptors (mmInit entries) layout).run s = .ok (true, s₁))
    (mark : (markAll (mmInit entries) layout).run s₁ = .ok ((), m)) :
    RealMemory entries m ↔
      RoundsSafely entries (keptBack layout (nrPagesOf (mmInit entries))) := by
  have fresh : s₁.nrPages = nrPagesOf (mmInit entries) ∧ s₁.types = fun _ => .invalid := by
    obtain ⟨pa, _, _, rest⟩ := of_bind_ok setup
    cases found : (mmInit entries).lookupPhysBlock pa with
    | none =>
        rw [found] at rest
        cases rest
    | some b =>
        rw [found] at rest
        cases rest
        exact ⟨rfl, rfl⟩
  obtain ⟨size, types, inside⟩ := of_markAll_ok mark
  have available : ∀ p, p < m.nrPages ∧ m.types p = .available ↔
      (∃ e ∈ kept entries, e.type = multibootMemoryAvailable ∧ p ∈ e.pages) ∧
        p ∉ keptBack layout (nrPagesOf (mmInit entries)) := by
    intro p
    rw [types, ← mem_normalPages_iff, ← fresh.1, fresh.2, size]
    constructor
    · rintro ⟨-, normal | other, free⟩
      · exact ⟨normal, free⟩
      · cases other
    · rintro ⟨normal, free⟩
      exact ⟨inside p normal, .inl normal, free⟩
  constructor
  · intro real
    refine ⟨fun e mem type unaligned => ?_, fun e mem type r listed reserved p page => ?_⟩
    · by_cases back : e.addr / 0x1000 ∈ keptBack layout (nrPagesOf (mmInit entries))
      · exact .inl back
      · have first : e.addr / 0x1000 ∈ e.pages :=
          ⟨le_rfl, Nat.lt_add_of_pos_right (Nat.pos_of_ne_zero (mem_kept mem).2)⟩
        obtain ⟨fits, tagged⟩ := (available _).mpr ⟨⟨e, mem, type, first⟩, back⟩
        exact .inr (real _ fits tagged).1
    · by_cases back : p ∈ keptBack layout (nrPagesOf (mmInit entries))
      · exact .inl back
      · obtain ⟨fits, tagged⟩ := (available p).mpr ⟨⟨e, mem, type, page⟩, back⟩
        exact .inr ((real p fits tagged).2 r listed reserved)
  · intro safe p fits tagged
    obtain ⟨⟨e, mem, type, page⟩, back⟩ := (available p).mp ⟨fits, tagged⟩
    refine ⟨?_, fun r listed reserved => ?_⟩
    swap
    · exact (safe.apart e mem type r listed reserved p page).resolve_left back
    by_cases starts : e.addr % 0x1000 = 0 ∨ p ≠ e.addr / 0x1000
    · exact ⟨e, (mem_kept mem).1, type, pageBytes_subset page starts⟩
    · obtain ⟨unaligned, first⟩ := not_or.mp starts
      rw [not_not.mp first] at back ⊢
      exact (safe.first e mem type unaligned).resolve_left back

/-- Fourteen pages and half of a page behind them. -/
def unalignedMap : List MmapEntry := [⟨0, 0xe000, 1⟩, ⟨0xe800, 0x1000, 1⟩]

/-- The kernel image at page 7, the stack at 8, the heap at 9. -/
def lowLayout : KernelLayout :=
  ⟨0x7000, 0x7fff, 0xFFFFFFFF80008000, 0xFFFFFFFF80008fff, 0xFFFFFFFF80009000⟩

theorem unaligned_setup : (setupPageDescriptors (mmInit unalignedMap) lowLayout).run
    ⟨Buddy.State.fresh 0, fun _ => .invalid⟩ =
      .ok (true, ⟨Buddy.State.fresh 15, fun _ => .invalid⟩) := rfl

theorem unaligned_marks : ∃ m, (markAll (mmInit unalignedMap) lowLayout).run
    ⟨Buddy.State.fresh 15, fun _ => .invalid⟩ = .ok ((), m) :=
  of_returns (by decide +kernel)

theorem real_memory_iff_unaligned : ∃ s₁ m,
    (setupPageDescriptors (mmInit unalignedMap) lowLayout).run
      ⟨Buddy.State.fresh 0, fun _ => .invalid⟩ = .ok (true, s₁) ∧
    (markAll (mmInit unalignedMap) lowLayout).run s₁ = .ok ((), m) ∧
    (RealMemory unalignedMap m ↔
      RoundsSafely unalignedMap (keptBack lowLayout (nrPagesOf (mmInit unalignedMap)))) := by
  obtain ⟨m, mark⟩ := unaligned_marks
  exact ⟨_, m, unaligned_setup, mark, real_memory_iff _ _ unaligned_setup mark⟩

/-- The first half of page 14 is in no entry. -/
theorem page_outside_map_available : ∃ s s₁ m,
    (setupPageDescriptors (mmInit unalignedMap) lowLayout).run s = .ok (true, s₁) ∧
    (markAll (mmInit unalignedMap) lowLayout).run s₁ = .ok ((), m) ∧
    ¬ RealMemory unalignedMap m := by
  obtain ⟨m, mark⟩ := unaligned_marks
  refine ⟨_, _, m, unaligned_setup, mark, fun real => ?_⟩
  obtain ⟨size, types, inside⟩ := of_markAll_ok mark
  have normal : 14 ∈ normalPages (mmInit unalignedMap).physMemBlocks :=
    mem_normalPages_iff.mpr ⟨⟨0xe800, 0x1000, 1⟩, by decide, rfl, by decide, by decide⟩
  have available : m.types 14 = .available := (types 14).mpr ⟨.inl normal, by decide⟩
  have fits : 14 < m.nrPages := size ▸ inside 14 normal
  obtain ⟨⟨e, mem, -, subset⟩, -⟩ := real 14 fits available
  have start : 0xe000 ∈ e.bytes := subset ⟨by decide, by decide⟩
  have outside : ∀ e ∈ unalignedMap, ¬ (e.addr ≤ 0xe000 ∧ 0xe000 < e.addr + e.len) := by decide
  exact outside e mem start

end Infos.Mm
