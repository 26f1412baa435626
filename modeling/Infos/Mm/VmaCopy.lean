import Infos.Mm.VmaRange

/-!
# What a call of `copy_to` writes

Only the first address of the range is looked up; the bytes go to the physical memory that
follows it.
-/
namespace Infos.Mm.Vma
open Infos.Lib Function

/-- A lookup of `va` finds the physical address `pa`. -/
def Shows (s : State) (va pa : BitVec 64) : Prop := (getMapping va).run s = .ok (some pa, s)

/-- The byte of physical memory at `x`. -/
def physByte (s : State) (x : Nat) : Byte := byteAt s.mem (pmemVaStart + x)

/-- Address `j` of the range at `va`. -/
def addressOf (va : BitVec 64) (j : Nat) : BitVec 64 := va + BitVec.ofNat 64 j

/-- What a copy of `src` to `va` should do: write through the address space, or, if a page is
not mapped, nothing. -/
structure Copies (s : State) (va : BitVec 64) (src : List Byte) : Prop where
  written : ∀ s', (copyTo va src).run s = .ok (true, s') → ∀ j (inside : j < src.length),
    ∃ pa, Shows s (addressOf va j) pa ∧ physByte s' pa.toNat = src[j] ∧
      (va.toNat + src.length ≤ 2 ^ 47 → Shows s' (addressOf va j) pa)
  others : ∀ s', (copyTo va src).run s = .ok (true, s') → ∀ x,
    (∀ j < src.length, ∀ pa, Shows s (addressOf va j) pa → pa.toNat ≠ x) →
      physByte s' x = physByte s x
  unmapped : (∃ j < src.length, (getMapping (addressOf va j)).run s = .ok (none, s)) →
    (copyTo va src).run s = .ok (false, s)

/-- If the first address is mapped, the others are mapped to the bytes that follow. -/
def Consecutive (s : State) (va : BitVec 64) (n : Nat) : Prop :=
  ∀ pa, Shows s va pa → ∀ j < n, ∃ q, Shows s (addressOf va j) q ∧ q.toNat = pa.toNat + j

section Copy
variable {s s' : State} {m : List Nat → Option (BitVec 64)} {T D : Nat → Prop}
  {va pa q : BitVec 64} {src : List Byte} {n : Nat}

theorem addressOf_zero (va : BitVec 64) : addressOf va 0 = va := BitVec.add_zero va

theorem Shows.unique (h : Shows s va pa) (h' : Shows s va q) : pa = q := by
  unfold Shows at h h'
  rw [h] at h'
  cases h'
  rfl

/-- The state after a copy to physical address `pa`. -/
def copied (s : State) (pa : BitVec 64) (src : List Byte) : State :=
  { s with mem := writeBytes s.mem (pmemVaStart + pa.toNat) src }

theorem copyTo_run (src : List Byte) (shows : Shows s va pa) (small : pa.toNat < pmemVaSize) :
    (copyTo va src).run s = .ok (true, copied s pa src) := by
  unfold copyTo
  rw [bind_ok shows]
  exact (bind_ok (paToVpa_run small)).trans rfl

theorem copyTo_unmapped (src : List Byte) (none : (getMapping va).run s = .ok (none, s)) :
    (copyTo va src).run s = .ok (false, s) := by
  unfold copyTo
  rw [bind_ok none]
  rfl

theorem copies_of_unmapped (none : (getMapping va).run s = .ok (none, s)) : Copies s va src := by
  have run := copyTo_unmapped src none
  refine ⟨?_, ?_, fun _ => run⟩
  · intro s' run'
    rw [run] at run'
    cases run'
  · intro s' run'
    rw [run] at run'
    cases run'

theorem physByte_copied {j : Nat} (inside : j < src.length) :
    physByte (copied s pa src) (pa.toNat + j) = src[j] := by
  unfold physByte copied
  rw [← Nat.add_assoc]
  exact byteAt_writeBytes_inside src inside

theorem physByte_copied_outside {x : Nat} (outside : x < pa.toNat ∨ pa.toNat + src.length ≤ x) :
    physByte (copied s pa src) x = physByte s x := by
  unfold physByte copied
  exact byteAt_writeBytes_outside src (by omega)

/-! ### Data pages only -/

theorem Space.frame_of_shows (h : Space s m T D)
    (data : ∀ p base, m p = some base → ∃ f, D f ∧ base = pgdToPa f)
    (apart : Apart s.pageAllocations) (low : va.toNat < 2 ^ 47) (shows : Shows s va pa) :
    ∃ f, D f ∧ f < 2 ^ 20 ∧ pa.toNat = 4096 * f + va.toNat % 4096 := by
  unfold Shows at shows
  rw [h.getMapping low] at shows
  cases found : m (path va) with
  | none =>
      rw [found] at shows
      cases shows
  | some base =>
      rw [found] at shows
      cases shows
      obtain ⟨f, hf, rfl⟩ := data _ _ found
      obtain ⟨block, mem, has⟩ := h.heldData f hf
      have small : f < 2 ^ 20 := by
        have inside := (apart.inside block mem).2
        have upper := has.2
        omega
      exact ⟨f, hf, small, toNat_pgdToPa_or small va⟩

theorem toNat_addressOf {j : Nat} (low : va.toNat + j < 2 ^ 64) :
    (addressOf va j).toNat = va.toNat + j := by
  rw [addressOf, BitVec.toNat_add, BitVec.toNat_ofNat]
  omega

theorem Space.copied (h : Space s m T D) (low : va.toNat + src.length ≤ 2 ^ 47)
    (data : ∀ p base, m p = some base → ∃ f, D f ∧ base = pgdToPa f)
    (apart : Apart s.pageAllocations) (first : Shows s va pa)
    (consecutive : Consecutive s va src.length) : Space (copied s pa src) m T D := by
  refine h.updated (P := D) ⟨?_, rfl, rfl, rfl⟩ fun f table data => h.apart f table data
  intro a out
  apply writeBytes_word src
  intro j inside
  rintro rfl
  obtain ⟨q, shows, next⟩ := consecutive pa first j inside
  have value : (addressOf va j).toNat = va.toNat + j := toNat_addressOf (by omega)
  obtain ⟨f, hf, _, same⟩ := h.frame_of_shows data apart (by omega) shows
  apply out f hf
  rw [InPage, tableAt, pmemVaStart]
  omega

theorem Space.copies (h : Space s m T D) (user : va.toNat < 2 ^ 47)
    (data : ∀ p base, m p = some base → ∃ f, D f ∧ base = pgdToPa f)
    (apart : Apart s.pageAllocations) (small : ∀ pa, Shows s va pa → pa.toNat < pmemVaSize)
    (consecutive : Consecutive s va src.length) : Copies s va src := by
  have answer := h.getMapping user
  cases found : m (path va) with
  | none =>
      rw [found] at answer
      exact copies_of_unmapped answer
  | some base =>
      rw [found] at answer
      have first : Shows s va (base ||| (va &&& 0xfff#64)) := answer
      generalize base ||| (va &&& 0xfff#64) = pa at first
      have run := copyTo_run src first (small pa first)
      constructor
      case written =>
        intro s' run' j inside
        rw [run] at run'
        cases run'
        obtain ⟨q, shows, value⟩ := consecutive pa first j inside
        refine ⟨q, shows, ?_, ?_⟩
        · rw [value, physByte_copied inside]
        · intro low
          have h' := h.copied low data apart first consecutive
          have value' : (addressOf va j).toNat = va.toNat + j := toNat_addressOf (by omega)
          exact (h.same_lookup h' (by omega) rfl _).mpr shows
      case others =>
        intro s' run' x out
        rw [run] at run'
        cases run'
        apply physByte_copied_outside
        by_contra within
        obtain ⟨j, rfl⟩ := Nat.exists_eq_add_of_le (by omega : pa.toNat ≤ x)
        obtain ⟨q, shows, value⟩ := consecutive pa first j (by omega)
        exact out j (by omega) q shows value
      case unmapped =>
        rintro ⟨j, inside, none⟩
        obtain ⟨q, shows, _⟩ := consecutive pa first j inside
        unfold Shows at shows
        rw [none] at shows
        cases shows

/-- A source with one byte that differs from the others, and from what is in its place, tells
whether the range is consecutive. -/
theorem consecutive_of_copies (small : ∀ pa, Shows s va pa → pa.toNat < pmemVaSize)
    (copies : ∀ src : List Byte, src.length = n → Copies s va src) : Consecutive s va n := by
  intro pa first j inside
  let old := physByte s (pa.toNat + j)
  let src := (List.range n).map fun k => if k = j then old + 1 else old
  have length : src.length = n := by simp [src]
  have run := copyTo_run src first (small pa first)
  have copy := copies src length
  have lookups := fun k (lt : k < n) => copy.written _ run k (by omega)
  obtain ⟨q, shows, -, -⟩ := lookups j inside
  refine ⟨q, shows, ?_⟩
  by_contra other
  have new : physByte (copied s pa src) (pa.toNat + j) = old + 1 := by
    rw [physByte_copied (by omega)]
    simp [src]
  have kept : physByte (copied s pa src) (pa.toNat + j) = old := by
    by_cases shown : ∃ k < n, ∃ q', Shows s (addressOf va k) q' ∧ q'.toNat = pa.toNat + j
    · obtain ⟨k, lt, q', shows', value⟩ := shown
      have ne : k ≠ j := by
        rintro rfl
        rw [shows.unique shows'] at other
        exact other value
      obtain ⟨q'', again, byte, -⟩ := lookups k lt
      rw [← shows'.unique again, value] at byte
      rw [byte]
      simp [src, ne]
    · refine copy.others _ run _ ?_
      intro k lt q' shows' value
      exact shown ⟨k, by omega, q', shows', value⟩
  have differs : ∀ b : Byte, b ≠ b + 1 := by decide
  exact differs old (kept.symm.trans new)

end Copy

/-- Every source of `n` bytes is copied as it should be exactly if the range is mapped to
consecutive bytes, or its first page is not mapped at all. -/
theorem copies_iff_consecutive {s : State} (h : Reached DataPage s) {va : BitVec 64}
    (user : va.toNat < 2 ^ 47) (n : Nat) :
    (∀ src : List Byte, src.length = n → Copies s va src) ↔ Consecutive s va n := by
  obtain ⟨m, D, space, data⟩ := h.shows_data
  have small : ∀ pa, Shows s va pa → pa.toNat < pmemVaSize := by
    intro pa shows
    obtain ⟨f, _, lt, value⟩ := space.frame_of_shows data h.apart user shows
    rw [value, pmemVaSize]
    omega
  constructor
  · exact consecutive_of_copies small
  · rintro consecutive src rfl
    exact space.copies user data h.apart small consecutive

/-- Two pages at 0x400000, mapped by one call or by two. -/
def pairStart : State := ⟨fun _ => 0, [1, 8, 3, 4, 5, 12, 6], [], 0, 0⟩

def onePair : Exec State Bool := do
  create (some fun _ => 0)
  allocateVirt 0x400000 2

def twoSingles : Exec State Bool := do
  create (some fun _ => 0)
  let _ ← allocateVirt 0x400000 1
  allocateVirt 0x401000 1

/-- Eight bytes over the end of a page are copied if one call mapped both pages. -/
theorem onePair_copies :
    ∃ r s, onePair.run pairStart = .ok (r, s) ∧
      ∀ src : List Byte, src.length = 8 → Copies s 0x400ffc src := by
  have ran : endsWith onePair pairStart (fun _ s =>
      s.pageAllocations == [⟨1, 0⟩, ⟨8, 1⟩, ⟨3, 0⟩, ⟨4, 0⟩, ⟨5, 0⟩] &&
      (List.range 8).all fun j =>
        returns (getMapping (addressOf 0x400ffc j)) s (some (addressOf 0x8ffc j))) = true := by
    decide +kernel
  obtain ⟨r, s, run, facts⟩ := of_endsWith ran
  simp only [Bool.and_eq_true, beq_iff_eq, List.all_eq_true, List.mem_range] at facts
  obtain ⟨blocks, lookups⟩ := facts
  have apart : Apart s.pageAllocations := by
    rw [blocks]
    decide
  have shows : ∀ j < 8, Shows s (addressOf 0x400ffc j) (addressOf 0x8ffc j) := by
    intro j lt
    obtain ⟨t, found⟩ := of_returns (lookups j lt)
    cases getMapping_same _ _ _ _ found
    exact found
  have reached : Reached DataPage s := by
    unfold onePair at run
    obtain ⟨_, s₁, run₁, run₂⟩ := of_bind_ok run
    have apart₁ := apart.of_prefix (allocateVirt_extends _ _ _ _ _ run₂).blocks
    have created : Reached DataPage s₁ := .create _ ⟨by decide, by decide⟩ rfl run₁ apart₁
    exact created.allocateVirt (by decide) (fun _ _ page => page) run₂ apart
  refine ⟨r, s, run, (copies_iff_consecutive reached (by decide) 8).mpr ?_⟩
  intro pa first j lt
  have start := shows 0 (by decide)
  rw [addressOf_zero] at start
  cases first.unique start
  refine ⟨_, shows j lt, ?_⟩
  exact toNat_addressOf (by change 0x8ffc + j < 2 ^ 64; omega)

/-- If two calls mapped them, the end of the bytes goes to physical memory behind the first. -/
theorem twoSingles_stray :
    ∃ r s, twoSingles.run pairStart = .ok (r, s) ∧ Reached DataPage s ∧
      ∃ src : List Byte, ¬ Copies s 0x400ffc src := by
  have ran : endsWith twoSingles pairStart (fun _ s =>
      s.pageAllocations == [⟨1, 0⟩, ⟨8, 0⟩, ⟨3, 0⟩, ⟨4, 0⟩, ⟨5, 0⟩, ⟨12, 0⟩] &&
      returns (getMapping (addressOf 0x400ffc 4)) s (some 0xc000) &&
      endsWith (copyTo 0x400ffc [1, 2, 3, 4, 5, 6, 7, 8]) s (fun r s' =>
        r && physByte s' 0xc000 == 0)) = true := by
    decide +kernel
  obtain ⟨r, s, run, facts⟩ := of_endsWith ran
  simp only [Bool.and_eq_true, beq_iff_eq] at facts
  obtain ⟨⟨blocks, lookup⟩, ran'⟩ := facts
  obtain ⟨_, s', run', facts⟩ := of_endsWith ran'
  simp only [Bool.and_eq_true, beq_iff_eq] at facts
  obtain ⟨rfl, byte⟩ := facts
  have apart : Apart s.pageAllocations := by
    rw [blocks]
    decide
  have reached : Reached DataPage s := by
    unfold twoSingles at run
    obtain ⟨_, s₁, run₁, run⟩ := of_bind_ok run
    obtain ⟨_, s₂, run₂, run₃⟩ := of_bind_ok run
    have apart₂ := apart.of_prefix (allocateVirt_extends _ _ _ _ _ run₃).blocks
    have apart₁ := apart₂.of_prefix (allocateVirt_extends _ _ _ _ _ run₂).blocks
    have created : Reached DataPage s₁ := .create _ ⟨by decide, by decide⟩ rfl run₁ apart₁
    have first := created.allocateVirt (by decide) (fun _ _ page => page) run₂ apart₂
    exact first.allocateVirt (by decide) (fun _ _ page => page) run₃ apart
  refine ⟨r, s, run, reached, [1, 2, 3, 4, 5, 6, 7, 8], ?_⟩
  intro copy
  obtain ⟨pa, shows, written, -⟩ := copy.written s' run' 4 (by decide)
  obtain ⟨t, found⟩ := of_returns lookup
  cases getMapping_same _ _ _ _ found
  cases shows.unique found
  have zero : (0 : Byte) = 5 := byte.symm.trans written
  exact absurd zero (by decide)

end Infos.Mm.Vma
