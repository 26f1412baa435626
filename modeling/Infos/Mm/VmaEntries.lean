import Infos.Mm.Vma
import Mathlib.Tactic.SplitIfs

/-!
# Table entries and table indices, bit by bit
-/
namespace Infos.Mm.Vma

theorem and_bit_eq_zero {w : Nat} (x : BitVec w) {i : Nat} (hi : i < w) :
    x &&& (1#w <<< i) = 0 ↔ x.getLsbD i = false := by
  constructor
  · intro h
    have := congrArg (fun y => y.getLsbD i) h
    simpa [hi] using this
  · intro h
    apply BitVec.eq_of_getLsbD_eq
    intro j hj
    by_cases e : j = i
    · subst e; simp [h]
    · have : decide (j < i) = true ∨ (j - i ≠ 0) := by simp; omega
      simp only [BitVec.getLsbD_and, BitVec.getLsbD_shiftLeft, hj, decide_true, Bool.true_and,
        BitVec.getLsbD_one, BitVec.ofNat_eq_ofNat, BitVec.getLsbD_zero]
      rcases this with lt | ne
      · simp [lt]
      · simp [ne]

theorem idx_lt (f : MMUTableEntryFlags) : f.idx < 12 := by cases f <;> decide

theorem idx_injective {f g : MMUTableEntryFlags} (h : f.idx = g.idx) : f = g := by
  cases f <;> cases g <;> first | rfl | cases h

theorem getLsbD_low (i : Nat) : (0xfff#64).getLsbD i = decide (i < 12) := by
  rcases Nat.lt_or_ge i 64 with lt | ge
  · revert i; decide
  · rw [BitVec.getLsbD_of_ge _ _ ge, eq_comm, decide_eq_false_iff_not]; omega

theorem getLsbD_low16 (i : Nat) : (0xfff#16).getLsbD i = decide (i < 12) := by
  rcases Nat.lt_or_ge i 16 with lt | ge
  · revert i; decide
  · rw [BitVec.getLsbD_of_ge _ _ ge, eq_comm, decide_eq_false_iff_not]; omega

theorem getLsbD_baseAddress (e : BitVec 64) (i : Nat) :
    (baseAddress e).getLsbD i = (decide (12 ≤ i) && e.getLsbD i) := by
  rcases Nat.lt_or_ge i 64 with lt | ge
  · rw [baseAddress, BitVec.getLsbD_and, BitVec.getLsbD_not, getLsbD_low]
    by_cases low : i < 12
    · simp [low, Nat.not_le.mpr low]
    · simp [low, lt, Nat.not_lt.mp low]
  · rw [BitVec.getLsbD_of_ge _ _ ge, BitVec.getLsbD_of_ge _ _ ge, Bool.and_false]

theorem getLsbD_setBaseAddress (addr e : BitVec 64) (i : Nat) :
    (setBaseAddress addr e).getLsbD i = if i < 12 then e.getLsbD i else addr.getLsbD i := by
  change ((e &&& 0xfff#64) ||| baseAddress addr).getLsbD i = _
  rw [BitVec.getLsbD_or, BitVec.getLsbD_and, getLsbD_low, getLsbD_baseAddress]
  by_cases low : i < 12
  · simp [low, Nat.not_le.mpr low]
  · simp [low, Nat.not_lt.mp low]

theorem getLsbD_flags (e : BitVec 64) (i : Nat) :
    (flags e).getLsbD i = (decide (i < 12) && e.getLsbD i) := by
  rw [flags, BitVec.getLsbD_setWidth, BitVec.getLsbD_and, getLsbD_low]
  by_cases low : i < 12
  · simp [low, show i < 16 by omega]
  · simp [low]

theorem getLsbD_setFlags (f : BitVec 16) (e : BitVec 64) (i : Nat) :
    (setFlags f e).getLsbD i = if i < 12 then f.getLsbD i else e.getLsbD i := by
  change (baseAddress e ||| (f &&& 0xfff#16).setWidth 64).getLsbD i = _
  rw [BitVec.getLsbD_or, getLsbD_baseAddress, BitVec.getLsbD_setWidth, BitVec.getLsbD_and,
    getLsbD_low16]
  by_cases low : i < 12
  · simp [low, Nat.not_le.mpr low, show i < 64 by omega]
  · simp [low, Nat.not_lt.mp low]

theorem getFlag_eq (e : BitVec 64) (f : MMUTableEntryFlags) : getFlag e f = e.getLsbD f.idx := by
  have lt := idx_lt f
  rw [Bool.eq_iff_iff, getFlag, bne_iff_ne, ne_eq, and_bit_eq_zero _ (by omega), Bool.not_eq_false,
    getLsbD_flags, decide_eq_true lt, Bool.true_and]

theorem getLsbD_bit {i j : Nat} (hj : j < 12) :
    (1#16 <<< j).getLsbD i = decide (i = j) := by
  rw [BitVec.getLsbD_shiftLeft, BitVec.getLsbD_one]
  by_cases e : i = j
  · subst e; simp; omega
  · simp [e]; omega

@[simp] theorem baseAddress_setBaseAddress (addr e : BitVec 64) :
    baseAddress (setBaseAddress addr e) = baseAddress addr := by
  apply BitVec.eq_of_getLsbD_eq
  intro i _
  rw [getLsbD_baseAddress, getLsbD_setBaseAddress, getLsbD_baseAddress]
  by_cases low : i < 12
  · simp [Nat.not_le.mpr low]
  · rw [if_neg low]

@[simp] theorem baseAddress_setFlags (f : BitVec 16) (e : BitVec 64) :
    baseAddress (setFlags f e) = baseAddress e := by
  apply BitVec.eq_of_getLsbD_eq
  intro i _
  rw [getLsbD_baseAddress, getLsbD_setFlags, getLsbD_baseAddress]
  by_cases low : i < 12
  · simp [Nat.not_le.mpr low]
  · rw [if_neg low]

@[simp] theorem baseAddress_setFlag (f : MMUTableEntryFlags) (v : Bool) (e : BitVec 64) :
    baseAddress (setFlag f v e) = baseAddress e := by
  rw [setFlag]
  split_ifs <;> exact baseAddress_setFlags _ _

@[simp] theorem getFlag_setBaseAddress (addr e : BitVec 64) (f : MMUTableEntryFlags) :
    getFlag (setBaseAddress addr e) f = getFlag e f := by
  rw [getFlag_eq, getFlag_eq, getLsbD_setBaseAddress, if_pos (idx_lt f)]

@[simp] theorem getFlag_setFlag (f g : MMUTableEntryFlags) (v : Bool) (e : BitVec 64) :
    getFlag (setFlag f v e) g = if f = g then v else getFlag e g := by
  have low := idx_lt g
  have here : g.idx = f.idx ↔ f = g := ⟨fun h => (idx_injective h).symm, fun h => by rw [h]⟩
  rw [getFlag_eq, getFlag_eq, setFlag]
  cases v with
  | false =>
      rw [Bool.not_false, if_pos rfl, getLsbD_setFlags, if_pos low, BitVec.getLsbD_and,
        BitVec.getLsbD_not, getLsbD_bit (idx_lt f), getLsbD_flags]
      simp only [here, low, decide_true, Bool.true_and]
      by_cases e : f = g <;> simp [e]; omega
  | true =>
      rw [Bool.not_true, if_neg (by decide), getLsbD_setFlags, if_pos low, BitVec.getLsbD_or,
        getLsbD_bit (idx_lt f), getLsbD_flags]
      simp only [here, low, decide_true, Bool.true_and]
      by_cases e : f = g <;> simp [e]

theorem getFlag_zero (f : MMUTableEntryFlags) : getFlag 0 f = false := by
  rw [getFlag_eq]
  exact BitVec.getLsbD_zero

theorem baseAddress_zero : baseAddress 0 = 0 := by decide

/-! ### Table indices -/

theorem toNat_bits (va : BitVec 64) (start : Nat) :
    ((bits va start (start + 8)).setWidth 16).toNat = va.toNat / 2 ^ start % 512 := by
  have mask : BitVec.ofNat 64 (1 <<< (start + 8 - start + 1)) - 1 = 511#64 := by
    rw [Nat.add_sub_cancel_left]
    decide
  have low := Nat.and_two_pow_sub_one_eq_mod (va.toNat / 2 ^ start) 9
  rw [bits, mask, BitVec.toNat_setWidth, BitVec.toNat_and, BitVec.toNat_ushiftRight,
    Nat.shiftRight_eq_div_pow]
  change (va.toNat / 2 ^ start &&& 511) % 2 ^ 16 = _
  rw [show 511 = 2 ^ 9 - 1 from rfl, low]
  omega

/-! ### Addresses and pages -/

theorem toNat_pageOffset (va : BitVec 64) : (va &&& 0xfff#64).toNat = va.toNat % 4096 := by
  rw [BitVec.toNat_and]
  exact Nat.and_two_pow_sub_one_eq_mod va.toNat 12

/-- The offset of `va`, added to the address of a page. -/
theorem toNat_or_pageOffset {base : BitVec 64} (page : base.toNat % 4096 = 0) (va : BitVec 64) :
    (base ||| (va &&& 0xfff#64)).toNat = base.toNat + va.toNat % 4096 := by
  have lt : va.toNat % 2 ^ 12 < 2 ^ 12 := Nat.mod_lt _ (by decide)
  have whole : base.toNat = 2 ^ 12 * (base.toNat / 4096) := by omega
  rw [BitVec.toNat_or, toNat_pageOffset, whole]
  exact (Nat.two_pow_add_eq_or_of_lt lt _).symm

/-- The page behind the one of `va`. -/
theorem next_page {va : BitVec 64} (inside : va.toNat / 4096 + 1 < 2 ^ 52) :
    (va + 0x1000).toNat / 4096 = va.toNat / 4096 + 1 := by
  rw [BitVec.toNat_add]
  change (va.toNat + 4096) % 2 ^ 64 / 4096 = _
  omega

/-- The entries a walk for `va` goes through. -/
def path (va : BitVec 64) : List Nat :=
  [va.toNat / 2 ^ 39 % 512, va.toNat / 2 ^ 30 % 512, va.toNat / 2 ^ 21 % 512,
    va.toNat / 2 ^ 12 % 512]

theorem vaTableIndicies_eq (va : BitVec 64) :
    vaTableIndicies va = (va.toNat / 2 ^ 39 % 512, va.toNat / 2 ^ 30 % 512,
      va.toNat / 2 ^ 21 % 512, va.toNat / 2 ^ 12 % 512) := by
  rw [vaTableIndicies, toNat_bits va 39, toNat_bits va 30, toNat_bits va 21, toNat_bits va 12]

/-- Two addresses agree on bits 12 to 47. -/
def SamePage (va va' : BitVec 64) : Prop := va.extractLsb 47 12 = va'.extractLsb 47 12

instance (va va' : BitVec 64) : Decidable (SamePage va va') :=
  inferInstanceAs (Decidable (va.extractLsb 47 12 = va'.extractLsb 47 12))

/-- An address outside the two kernel slots of the top-level table. -/
def UserAddress (va : BitVec 64) : Prop :=
  va.extractLsb 47 39 ≠ 0x100#9 ∧ va.extractLsb 47 39 ≠ 0x1ff#9

instance (va : BitVec 64) : Decidable (UserAddress va) :=
  inferInstanceAs (Decidable (_ ∧ _))

/-- The four indices together are bits 12 to 47. -/
theorem path_eq_iff (va va' : BitVec 64) : path va = path va' ↔ SamePage va va' := by
  rw [SamePage, ← BitVec.toNat_inj, BitVec.extractLsb_toNat, BitVec.extractLsb_toNat,
    Nat.shiftRight_eq_div_pow, Nat.shiftRight_eq_div_pow, path, path]
  simp only [List.cons.injEq, and_true]
  omega

theorem userAddress_iff (va : BitVec 64) :
    UserAddress va ↔ va.toNat / 2 ^ 39 % 512 ≠ 0x100 ∧ va.toNat / 2 ^ 39 % 512 ≠ 0x1ff := by
  rw [UserAddress, ne_eq, ne_eq, ← BitVec.toNat_inj, ← BitVec.toNat_inj,
    BitVec.extractLsb_toNat, Nat.shiftRight_eq_div_pow]
  rfl

end Infos.Mm.Vma
