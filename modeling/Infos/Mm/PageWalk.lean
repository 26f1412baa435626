import Infos.Mm.VmaCopy

/-!
# The processor's walk

Four levels of tables in physical memory, where an entry of the two levels in the middle may
map a page of its own, and `get_mapping` beside it.
-/
namespace Infos.Mm.Vma
open Infos.Lib Function

/-- Entry `i` of the table at physical address `table`. -/
def entryAt (s : State) (table i : Nat) : BitVec 64 := s.mem (pmemVaStart + table + 8 * i)

/-- The address in bits `k` to 51 of an entry. -/
def addressField (k : Nat) (entry : BitVec 64) : Nat := entry.toNat % 2 ^ 52 / 2 ^ k * 2 ^ k

/-- How many bits of an address are below the index of a level; the page table is level 0. -/
def levelBits (level : Nat) : Nat := 12 + 9 * level

/-- The entry of `va` in a table of some level. -/
def entryOf (s : State) (va : BitVec 64) (level table : Nat) : BitVec 64 :=
  entryAt s table (va.toNat / 2 ^ levelBits level % 512)

/-- Present is bit 0, and bit 7, outside the top level, maps a large page. -/
def walkFrom (s : State) (va : BitVec 64) : Nat → Nat → Option Nat
  | 0, table =>
      let entry := entryOf s va 0 table
      if entry.getLsbD 0 then some (addressField 12 entry + va.toNat % 2 ^ 12) else none
  | level + 1, table =>
      let entry := entryOf s va (level + 1) table
      if entry.getLsbD 0 then
        if entry.getLsbD 7 ∧ level + 1 < 3 then
          some (addressField (levelBits (level + 1)) entry + va.toNat % 2 ^ levelBits (level + 1))
        else walkFrom s va level (addressField 12 entry)
      else none

/-- Where the processor finds `va`, with the base of the tables in its register. -/
def processorWalk (s : State) (va : BitVec 64) : Option Nat :=
  walkFrom s va 3 (addressField 12 s.pgtPhysBase)

/-- The tables are at a page of physical memory that the direct map shows. -/
structure Rooted (s : State) : Prop where
  shown : s.pgtVirtBase = pmemVaStart + s.pgtPhysBase.toNat
  page : s.pgtPhysBase.toNat % 4096 = 0
  small : s.pgtPhysBase.toNat < pmemVaSize

/-- `get_mapping` reports what the processor finds. -/
def Agrees (s : State) (va : BitVec 64) : Prop :=
  ∃ r, (getMapping va).run s = .ok (r, s) ∧ r.map BitVec.toNat = processorWalk s va

/-- Read as tables of the levels from `level` down, the words at `table` lead to `pa`. -/
def LeadsTo (s : State) (va : BitVec 64) (pa : Nat) : Nat → Nat → Prop
  | 0, table =>
      let entry := entryOf s va 0 table
      getFlag entry .present = true ∧ (baseAddress entry).toNat + va.toNat % 2 ^ 12 = pa
  | level + 1, table =>
      let entry := entryOf s va (level + 1) table
      getFlag entry .present = true ∧ (baseAddress entry).toNat < pmemVaSize ∧
        LeadsTo s va pa level (baseAddress entry).toNat

/-- No entry on the way is huge, and all tables are in the direct map; or the contents of a
huge page, read as tables, happen to lead to the page. -/
def Plain (s : State) (va : BitVec 64) : Nat → Nat → Prop
  | 0, table =>
      let entry := entryOf s va 0 table
      getFlag entry .present = true → (baseAddress entry).toNat < 2 ^ 52
  | level + 1, table =>
      let entry := entryOf s va (level + 1) table
      getFlag entry .present = true → (baseAddress entry).toNat < pmemVaSize ∧
        if getFlag entry .huge = true ∧ level + 1 < 3 then
          LeadsTo s va
            (addressField (levelBits (level + 1)) entry + va.toNat % 2 ^ levelBits (level + 1))
            level (baseAddress entry).toNat
        else Plain s va level (baseAddress entry).toNat

section Decide
variable (s : State) (va : BitVec 64)

instance decidableLeadsTo (pa : Nat) :
    (level table : Nat) → Decidable (LeadsTo s va pa level table)
  | 0, _ => inferInstanceAs (Decidable (_ ∧ _))
  | level + 1, _ =>
      have := decidableLeadsTo pa level
      inferInstanceAs (Decidable (_ ∧ _ ∧ _))

instance decidablePlain : (level table : Nat) → Decidable (Plain s va level table)
  | 0, table => inferInstanceAs (Decidable (getFlag (entryOf s va 0 table) .present = true →
      (baseAddress (entryOf s va 0 table)).toNat < 2 ^ 52))
  | level + 1, table =>
      have := decidablePlain level
      inferInstanceAs (Decidable (getFlag (entryOf s va (level + 1) table) .present = true →
        (baseAddress (entryOf s va (level + 1) table)).toNat < pmemVaSize ∧
          if getFlag (entryOf s va (level + 1) table) .huge = true ∧ level + 1 < 3 then
            LeadsTo s va (addressField (levelBits (level + 1)) (entryOf s va (level + 1) table) +
                va.toNat % 2 ^ levelBits (level + 1))
              level (baseAddress (entryOf s va (level + 1) table)).toNat
          else Plain s va level (baseAddress (entryOf s va (level + 1) table)).toNat))

end Decide

/-! ### The walk of `get_mapping` -/

/-- `get_mapping` from a table of some level on. -/
def tableWalk (s : State) (va : BitVec 64) : Nat → Nat → Except Fault (Option (BitVec 64))
  | 0, table =>
      let entry := entryOf s va 0 table
      if getFlag entry .present then .ok (some (baseAddress entry ||| (va &&& 0xfff#64)))
      else .ok none
  | level + 1, table =>
      let entry := entryOf s va (level + 1) table
      if getFlag entry .present then
        if (baseAddress entry).toNat < pmemVaSize then tableWalk s va level (baseAddress entry).toNat
        else .error .assertion
      else .ok none

section Walk
variable {s : State} {va : BitVec 64} {level table : Nat}

theorem lookupTable_absent {entry : Nat} (absent : getFlag (s.mem entry) .present = false) :
    (lookupTable entry).run s = .ok (none, s) := by
  unfold lookupTable
  rw [bind_ok (load_run entry), absent]
  rfl

theorem lookupTable_present {entry : Nat} (present : getFlag (s.mem entry) .present = true)
    (small : (baseAddress (s.mem entry)).toNat < pmemVaSize) :
    (lookupTable entry).run s =
      .ok (some (pmemVaStart + (baseAddress (s.mem entry)).toNat), s) := by
  unfold lookupTable
  rw [bind_ok (load_run entry), if_pos present, bind_ok (load_run entry),
    bind_ok (paToVpa_run small)]
  rfl

theorem lookupTable_aborts {entry : Nat} (present : getFlag (s.mem entry) .present = true)
    (large : ¬ (baseAddress (s.mem entry)).toNat < pmemVaSize) :
    (lookupTable entry).run s = .error .assertion := by
  have failed : (paToVpa (baseAddress (s.mem entry))).run s = .error .assertion := by
    unfold paToVpa
    rw [decide_eq_false large]
    rfl
  unfold lookupTable
  rw [bind_ok (load_run entry), if_pos present, bind_ok (load_run entry), bind_error failed]

theorem lookupTable_step (level : Nat) {f : Option Nat → Exec State (Option (BitVec 64))}
    (nothing : (f none).run s = .ok (none, s))
    (below : (baseAddress (entryOf s va (level + 1) table)).toNat < pmemVaSize →
      (f (some (pmemVaStart + (baseAddress (entryOf s va (level + 1) table)).toNat))).run s =
        (tableWalk s va level (baseAddress (entryOf s va (level + 1) table)).toNat).map (·, s)) :
    (lookupTable (pmemVaStart + table + 8 * (va.toNat / 2 ^ levelBits (level + 1) % 512)) >>=
      f).run s = (tableWalk s va (level + 1) table).map (·, s) := by
  rw [tableWalk]
  by_cases present : getFlag (entryOf s va (level + 1) table) .present = true
  · rw [if_pos present]
    by_cases small : (baseAddress (entryOf s va (level + 1) table)).toNat < pmemVaSize
    · rw [if_pos small, bind_ok (lookupTable_present present small)]
      exact below small
    · rw [if_neg small, bind_error (lookupTable_aborts present small)]
      rfl
  · rw [if_neg present, bind_ok (lookupTable_absent (Bool.eq_false_iff.mpr present)), nothing]
    rfl

theorem getMapping_walk (rooted : Rooted s) (va : BitVec 64) :
    (getMapping va).run s = (tableWalk s va 3 s.pgtPhysBase.toNat).map (·, s) := by
  have root : s.pgtVirtBase ≠ 0 := by
    rw [rooted.shown, pmemVaStart]
    omega
  unfold getMapping
  rw [bind_ok (run_get_eq s), if_neg root, vaTableIndicies_eq]
  dsimp only
  rw [rooted.shown]
  refine lookupTable_step 2 rfl fun _ => ?_
  refine lookupTable_step 1 rfl fun _ => ?_
  refine lookupTable_step 0 rfl fun _ => ?_
  apply (bind_ok (load_run _)).trans
  rw [tableWalk]
  change (if getFlag (entryOf s va 0 _) .present then _ else _ : Exec State _).run s = _
  split_ifs <;> rfl

/-! ### Where the two agree -/

theorem toNat_baseAddress (entry : BitVec 64) :
    (baseAddress entry).toNat = entry.toNat / 4096 * 4096 := by
  have shifted : baseAddress entry = (entry >>> 12) <<< 12 := by
    apply BitVec.eq_of_getLsbD_eq
    intro i lt
    rw [getLsbD_baseAddress, BitVec.getLsbD_shiftLeft, BitVec.getLsbD_ushiftRight]
    by_cases low : i < 12
    · simp [low, Nat.not_le.mpr low]
    · simp [low, lt, Nat.not_lt.mp low, Nat.add_sub_cancel' (Nat.not_lt.mp low)]
  rw [shifted, BitVec.toNat_shiftLeft, BitVec.toNat_ushiftRight, Nat.shiftLeft_eq,
    Nat.shiftRight_eq_div_pow]
  omega

theorem toNat_baseAddress_or (entry va : BitVec 64) :
    (baseAddress entry ||| (va &&& 0xfff#64)).toNat =
      (baseAddress entry).toNat + va.toNat % 2 ^ 12 := by
  have value := toNat_baseAddress entry
  exact toNat_or_pageOffset (by omega) va

theorem addressField_eq {entry : BitVec 64} (small : (baseAddress entry).toNat < 2 ^ 52) :
    addressField 12 entry = (baseAddress entry).toNat := by
  rw [toNat_baseAddress] at small ⊢
  rw [addressField]
  omega

theorem addressField_eq_iff {entry : BitVec 64} :
    (baseAddress entry).toNat = addressField 12 entry ↔ (baseAddress entry).toNat < 2 ^ 52 := by
  constructor
  · intro same
    rw [same, addressField]
    omega
  · exact fun small => (addressField_eq small).symm

theorem present_bit (entry : BitVec 64) : entry.getLsbD 0 = getFlag entry .present :=
  (getFlag_eq entry .present).symm

theorem huge_bit (entry : BitVec 64) : entry.getLsbD 7 = getFlag entry .huge :=
  (getFlag_eq entry .huge).symm

/-- The answer `x` is the physical address `found`. -/
def Answers (x : Except Fault (Option (BitVec 64))) (found : Option Nat) : Prop :=
  ∃ r, x = .ok r ∧ r.map BitVec.toNat = found

theorem answers_ok {r : Option (BitVec 64)} {found : Option Nat} :
    Answers (.ok r) found ↔ r.map BitVec.toNat = found := by
  constructor
  · rintro ⟨r', e, same⟩
    cases e
    exact same
  · exact fun same => ⟨r, rfl, same⟩

theorem answers_error {e : Fault} {found : Option Nat} : ¬ Answers (.error e) found := by
  rintro ⟨r, e, -⟩
  cases e

theorem tableWalk_iff_leadsTo {pa : Nat} :
    Answers (tableWalk s va level table) (some pa) ↔ LeadsTo s va pa level table := by
  induction level generalizing table with
  | zero =>
      unfold tableWalk LeadsTo
      dsimp only
      by_cases present : getFlag (entryOf s va 0 table) .present = true
      · rw [if_pos present, answers_ok, Option.map_some, Option.some.injEq, toNat_baseAddress_or]
        exact (and_iff_right present).symm
      · rw [if_neg present, answers_ok]
        exact ⟨nofun, fun leads => absurd leads.1 present⟩
  | succ level ih =>
      unfold tableWalk LeadsTo
      dsimp only
      by_cases present : getFlag (entryOf s va (level + 1) table) .present = true
      · rw [if_pos present]
        by_cases small : (baseAddress (entryOf s va (level + 1) table)).toNat < pmemVaSize
        · rw [if_pos small, ih]
          exact (and_iff_right present).symm.trans (and_congr_right fun _ =>
            (and_iff_right small).symm)
        · rw [if_neg small]
          exact ⟨fun answer => absurd answer answers_error, fun leads => absurd leads.2.1 small⟩
      · rw [if_neg present, answers_ok]
        exact ⟨nofun, fun leads => absurd leads.1 present⟩

/-- By induction on the level: an entry that is not huge passes the question on. -/
theorem tableWalk_agrees_iff :
    Answers (tableWalk s va level table) (walkFrom s va level table) ↔ Plain s va level table := by
  induction level generalizing table with
  | zero =>
      unfold tableWalk walkFrom Plain
      dsimp only
      rw [present_bit]
      by_cases present : getFlag (entryOf s va 0 table) .present = true
      · rw [if_pos present, if_pos present, answers_ok, Option.map_some, Option.some.injEq,
          toNat_baseAddress_or, Nat.add_right_cancel_iff, addressField_eq_iff]
        exact ⟨fun small _ => small, fun plain => plain present⟩
      · rw [if_neg present, if_neg present, answers_ok]
        exact ⟨fun _ there => absurd there present, fun _ => rfl⟩
  | succ level ih =>
      unfold tableWalk walkFrom Plain
      dsimp only
      rw [present_bit, huge_bit]
      by_cases present : getFlag (entryOf s va (level + 1) table) .present = true
      · rw [if_pos present, if_pos present, forall_prop_of_true present]
        by_cases small : (baseAddress (entryOf s va (level + 1) table)).toNat < pmemVaSize
        · rw [if_pos small, and_iff_right small]
          by_cases huge : getFlag (entryOf s va (level + 1) table) .huge = true ∧ level + 1 < 3
          · rw [if_pos huge, if_pos huge]
            exact tableWalk_iff_leadsTo
          · have below : (baseAddress (entryOf s va (level + 1) table)).toNat < 2 ^ 52 := by
              rw [pmemVaSize] at small
              omega
            rw [if_neg huge, if_neg huge, addressField_eq below]
            exact ih
        · rw [if_neg small]
          exact ⟨fun answer => absurd answer answers_error, fun plain => absurd plain.1 small⟩
      · rw [if_neg present, if_neg present, answers_ok]
        exact ⟨fun _ there => absurd there present, fun _ => rfl⟩

theorem Rooted.addressField (h : Rooted s) :
    addressField 12 s.pgtPhysBase = s.pgtPhysBase.toNat := by
  have page := h.page
  have small := h.small
  rw [pmemVaSize] at small
  rw [Vma.addressField]
  omega

theorem agrees_iff_plain (rooted : Rooted s) (va : BitVec 64) :
    Agrees s va ↔ Plain s va 3 s.pgtPhysBase.toNat := by
  rw [← tableWalk_agrees_iff]
  unfold Agrees processorWalk
  rw [rooted.addressField, getMapping_walk rooted va]
  constructor
  · rintro ⟨r, run, same⟩
    refine ⟨r, ?_, same⟩
    cases walk : tableWalk s va 3 s.pgtPhysBase.toNat with
    | error e =>
        rw [walk] at run
        cases run
    | ok r' =>
        rw [walk] at run
        cases run
        rfl
  · rintro ⟨r, walk, same⟩
    refine ⟨r, ?_, same⟩
    rw [walk]
    rfl

end Walk
end Infos.Mm.Vma
