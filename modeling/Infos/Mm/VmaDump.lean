import Infos.Mm.PageWalk

/-!
# Listing the tables

`dump` goes through the four levels of tables and logs a line for each page that they map.
-/
namespace Infos.Mm.Vma
open Infos.Lib Function

/-- The values in a line `VMA: MAP VA=%p -> PA=%p`. -/
structure MapLine where
  va : BitVec 64
  pa : BitVec 64
  deriving DecidableEq, Repr

/-- The loop over a table: entries that are not present are passed over. The lines come in the
order in which they are logged. -/
def forPresent (te : Nat) (body : Nat → BitVec 64 → Exec State (List MapLine)) :
    List Nat → Exec State (List MapLine)
  | [] => pure []
  | i :: indices => do
      let entry ← load (te + 8 * i)
      if getFlag entry .present then
        let here ← body i entry
        let rest ← forPresent te body indices
        pure (here ++ rest)
      else forPresent te body indices

/-- The body of `dump`, `dump_pdp` and `dump_pd`, where `va i` is the address logged for a huge
entry and `next` lists the table below. -/
def dumpTable (te : Nat) (va : Nat → BitVec 64) (next : Nat → Nat → Exec State (List MapLine)) :
    Exec State (List MapLine) :=
  forPresent te
    (fun i entry =>
      if getFlag entry .huge then pure [⟨va i, baseAddress entry⟩]
      else do next i (← paToVpa (baseAddress entry)))
    (List.range 0x200)

/-- The address logged for a page table entry. -/
def rebuiltVa (pml4 pdp pd pt : Nat) : BitVec 64 :=
  BitVec.ofNat 64 pml4 <<< 36 ||| BitVec.ofNat 64 pdp <<< 28 ||| BitVec.ofNat 64 pd <<< 20 |||
    BitVec.ofNat 64 pt <<< 12

def dumpPt (pml4 pdp pd ptVa : Nat) : Exec State (List MapLine) :=
  forPresent ptVa (fun i entry => pure [⟨rebuiltVa pml4 pdp pd i, baseAddress entry⟩])
    (List.range 0x200)

def dumpPd (pml4 pdp pdVa : Nat) : Exec State (List MapLine) :=
  dumpTable pdVa
    (fun i => BitVec.ofNat 64 pml4 <<< 36 ||| BitVec.ofNat 64 pdp <<< 28 |||
      BitVec.ofNat 64 i <<< 20)
    (dumpPt pml4 pdp)

def dumpPdp (pml4 pdpVa : Nat) : Exec State (List MapLine) :=
  dumpTable pdpVa (fun i => BitVec.ofNat 64 pml4 <<< 36 ||| BitVec.ofNat 64 i <<< 28)
    (dumpPd pml4)

def dump : Exec State (List MapLine) := do
  dumpTable (← get).pgtVirtBase (fun i => BitVec.ofNat 64 i <<< 36) dumpPdp

/-! ### What the listing should be -/

/-- The first address of a page in the user half. -/
def UserPage (va : BitVec 64) : Prop := va.toNat < 2 ^ 47 ∧ va.toNat % 4096 = 0

instance (va : BitVec 64) : Decidable (UserPage va) := inferInstanceAs (Decidable (_ ∧ _))

/-- The present entries of the levels above the page tables are not huge, and what they point
to is in the direct map. -/
def PlainTables (s : State) : Nat → Nat → Prop
  | 0, _ => True
  | level + 1, table => ∀ i < 512, getFlag (entryAt s table i) .present = true →
      getFlag (entryAt s table i) .huge = false ∧
        (baseAddress (entryAt s table i)).toNat < pmemVaSize ∧
        PlainTables s level (baseAddress (entryAt s table i)).toNat

/-- A tree of tables in the user half without huge entries. -/
structure UserTree (s : State) : Prop where
  rooted : Rooted s
  user : ∀ i < 512, getFlag (entryAt s s.pgtPhysBase.toNat i) .present = true → i < 256
  plain : PlainTables s 3 s.pgtPhysBase.toNat

/-- A listing that leaves the state alone and logs exactly the lines `P`. -/
def Logs (x : Exec State (List MapLine)) (s : State) (P : MapLine → Prop) : Prop :=
  ∃ lines, x.run s = .ok (lines, s) ∧ ∀ line, line ∈ lines ↔ P line

/-- The lines of `dump` are the translations that `get_mapping` makes of pages. -/
def DumpsMappings (s : State) : Prop :=
  Logs dump s fun line => UserPage line.va ∧ (getMapping line.va).run s = .ok (some line.pa, s)

/-- The address logged for the page of `va`. -/
def dumpedVa (va : BitVec 64) : BitVec 64 :=
  let (pml4, pdp, pd, pt) := vaTableIndicies va
  rebuiltVa pml4 pdp pd pt

/-- A line for one of the pages `C`, found from a table of some level on. -/
def LineFor (s : State) (C : BitVec 64 → Prop) (level table : Nat) (line : MapLine) : Prop :=
  ∃ va, C va ∧ LeadsTo s va line.pa.toNat level table ∧ line.va = dumpedVa va

/-- The pages that the tables map are in the first page table. -/
def InFirstTable (s : State) : Prop :=
  ∀ va pa : BitVec 64, UserPage va → LeadsTo s va pa.toNat 3 s.pgtPhysBase.toNat →
    va.toNat < 2 ^ 21

/-! ### The lines that are logged -/

section Lines
variable {s : State} {te : Nat} {body : Nat → BitVec 64 → Exec State (List MapLine)}

theorem Logs.congr {x : Exec State (List MapLine)} {P Q : MapLine → Prop} (logs : Logs x s P)
    (same : ∀ line, P line ↔ Q line) : Logs x s Q := by
  obtain ⟨lines, run, member⟩ := logs
  exact ⟨lines, run, fun line => (member line).trans (same line)⟩

theorem forPresent_logs (P : Nat → MapLine → Prop) (indices : List Nat)
    (below : ∀ i ∈ indices, getFlag (s.mem (te + 8 * i)) .present = true →
      Logs (body i (s.mem (te + 8 * i))) s (P i)) :
    Logs (forPresent te body indices) s fun line =>
      ∃ i ∈ indices, getFlag (s.mem (te + 8 * i)) .present = true ∧ P i line := by
  induction indices with
  | nil => exact ⟨[], rfl, fun line => by simp⟩
  | cons i indices ih =>
      obtain ⟨rest, runRest, memberRest⟩ := ih fun j mem => below j (List.mem_cons_of_mem i mem)
      by_cases present : getFlag (s.mem (te + 8 * i)) .present = true
      · obtain ⟨here, runHere, memberHere⟩ := below i List.mem_cons_self present
        refine ⟨here ++ rest, ?_, fun line => ?_⟩
        · rw [forPresent, bind_ok (load_run _), if_pos present, bind_ok runHere, bind_ok runRest]
          rfl
        · simp only [List.mem_append, memberHere, memberRest, List.mem_cons, exists_eq_or_imp,
            present, true_and]
      · refine ⟨rest, ?_, fun line => ?_⟩
        · rw [forPresent, bind_ok (load_run _), if_neg present]
          exact runRest
        · simp only [memberRest, List.mem_cons, exists_eq_or_imp, present,
            Bool.false_eq_true, false_and, false_or]

theorem dumpTable_logs {level table : Nat} {va : Nat → BitVec 64}
    {next : Nat → Nat → Exec State (List MapLine)} {C : BitVec 64 → Prop}
    (plain : PlainTables s (level + 1) table)
    (below : ∀ i < 512, getFlag (entryAt s table i) .present = true →
      Logs (next i (pmemVaStart + (baseAddress (entryAt s table i)).toNat)) s
        (LineFor s (fun u => C u ∧ u.toNat / 2 ^ levelBits (level + 1) % 512 = i) level
          (baseAddress (entryAt s table i)).toNat)) :
    Logs (dumpTable (pmemVaStart + table) va next) s (LineFor s C (level + 1) table) := by
  refine (forPresent_logs (fun i => LineFor s
    (fun u => C u ∧ u.toNat / 2 ^ levelBits (level + 1) % 512 = i) level
    (baseAddress (entryAt s table i)).toNat) (List.range 0x200) ?_).congr ?_
  · intro i mem present
    have lt := List.mem_range.mp mem
    obtain ⟨small, shown, -⟩ := plain i lt present
    obtain ⟨lines, run, member⟩ := below i lt present
    refine ⟨lines, ?_, member⟩
    change (if getFlag (entryAt s table i) .huge then _ else
      paToVpa (baseAddress (entryAt s table i)) >>= next i : Exec State _).run s = _
    rw [small, if_neg (by decide), bind_ok (paToVpa_run shown)]
    exact run
  intro line
  constructor
  · rintro ⟨i, mem, present, u, ⟨cu, rfl⟩, leads, same⟩
    exact ⟨u, cu, ⟨present, (plain _ (List.mem_range.mp mem) present).2.1, leads⟩, same⟩
  · rintro ⟨u, cu, ⟨present, -, leads⟩, same⟩
    exact ⟨u.toNat / 2 ^ levelBits (level + 1) % 512,
      List.mem_range.mpr (Nat.mod_lt _ (by decide)), present, u, ⟨cu, rfl⟩, leads, same⟩

end Lines

/-! ### The address in a line -/

theorem toNat_shiftedIndex {i k : Nat} (lt : i < 512) (le : k ≤ 36) :
    (BitVec.ofNat 64 i <<< k).toNat = i * 2 ^ k := by
  have power : 2 ^ k ≤ 2 ^ 36 := Nat.pow_le_pow_right (by decide) le
  have inside : i * 2 ^ k < 2 ^ 64 := by
    calc i * 2 ^ k ≤ 512 * 2 ^ 36 := Nat.mul_le_mul lt.le power
      _ < 2 ^ 64 := by decide
  rw [BitVec.toNat_shiftLeft, BitVec.toNat_ofNat, Nat.shiftLeft_eq,
    Nat.mod_eq_of_lt (by omega : i < 2 ^ 64), Nat.mod_eq_of_lt inside]

theorem eq_indices {x : Nat} (lt : x < 2 ^ 48) :
    x / 2 ^ 39 % 512 * 2 ^ 39 + x / 2 ^ 30 % 512 * 2 ^ 30 + x / 2 ^ 21 % 512 * 2 ^ 21 +
      x / 2 ^ 12 % 512 * 2 ^ 12 + x % 4096 = x := by
  have e1 : x / 2 ^ 21 = x / 2 ^ 12 / 512 := by omega
  have e2 : x / 2 ^ 30 = x / 2 ^ 21 / 512 := by omega
  have e3 : x / 2 ^ 39 = x / 2 ^ 30 / 512 := by omega
  rw [e3, e2, e1]
  omega

section Rebuilt
variable {pml4 pdp pd pt : Nat}

theorem toNat_rebuiltVa (h3 : pml4 < 512) (h2 : pdp < 512) (h1 : pd < 512) (h0 : pt < 512) :
    (rebuiltVa pml4 pdp pd pt).toNat =
      (((pml4 * 2 ^ 36 ||| pdp * 2 ^ 28) ||| pd * 2 ^ 20) ||| pt * 2 ^ 12) := by
  rw [rebuiltVa, BitVec.toNat_or, BitVec.toNat_or, BitVec.toNat_or,
    toNat_shiftedIndex h3 (by decide), toNat_shiftedIndex h2 (by decide),
    toNat_shiftedIndex h1 (by decide), toNat_shiftedIndex h0 (by decide)]

theorem rebuiltVa_le (h3 : pml4 < 512) (h2 : pdp < 512) (h1 : pd < 512) (h0 : pt < 512) :
    (rebuiltVa pml4 pdp pd pt).toNat ≤
      pml4 * 2 ^ 36 + pdp * 2 ^ 28 + pd * 2 ^ 20 + pt * 2 ^ 12 := by
  rw [toNat_rebuiltVa h3 h2 h1 h0]
  have upper := or_le_add (pml4 * 2 ^ 36) (pdp * 2 ^ 28)
  have middle := or_le_add (pml4 * 2 ^ 36 ||| pdp * 2 ^ 28) (pd * 2 ^ 20)
  have lower := or_le_add ((pml4 * 2 ^ 36 ||| pdp * 2 ^ 28) ||| pd * 2 ^ 20) (pt * 2 ^ 12)
  omega

theorem toNat_rebuiltVa_first (h0 : pt < 512) : (rebuiltVa 0 0 0 pt).toNat = pt * 2 ^ 12 := by
  rw [toNat_rebuiltVa (by decide) (by decide) (by decide) h0]
  simp only [Nat.zero_mul, Nat.zero_or]

end Rebuilt

/-- The walk shifts an index by 9 bits a level, the listing by 8. -/
theorem vaTableIndicies_rebuiltVa_iff {pml4 pdp pd pt : Nat} (h3 : pml4 < 512)
    (h2 : pdp < 512) (h1 : pd < 512) (h0 : pt < 512) :
    vaTableIndicies (rebuiltVa pml4 pdp pd pt) = (pml4, pdp, pd, pt) ↔
      pml4 = 0 ∧ pdp = 0 ∧ pd = 0 := by
  rw [vaTableIndicies_eq]
  simp only [Prod.mk.injEq]
  constructor
  · intro same
    have le := rebuiltVa_le h3 h2 h1 h0
    have whole := eq_indices (by omega : (rebuiltVa pml4 pdp pd pt).toNat < 2 ^ 48)
    rw [same.1, same.2.1, same.2.2.1, same.2.2.2] at whole
    omega
  · rintro ⟨rfl, rfl, rfl⟩
    rw [toNat_rebuiltVa_first h0]
    omega

section Page
variable {va : BitVec 64}

theorem dumpedVa_eq_rebuilt (va : BitVec 64) :
    dumpedVa va = rebuiltVa (va.toNat / 2 ^ 39 % 512) (va.toNat / 2 ^ 30 % 512)
      (va.toNat / 2 ^ 21 % 512) (va.toNat / 2 ^ 12 % 512) := by
  rw [dumpedVa, vaTableIndicies_eq]

theorem dumpedVa_le_shifted (va : BitVec 64) :
    (dumpedVa va).toNat ≤ va.toNat / 2 ^ 39 % 512 * 2 ^ 36 + va.toNat / 2 ^ 30 % 512 * 2 ^ 28 +
      va.toNat / 2 ^ 21 % 512 * 2 ^ 20 + va.toNat / 2 ^ 12 % 512 * 2 ^ 12 := by
  have index : ∀ x, x % 512 < 512 := fun x => Nat.mod_lt x (by decide)
  rw [dumpedVa_eq_rebuilt]
  exact rebuiltVa_le (index _) (index _) (index _) (index _)

theorem UserPage.offset (page : UserPage va) : va.toNat % 2 ^ 12 = 0 := page.2

theorem UserPage.dumpedVa_le (page : UserPage va) : (dumpedVa va).toNat ≤ va.toNat := by
  obtain ⟨user, aligned⟩ := page
  have le := dumpedVa_le_shifted va
  have whole := eq_indices (by omega : va.toNat < 2 ^ 48)
  omega

theorem UserPage.dumpedVa_eq_iff (page : UserPage va) :
    dumpedVa va = va ↔ va.toNat < 2 ^ 21 := by
  obtain ⟨user, aligned⟩ := page
  rw [← BitVec.toNat_inj]
  constructor
  · intro same
    have le := dumpedVa_le_shifted va
    have whole := eq_indices (by omega : va.toNat < 2 ^ 48)
    omega
  · intro first
    rw [dumpedVa_eq_rebuilt, Nat.div_eq_of_lt (by omega : va.toNat < 2 ^ 39),
      Nat.div_eq_of_lt (by omega : va.toNat < 2 ^ 30), Nat.div_eq_of_lt first, Nat.zero_mod,
      toNat_rebuiltVa_first (Nat.mod_lt _ (by decide))]
    omega

theorem exists_userPage {pml4 pdp pd pt : Nat} (h3 : pml4 < 256) (h2 : pdp < 512)
    (h1 : pd < 512) (h0 : pt < 512) : ∃ va : BitVec 64, UserPage va ∧
      va.toNat / 2 ^ 39 % 512 = pml4 ∧ va.toNat / 2 ^ 30 % 512 = pdp ∧
      va.toNat / 2 ^ 21 % 512 = pd ∧ va.toNat / 2 ^ 12 % 512 = pt := by
  have value : (BitVec.ofNat 64 (pml4 * 2 ^ 39 + pdp * 2 ^ 30 + pd * 2 ^ 21 + pt * 2 ^ 12)).toNat =
      pml4 * 2 ^ 39 + pdp * 2 ^ 30 + pd * 2 ^ 21 + pt * 2 ^ 12 := by
    rw [BitVec.toNat_ofNat]
    omega
  refine ⟨BitVec.ofNat 64 (pml4 * 2 ^ 39 + pdp * 2 ^ 30 + pd * 2 ^ 21 + pt * 2 ^ 12), ?_, ?_⟩
  · rw [UserPage, value]
    omega
  · rw [value]
    omega

end Page

/-! ### The lines of a listing -/

section Listing
variable {s : State} {table : Nat}

theorem dumpPt_logs {pml4 pdp pd : Nat} (h3 : pml4 < 256) (h2 : pdp < 512) (h1 : pd < 512) :
    Logs (dumpPt pml4 pdp pd (pmemVaStart + table)) s
      (LineFor s (fun u => ((UserPage u ∧ u.toNat / 2 ^ levelBits 3 % 512 = pml4) ∧
        u.toNat / 2 ^ levelBits 2 % 512 = pdp) ∧
        u.toNat / 2 ^ levelBits 1 % 512 = pd) 0 table) := by
  refine (forPresent_logs (fun i line =>
    line = ⟨rebuiltVa pml4 pdp pd i, baseAddress (entryAt s table i)⟩) (List.range 0x200)
    ?_).congr ?_
  · intro i _ _
    exact ⟨_, rfl, fun line => List.mem_singleton⟩
  intro line
  constructor
  · rintro ⟨i, mem, present, rfl⟩
    obtain ⟨va, page, e3, e2, e1, e0⟩ := exists_userPage h3 h2 h1 (List.mem_range.mp mem)
    refine ⟨va, ⟨⟨⟨page, e3⟩, e2⟩, e1⟩, ?_, ?_⟩
    · have here : entryOf s va 0 table = entryAt s table i := by
        rw [entryOf, levelBits, Nat.mul_zero, Nat.add_zero, e0]
      rw [LeadsTo, here]
      refine ⟨present, ?_⟩
      rw [page.offset, Nat.add_zero]
    · rw [dumpedVa_eq_rebuilt, e3, e2, e1, e0]
  · rintro ⟨va, ⟨⟨⟨page, rfl⟩, rfl⟩, rfl⟩, ⟨present, base⟩, same⟩
    refine ⟨va.toNat / 2 ^ 12 % 512, List.mem_range.mpr (Nat.mod_lt _ (by decide)), present, ?_⟩
    rw [page.offset, Nat.add_zero, BitVec.toNat_inj] at base
    cases line
    rw [MapLine.mk.injEq]
    exact ⟨same.trans (dumpedVa_eq_rebuilt va), base.symm⟩

theorem dumpPd_logs {pml4 pdp : Nat} (h3 : pml4 < 256) (h2 : pdp < 512)
    (plain : PlainTables s 1 table) :
    Logs (dumpPd pml4 pdp (pmemVaStart + table)) s
      (LineFor s (fun u => (UserPage u ∧ u.toNat / 2 ^ levelBits 3 % 512 = pml4) ∧
        u.toNat / 2 ^ levelBits 2 % 512 = pdp) 1 table) :=
  dumpTable_logs plain fun _ lt _ => dumpPt_logs h3 h2 lt

theorem dumpPdp_logs {pml4 : Nat} (h3 : pml4 < 256) (plain : PlainTables s 2 table) :
    Logs (dumpPdp pml4 (pmemVaStart + table)) s
      (LineFor s (fun u => UserPage u ∧ u.toNat / 2 ^ levelBits 3 % 512 = pml4) 2 table) :=
  dumpTable_logs plain fun i lt present => dumpPd_logs h3 lt (plain i lt present).2.2

theorem dump_logs (tree : UserTree s) :
    Logs dump s (LineFor s UserPage 3 s.pgtPhysBase.toNat) := by
  have logs : Logs (dumpTable (pmemVaStart + s.pgtPhysBase.toNat)
      (fun i => BitVec.ofNat 64 i <<< 36) dumpPdp) s (LineFor s UserPage 3 s.pgtPhysBase.toNat) :=
    dumpTable_logs tree.plain fun i lt present =>
      dumpPdp_logs (tree.user i lt present) (tree.plain i lt present).2.2
  obtain ⟨lines, run, member⟩ := logs
  refine ⟨lines, ?_, member⟩
  unfold dump
  rw [bind_ok (run_get_eq s), tree.rooted.shown]
  exact run

end Listing

/-! ### Where the listing is right -/

/-- A map that moves nothing up and covers a bounded set from within fixes the set: by induction
from the top, for an element that came from a higher one would have been fixed there. -/
theorem fixes_of_covers {α : Type} {S : α → Prop} {f : α → α} (height : α → Nat) {bound : Nat}
    (injective : ∀ a b, height a = height b → a = b) (below : ∀ a, S a → height a < bound)
    (le : ∀ a, S a → height (f a) ≤ height a) (covers : ∀ a, S a → ∃ b, S b ∧ f b = a)
    {a : α} (member : S a) : f a = a := by
  induction gap : bound - height a using Nat.strongRecOn generalizing a with
  | ind _ ih =>
      obtain ⟨b, memberB, value⟩ := covers a member
      have notUp := le b memberB
      rw [value] at notUp
      rcases Nat.eq_or_lt_of_le notUp with same | lt
      · cases injective a b same
        exact value
      · have inside := below b memberB
        have fixed := ih (bound - height b) (by omega) memberB rfl
        cases fixed.symm.trans value
        exact fixed

section Right
variable {s : State}

theorem Logs.unique {x : Exec State (List MapLine)} {P Q : MapLine → Prop} (p : Logs x s P)
    (q : Logs x s Q) (line : MapLine) : P line ↔ Q line := by
  obtain ⟨lines, run, member⟩ := p
  obtain ⟨lines', run', member'⟩ := q
  cases run.symm.trans run'
  exact (member line).symm.trans (member' line)

theorem getMapping_iff_leadsTo (rooted : Rooted s) (va pa : BitVec 64) :
    (getMapping va).run s = .ok (some pa, s) ↔
      LeadsTo s va pa.toNat 3 s.pgtPhysBase.toNat := by
  rw [getMapping_walk rooted, ← tableWalk_iff_leadsTo]
  cases tableWalk s va 3 s.pgtPhysBase.toNat with
  | error e => exact ⟨nofun, fun answer => absurd answer answers_error⟩
  | ok r =>
      rw [answers_ok]
      constructor
      · intro run
        cases run
        rfl
      · intro same
        obtain ⟨pa', rfl, value⟩ := Option.map_eq_some_iff.mp same
        cases BitVec.eq_of_toNat_eq value
        rfl

theorem dumpsMappings_iff (tree : UserTree s) : DumpsMappings s ↔ InFirstTable s := by
  have listed := dump_logs tree
  constructor
  · intro dumps va pa page leads
    refine page.dumpedVa_eq_iff.mp ?_
    refine fixes_of_covers (S := fun u => UserPage u ∧
      ∃ p : BitVec 64, LeadsTo s u p.toNat 3 s.pgtPhysBase.toNat) BitVec.toNat
      (fun _ _ => BitVec.eq_of_toNat_eq) (fun u h => h.1.1) (fun u h => h.1.dumpedVa_le) ?_
      ⟨page, pa, leads⟩
    rintro u ⟨pageU, p, leadsU⟩
    have mapped := (getMapping_iff_leadsTo tree.rooted u p).mpr leadsU
    obtain ⟨w, pageW, leadsW, same⟩ := (dumps.unique listed ⟨u, p⟩).mp ⟨pageU, mapped⟩
    exact ⟨w, ⟨pageW, p, leadsW⟩, same.symm⟩
  · intro first
    refine listed.congr fun line => ?_
    rw [getMapping_iff_leadsTo tree.rooted]
    constructor
    · rintro ⟨va, page, leads, same⟩
      rw [page.dumpedVa_eq_iff.mpr (first va line.pa page leads)] at same
      rw [same]
      exact ⟨page, leads⟩
    · rintro ⟨page, leads⟩
      exact ⟨line.va, page, leads, (page.dumpedVa_eq_iff.mpr (first _ _ page leads)).symm⟩

/-- `dump` is right about a tree exactly if the tree maps nothing beyond the first page table,
and these are the pages whose logged address splits back into the four indices. -/
theorem dump_right_iff (tree : UserTree s) :
    (DumpsMappings s ↔ InFirstTable s) ∧
      ∀ pml4 < 512, ∀ pdp < 512, ∀ pd < 512, ∀ pt < 512,
        (vaTableIndicies (rebuiltVa pml4 pdp pd pt) = (pml4, pdp, pd, pt) ↔
          pml4 = 0 ∧ pdp = 0 ∧ pd = 0) :=
  ⟨dumpsMappings_iff tree, fun _ h3 _ h2 _ h1 _ h0 => vaTableIndicies_rebuiltVa_iff h3 h2 h1 h0⟩

end Right

/-- One page at physical address `0x5000`, in the first page of the page table at `pd`. -/
def onePage (pd : Nat) : State where
  mem a :=
    if a = pmemVaStart + 0x1000 then 0x2007
    else if a = pmemVaStart + 0x2000 then 0x3007
    else if a = pmemVaStart + 0x3000 + 8 * pd then 0x4007
    else if a = pmemVaStart + 0x4000 then 0x5007
    else 0
  frames := []
  pageAllocations := [⟨1, 0⟩, ⟨2, 0⟩, ⟨3, 0⟩, ⟨4, 0⟩]
  pgtPhysBase := 0x1000
  pgtVirtBase := pmemVaStart + 0x1000

/-- The only present entry of a table. -/
def Sole (s : State) (table n : Nat) (entry : BitVec 64) : Prop :=
  entryAt s table n = entry ∧
    ∀ i < 512, getFlag (entryAt s table i) .present = true → i = n

section Sole
variable {s : State} {level table n : Nat} {entry : BitVec 64}

theorem Sole.plain (sole : Sole s table n entry) (small : getFlag entry .huge = false)
    (shown : (baseAddress entry).toNat < pmemVaSize)
    (below : PlainTables s level (baseAddress entry).toNat) : PlainTables s (level + 1) table := by
  intro i lt present
  rw [sole.2 i lt present, sole.1]
  exact ⟨small, shown, below⟩

theorem Sole.leadsTo (sole : Sole s table n entry) {va : BitVec 64} {pa : Nat}
    (leads : LeadsTo s va pa (level + 1) table) :
    va.toNat / 2 ^ levelBits (level + 1) % 512 = n ∧
      LeadsTo s va pa level (baseAddress entry).toNat := by
  obtain ⟨present, -, leads⟩ := leads
  have index := sole.2 _ (Nat.mod_lt _ (by decide)) present
  rw [entryOf, index, sole.1] at leads
  exact ⟨index, leads⟩

end Sole

section OnePage
variable {pd : Nat}

theorem onePage_present {table i : Nat} (page : table % 4096 = 0) (lt : i < 512)
    (below : pd < 512) (present : getFlag (entryAt (onePage pd) table i) .present = true) :
    table = 0x1000 ∧ i = 0 ∨ table = 0x2000 ∧ i = 0 ∨ table = 0x3000 ∧ i = pd ∨
      table = 0x4000 ∧ i = 0 := by
  by_contra none
  have zero : entryAt (onePage pd) table i = 0 := by
    unfold entryAt onePage
    dsimp only
    rw [if_neg (by omega), if_neg (by omega), if_neg (by omega), if_neg (by omega)]
  rw [zero, getFlag_zero] at present
  cases present

theorem onePage_pml4 (below : pd < 512) : Sole (onePage pd) 0x1000 0 0x2007 := by
  refine ⟨rfl, fun i lt present => ?_⟩
  have place := onePage_present (by decide) lt below present
  omega

theorem onePage_pdp (below : pd < 512) : Sole (onePage pd) 0x2000 0 0x3007 := by
  refine ⟨rfl, fun i lt present => ?_⟩
  have place := onePage_present (by decide) lt below present
  omega

theorem onePage_pd (below : pd < 512) : Sole (onePage pd) 0x3000 pd 0x4007 := by
  refine ⟨?_, fun i lt present => ?_⟩
  · unfold entryAt onePage
    dsimp only
    rw [if_neg (by omega), if_neg (by omega), if_pos rfl]
  · have place := onePage_present (by decide) lt below present
    omega

theorem onePage_userTree (below : pd < 512) : UserTree (onePage pd) where
  rooted := ⟨rfl, (by decide : 0x1000 % 4096 = 0), (by decide : 0x1000 < pmemVaSize)⟩
  user i lt present := by
    rw [(onePage_pml4 below).2 i lt present]
    decide
  plain :=
    (onePage_pml4 below).plain (by decide) (by decide) <|
      (onePage_pdp below).plain (by decide) (by decide) <|
        (onePage_pd below).plain (by decide) (by decide) trivial

theorem onePage_page {va : BitVec 64} {pa : Nat} (below : pd < 512) (page : UserPage va)
    (leads : LeadsTo (onePage pd) va pa 3 0x1000) : va.toNat = pd * 2 ^ 21 := by
  obtain ⟨i3, leads⟩ := (onePage_pml4 below).leadsTo leads
  obtain ⟨i2, leads⟩ := (onePage_pdp below).leadsTo leads
  obtain ⟨i1, leads⟩ := (onePage_pd below).leadsTo leads
  have place := onePage_present (by decide) (Nat.mod_lt _ (by decide)) below leads.1
  have i0 : va.toNat / 2 ^ levelBits 0 % 512 = 0 := by
    rcases place with ⟨other, -⟩ | ⟨other, -⟩ | ⟨other, -⟩ | ⟨-, first⟩
    · cases other
    · cases other
    · cases other
    · exact first
  have user := page.1
  have whole := eq_indices (by omega : va.toNat < 2 ^ 48)
  simp only [levelBits] at i3 i2 i1 i0
  rw [i3, i2, i1, i0, page.2] at whole
  omega

end OnePage

/-- The tree with the page at address 0 is listed as it is. -/
theorem dump_right_iff_onePage : DumpsMappings (onePage 0) :=
  (dump_right_iff (onePage_userTree (by decide))).1.mpr fun _ _ page leads => by
    rw [onePage_page (by decide) page leads]
    decide

/-- The page at `0x200000` is logged at `0x100000`. -/
theorem dump_wrong :
    UserTree (onePage 1) ∧ ¬ DumpsMappings (onePage 1) ∧
      rebuiltVa 0 0 1 0 = 0x100000 ∧ vaTableIndicies 0x200000 = (0, 0, 1, 0) ∧
      vaTableIndicies 0x100000 ≠ (0, 0, 1, 0) := by
  have tree := onePage_userTree (by decide : 1 < 512)
  refine ⟨tree, ?_, by decide, by decide, by decide⟩
  intro dumps
  have first := (dumpsMappings_iff tree).mp dumps 0x200000 0x5000 (by decide) (by decide)
  exact absurd first (by decide)

end Infos.Mm.Vma
