import Infos.Lib.Radix
import Infos.Mm.VmaEntries
import Mathlib.Tactic.Tauto
import Mathlib.Data.List.Perm.Basic

/-!
# The page tables as a radix tree

`Tables s m` says that the user half of the tables is a tree without sharing
whose leaves spell the map `m`. Linking a new table keeps `m`, writing a leaf
updates it at one path.
-/
namespace Infos.Mm.Vma
open Infos.Lib Function

/-- Paths through user entries, from the top-level table down to the leaves. -/
def EntryPath (p : List Nat) : Prop :=
  p.length ≤ 4 ∧ (∀ i ∈ p, i < 512) ∧ ∀ i, p.head? = some i → i ≠ 0x100 ∧ i ≠ 0x1ff

theorem EntryPath.closed (p q : List Nat) (h : EntryPath (p ++ q)) : EntryPath p := by
  obtain ⟨len, lt, head⟩ := h
  rw [List.length_append] at len
  refine ⟨by omega, fun i hi => lt i (List.mem_append_left q hi), fun i hi => head i ?_⟩
  rw [List.head?_append, hi]
  rfl

theorem EntryPath.last_lt {p : List Nat} {i : Nat} (h : EntryPath (p ++ [i])) : i < 512 :=
  h.2.1 i (by simp)

def slot (table idx : Nat) : Nat := table + 8 * idx

/-- The table an entry points to. -/
def child (entry : BitVec 64) : Option Nat :=
  if baseAddress entry = 0 then none else some (pmemVaStart + (baseAddress entry).toNat)

/-- Where the direct map shows page frame `f`. -/
def tableAt (f : Nat) : Nat := pmemVaStart + 4096 * f

theorem slot_inj {f g i j : Nat} (hi : i < 512) (hj : j < 512)
    (h : slot (tableAt f) i = slot (tableAt g) j) : f = g ∧ i = j := by
  simp only [slot, tableAt] at h
  omega

/-- The frames handed out so far. -/
def allocated (s : State) : List Nat := s.pageAllocations.map PageAllocation.descriptorBase

/-- An entry above the leaves is empty or points to a table. -/
def Interior (entry : BitVec 64) : Prop :=
  entry = 0 ∨ getFlag entry .present = true ∧ baseAddress entry ≠ 0 ∧
    (baseAddress entry).toNat < pmemVaSize

def leafBase (entry : BitVec 64) : Option (BitVec 64) :=
  if getFlag entry .present then some (baseAddress entry) else none

structure Tables (s : State) (m : List Nat → Option (BitVec 64)) : Prop where
  tree : RadixTree slot child s.mem s.pgtVirtBase EntryPath
  owned : ∀ p i t, EntryPath (p ++ [i]) → descend slot child s.mem s.pgtVirtBase p = some t →
    ∃ f ∈ allocated s, t = tableAt f
  interior : ∀ p i t, EntryPath (p ++ [i]) → p.length < 3 →
    descend slot child s.mem s.pgtVirtBase p = some t → Interior (s.mem (slot t i))
  leaves : ∀ p i, EntryPath (p ++ [i]) → p.length = 3 →
    m (p ++ [i]) = (descend slot child s.mem s.pgtVirtBase p).bind fun t =>
      leafBase (s.mem (slot t i))
  supply : (s.frames ++ allocated s).Nodup
  small : ∀ f ∈ s.frames ++ allocated s, 0 < f ∧ f < 2 ^ 20

section Primitives
variable {s : State}

theorem load_run (addr : Nat) : (load addr).run s = .ok (s.mem addr, s) := rfl

theorem modifyEntry_run (addr : Nat) (f : BitVec 64 → BitVec 64) :
    (modifyEntry addr f).run s = .ok ((), s.setWord addr (f (s.mem addr))) := rfl

@[simp] theorem setWord_mem_self (addr : Nat) (w : BitVec 64) : (s.setWord addr w).mem addr = w :=
  update_self _ _ _

@[simp] theorem setWord_setWord (addr : Nat) (w w' : BitVec 64) :
    (s.setWord addr w).setWord addr w' = s.setWord addr w' := by
  simp only [State.setWord, update_idem]

theorem paToVpa_run {pa : BitVec 64} (h : pa.toNat < pmemVaSize) :
    (paToVpa pa).run s = .ok (pmemVaStart + pa.toNat, s) := by
  unfold paToVpa
  rw [bind_ok (assertThat_run (decide_eq_true h))]
  rfl

theorem toNat_pgdToPa {f : Nat} (h : f < 2 ^ 20) : (pgdToPa f).toNat = 4096 * f := by
  rw [pgdToPa, BitVec.toNat_shiftLeft, BitVec.toNat_ofNat, Nat.shiftLeft_eq]
  omega

theorem pgdToVpa_run {f : Nat} (h : f < 2 ^ 20) :
    (pgdToVpa f).run s = .ok (tableAt f, s) := by
  have value := toNat_pgdToPa h
  rw [pgdToVpa, paToVpa_run (by rw [value, pmemVaSize]; omega), value, tableAt]

/-- What `pnzero` leaves of memory. -/
def zeroed (mem : Nat → BitVec 64) (f : Nat) : Nat → BitVec 64 :=
  fun a => if tableAt f ≤ a ∧ a < tableAt f + 4096 then 0 else mem a

theorem zeroed_self {mem : Nat → BitVec 64} {f i : Nat} (hi : i < 512) :
    zeroed mem f (slot (tableAt f) i) = 0 :=
  if_pos ⟨Nat.le_add_right _ _, by rw [slot]; omega⟩

theorem zeroed_other {mem : Nat → BitVec 64} {f g i : Nat} (hi : i < 512) (ne : g ≠ f) :
    zeroed mem f (slot (tableAt g) i) = mem (slot (tableAt g) i) := by
  apply if_neg
  rintro ⟨lo, hi'⟩
  simp only [slot, tableAt] at lo hi'
  omega

/-- The state after `allocate_phys` handed out frame `f`. -/
def afterAlloc (s : State) (f : Nat) (rest : List Nat) : State :=
  { s with
    mem := zeroed s.mem f
    frames := rest
    pageAllocations := s.pageAllocations ++ [⟨f, 0⟩] }

theorem allocatePhys_run {f : Nat} {rest : List Nat} (frames : s.frames = f :: rest)
    (small : f < 2 ^ 20) :
    (allocatePhys 0).run s = .ok (some f, afterAlloc s f rest) := by
  have alloc : (allocPages 0).run s = .ok (some f, { s with frames := rest }) := by
    unfold allocPages
    rw [bind_ok (run_get_eq s), frames]
    rfl
  unfold allocatePhys
  rw [bind_ok alloc]
  dsimp only
  rw [bind_ok (run_modify_eq _ _), bind_ok (pgdToVpa_run small)]
  rfl

@[simp] theorem allocated_afterAlloc (f : Nat) (rest : List Nat) :
    allocated (afterAlloc s f rest) = allocated s ++ [f] := by
  simp [allocated, afterAlloc]

end Primitives

theorem Interior.eq_zero {w : BitVec 64} (h : Interior w) (base : baseAddress w = 0) : w = 0 := by
  rcases h with zero | ⟨_, ne, _⟩
  · exact zero
  · exact absurd base ne

theorem child_zero : child 0 = none := if_pos baseAddress_zero

theorem leafBase_zero : leafBase 0 = none := by
  rw [leafBase, getFlag_zero]
  rfl

/-- The entry that `insert_mapping` makes for a new table. -/
def tableEntry (f : Nat) (old : BitVec 64) : BitVec 64 :=
  setFlag .allowUser true (setFlag .writable true (setFlag .present true
    (setBaseAddress (pgdToPa f) old)))

theorem baseAddress_pgdToPa {f : Nat} : baseAddress (pgdToPa f) = pgdToPa f := by
  apply BitVec.eq_of_getLsbD_eq
  intro i hi
  rw [getLsbD_baseAddress, pgdToPa, BitVec.getLsbD_shiftLeft]
  by_cases low : i < 12 <;> simp [low, hi]
  omega

theorem baseAddress_tableEntry (f : Nat) (old : BitVec 64) :
    baseAddress (tableEntry f old) = pgdToPa f := by
  simp [tableEntry, baseAddress_pgdToPa]

theorem present_tableEntry (f : Nat) (old : BitVec 64) :
    getFlag (tableEntry f old) .present = true := by
  simp [tableEntry]

theorem pgdToPa_ne_zero {f : Nat} (pos : 0 < f) (small : f < 2 ^ 20) : pgdToPa f ≠ 0 := by
  intro h
  have value := toNat_pgdToPa small
  rw [h] at value
  change 0 = 4096 * f at value
  omega

theorem child_tableEntry {f : Nat} (pos : 0 < f) (small : f < 2 ^ 20) (old : BitVec 64) :
    child (tableEntry f old) = some (tableAt f) := by
  rw [child, baseAddress_tableEntry, if_neg (pgdToPa_ne_zero pos small), toNat_pgdToPa small,
    tableAt]

theorem interior_tableEntry {f : Nat} (pos : 0 < f) (small : f < 2 ^ 20) (old : BitVec 64) :
    Interior (tableEntry f old) := by
  refine .inr ⟨present_tableEntry f old, ?_, ?_⟩
  · rw [baseAddress_tableEntry]
    exact pgdToPa_ne_zero pos small
  · rw [baseAddress_tableEntry, toNat_pgdToPa small, pmemVaSize]
    omega

/-! ### One step down -/

section Steps
variable {s : State} {m : List Nat → Option (BitVec 64)} {p : List Nat} {i t : Nat}

/-- The state with frame `f` linked in under the entry at `addr`. -/
def afterLink (s : State) (f : Nat) (rest : List Nat) (addr : Nat) : State :=
  (afterAlloc s f rest).setWord addr (tableEntry f 0)

theorem afterLink_mem_of_ne {f addr a : Nat} {rest : List Nat} (ne : a ≠ addr) :
    (afterLink s f rest addr).mem a = zeroed s.mem f a := update_of_ne ne _ _

theorem afterLink_mem_self (f : Nat) (rest : List Nat) (addr : Nat) :
    (afterLink s f rest addr).mem addr = tableEntry f 0 := update_self _ _ _

theorem Tables.not_allocated (h : Tables s m) {f : Nat} {rest : List Nat}
    (frames : s.frames = f :: rest) : f ∉ allocated s := by
  have nodup := h.supply
  rw [frames, List.cons_append, List.nodup_cons] at nodup
  exact fun mem => nodup.1 (List.mem_append_right rest mem)

/-- Zeroing a new page touches no table. -/
theorem Tables.zeroed_same (h : Tables s m) {f : Nat} {rest : List Nat}
    (frames : s.frames = f :: rest) {q : List Nat} {j u : Nat} (hq : EntryPath (q ++ [j]))
    (hu : descend slot child s.mem s.pgtVirtBase q = some u) :
    zeroed s.mem f (slot u j) = s.mem (slot u j) := by
  obtain ⟨g, hg, rfl⟩ := h.owned q j u hq hu
  apply zeroed_other hq.last_lt
  rintro rfl
  exact h.not_allocated frames hg

theorem Tables.link_apart (h : Tables s m) {f : Nat} {rest : List Nat}
    (frames : s.frames = f :: rest) {q : List Nat} {j u i' : Nat} (hq : EntryPath (q ++ [j]))
    (hu : descend slot child s.mem s.pgtVirtBase q = some u) (hi' : i' < 512) :
    slot (tableAt f) i' ≠ slot u j := by
  obtain ⟨g, hg, rfl⟩ := h.owned q j u hq hu
  intro e
  obtain ⟨rfl, _⟩ := slot_inj hi' hq.last_lt e
  exact h.not_allocated frames hg

/-- Where the paths lead after a table is linked in. -/
theorem Tables.descend_link (h : Tables s m) {f : Nat} {rest : List Nat}
    (frames : s.frames = f :: rest) (hp : EntryPath (p ++ [i]))
    (ht : descend slot child s.mem s.pgtVirtBase p = some t) (zero : s.mem (slot t i) = 0)
    {q : List Nat} (hq : EntryPath q) :
    descend slot child (afterLink s f rest (slot t i)).mem s.pgtVirtBase q =
      if q = p ++ [i] then some (tableAt f)
      else descend slot child s.mem s.pgtVirtBase q := by
  have bounds := h.small f (by rw [frames]; simp)
  have same := fun q j u hq hu => h.zeroed_same frames (q := q) (j := j) (u := u) hq hu
  have tree := h.tree.frame EntryPath.closed same
  have ht' := (RadixTree.descend_frame EntryPath.closed same (EntryPath.closed p [i] hp)).trans ht
  have childless : child (zeroed s.mem f (slot t i)) = none := by
    rw [h.zeroed_same frames hp ht, zero, child_zero]
  refine (tree.descend_link EntryPath.closed hp ht' childless
    (child_tableEntry bounds.1 bounds.2 0) (fun j hj => ⟨?_, ?_⟩) hq).trans ?_
  · exact h.link_apart frames hp ht hj.last_lt
  · rw [zeroed_self hj.last_lt, child_zero]
  · rw [RadixTree.descend_frame EntryPath.closed same hq]

/-- The paths still lead to different entries. -/
theorem Tables.tree_link (h : Tables s m) {f : Nat} {rest : List Nat}
    (frames : s.frames = f :: rest) (hp : EntryPath (p ++ [i]))
    (ht : descend slot child s.mem s.pgtVirtBase p = some t) (zero : s.mem (slot t i) = 0) :
    RadixTree slot child (afterLink s f rest (slot t i)).mem s.pgtVirtBase EntryPath := by
  have bounds := h.small f (by rw [frames]; simp)
  have same := fun q j u hq hu => h.zeroed_same frames (q := q) (j := j) (u := u) hq hu
  have tree := h.tree.frame EntryPath.closed same
  have ht' := (RadixTree.descend_frame EntryPath.closed same (EntryPath.closed p [i] hp)).trans ht
  refine tree.link EntryPath.closed hp ht' ?_ (child_tableEntry bounds.1 bounds.2 0)
    (fun j hj => ⟨h.link_apart frames hp ht hj.last_lt, ?_⟩) ?_ ?_
  · rw [same p i t hp ht, zero, child_zero]
  · rw [zeroed_self hj.last_lt, child_zero]
  · intro j j' e
    simp only [slot] at e
    omega
  · intro q j u hq hu j' hj'
    rw [RadixTree.descend_frame EntryPath.closed same (EntryPath.closed q [j] hq)] at hu
    exact h.link_apart frames hq hu hj'.last_lt

theorem Tables.link_fresh (h : Tables s m) {f : Nat} {rest : List Nat}
    (frames : s.frames = f :: rest) (hp : EntryPath (p ++ [i]))
    (ht : descend slot child s.mem s.pgtVirtBase p = some t) {j : Nat} (hj : j < 512) :
    (afterLink s f rest (slot t i)).mem (slot (tableAt f) j) = 0 := by
  rw [afterLink_mem_of_ne (h.link_apart frames hp ht hj), zeroed_self hj]

theorem Tables.link_old (h : Tables s m) {f : Nat} {rest : List Nat}
    (frames : s.frames = f :: rest) (hp : EntryPath (p ++ [i]))
    (ht : descend slot child s.mem s.pgtVirtBase p = some t) {q : List Nat} {j u : Nat}
    (hq : EntryPath (q ++ [j])) (hu : descend slot child s.mem s.pgtVirtBase q = some u)
    (other : ¬ (q = p ∧ j = i)) :
    (afterLink s f rest (slot t i)).mem (slot u j) = s.mem (slot u j) := by
  rw [afterLink_mem_of_ne (fun e => other (h.tree q p j i u t hq hp hu ht e)),
    h.zeroed_same frames hq hu]

theorem Tables.link (h : Tables s m) {f : Nat} {rest : List Nat} (frames : s.frames = f :: rest)
    (hp : EntryPath (p ++ [i])) (len : p.length < 3)
    (ht : descend slot child s.mem s.pgtVirtBase p = some t) (zero : s.mem (slot t i) = 0) :
    Tables (afterLink s f rest (slot t i)) m := by
  have go := fun q hq => h.descend_link frames hp ht zero (q := q) hq
  constructor
  case tree => exact h.tree_link frames hp ht zero
  case owned =>
    intro q j u hq hu
    change ∃ g ∈ allocated (afterAlloc s f rest), u = tableAt g
    rw [allocated_afterAlloc]
    change descend slot child _ s.pgtVirtBase q = some u at hu
    rw [go q (EntryPath.closed q [j] hq)] at hu
    split_ifs at hu with new
    · cases hu
      exact ⟨f, by simp, rfl⟩
    · obtain ⟨g, hg, e⟩ := h.owned q j u hq hu
      exact ⟨g, List.mem_append_left _ hg, e⟩
  case interior =>
    intro q j u hq hlen hu
    change descend slot child _ s.pgtVirtBase q = some u at hu
    rw [go q (EntryPath.closed q [j] hq)] at hu
    split_ifs at hu with new
    · cases hu
      rw [h.link_fresh frames hp ht hq.last_lt]
      exact .inl rfl
    · by_cases here : q = p ∧ j = i
      · obtain ⟨rfl, rfl⟩ := here
        cases ht.symm.trans hu
        have bounds := h.small f (by rw [frames]; simp)
        rw [afterLink_mem_self]
        exact interior_tableEntry bounds.1 bounds.2 0
      · rw [h.link_old frames hp ht hq hu here]
        exact h.interior q j u hq hlen hu
  case leaves =>
    intro q j hq hlen
    rw [h.leaves q j hq hlen]
    change _ = (descend slot child _ s.pgtVirtBase q).bind _
    rw [go q (EntryPath.closed q [j] hq)]
    split_ifs with new
    · subst new
      have before : descend slot child s.mem s.pgtVirtBase (p ++ [i]) = none := by
        rw [descend_snoc ht, zero, child_zero]
      rw [before, Option.bind_some, h.link_fresh frames hp ht hq.last_lt, leafBase_zero]
      rfl
    · cases hu : descend slot child s.mem s.pgtVirtBase q with
      | none => rfl
      | some u =>
          rw [Option.bind_some, Option.bind_some, h.link_old frames hp ht hq hu]
          rintro ⟨rfl, _⟩
          omega
  case supply =>
    change (rest ++ allocated (afterAlloc s f rest)).Nodup
    have nodup := h.supply
    rw [frames] at nodup
    rw [allocated_afterAlloc, ← List.append_assoc]
    exact (List.perm_append_singleton f (rest ++ allocated s)).nodup_iff.mpr nodup
  case small =>
    change ∀ g ∈ rest ++ allocated (afterAlloc s f rest), _
    intro g hg
    rw [allocated_afterAlloc] at hg
    apply h.small g
    rw [frames]
    simp only [List.mem_append, List.mem_cons, List.not_mem_nil, or_false] at hg ⊢
    tauto

/-- A step down finds the table or links in a new one. -/
theorem Tables.insertTable_cases (h : Tables s m) (hp : EntryPath (p ++ [i])) (len : p.length < 3)
    (ht : descend slot child s.mem s.pgtVirtBase p = some t)
    (enough : baseAddress (s.mem (slot t i)) = 0 → s.frames ≠ []) :
    ∃ s' u, (insertTable (slot t i)).run s = .ok (u, s') ∧
      descend slot child s'.mem s'.pgtVirtBase (p ++ [i]) = some u ∧
      (s' = s ∨ ∃ f rest, s.frames = f :: rest ∧ s.mem (slot t i) = 0 ∧
        s' = afterLink s f rest (slot t i)) := by
  have word := h.interior p i t hp len ht
  by_cases base : baseAddress (s.mem (slot t i)) = 0
  · have zero := word.eq_zero base
    obtain ⟨f, rest, frames⟩ := List.exists_cons_of_ne_nil (enough base)
    have bounds := h.small f (by rw [frames]; simp)
    have stays : zeroed s.mem f (slot t i) = 0 := by rw [h.zeroed_same frames hp ht, zero]
    refine ⟨afterLink s f rest (slot t i), tableAt f, ?_, ?_, .inr ⟨f, rest, frames, zero, rfl⟩⟩
    · unfold Vma.insertTable
      rw [bind_ok (load_run _), if_pos base, bind_ok (allocatePhys_run frames bounds.2)]
      dsimp only
      rw [bind_ok (modifyEntry_run _ _), bind_ok (modifyEntry_run _ _),
        bind_ok (modifyEntry_run _ _), bind_ok (modifyEntry_run _ _)]
      simp only [setWord_mem_self, setWord_setWord]
      have word : (afterAlloc s f rest).mem (slot t i) = 0 := stays
      rw [word, bind_ok (load_run _)]
      change (paToVpa (baseAddress ((afterLink s f rest (slot t i)).mem (slot t i)))).run
        (afterLink s f rest (slot t i)) = _
      have value := toNat_pgdToPa bounds.2
      rw [afterLink_mem_self, baseAddress_tableEntry,
        paToVpa_run (by rw [value, pmemVaSize]; omega), value]
      rfl
    · change descend slot child _ s.pgtVirtBase _ = _
      rw [h.descend_link frames hp ht zero (q := p ++ [i]) hp, if_pos rfl]
  · rcases word with zero | ⟨_, _, lt⟩
    · exact absurd (zero ▸ baseAddress_zero) base
    · refine ⟨s, pmemVaStart + (baseAddress (s.mem (slot t i))).toNat, ?_, ?_, .inl rfl⟩
      · unfold Vma.insertTable
        rw [bind_ok (load_run _), if_neg base]
        exact (bind_ok (load_run _)).trans (paToVpa_run lt)
      · rw [descend_snoc ht, child, if_neg base]

/-- A step down keeps the map. -/
theorem Tables.insertTable (h : Tables s m) (hp : EntryPath (p ++ [i])) (len : p.length < 3)
    (ht : descend slot child s.mem s.pgtVirtBase p = some t) (enough : s.frames ≠ []) :
    ∃ s' u, (insertTable (slot t i)).run s = .ok (u, s') ∧ Tables s' m ∧
      s'.pgtVirtBase = s.pgtVirtBase ∧ s.frames.length ≤ s'.frames.length + 1 ∧
      descend slot child s'.mem s'.pgtVirtBase (p ++ [i]) = some u := by
  obtain ⟨s', u, run, reached, same | ⟨f, rest, frames, zero, linked⟩⟩ :=
    h.insertTable_cases hp len ht fun _ => enough
  · subst same
    exact ⟨s', u, run, h, rfl, Nat.le_succ _, reached⟩
  · subst linked
    refine ⟨_, u, run, h.link frames hp len ht zero, rfl, ?_, reached⟩
    rw [frames]
    exact le_rfl

end Steps
end Infos.Mm.Vma
