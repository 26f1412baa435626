import Infos.Mm.VmaTables
import Mathlib.Data.List.Induction

/-!
# Insertions and lookups as a finite map

A fresh address space maps nothing; every insertion updates the map at one page
and every lookup reads it.
-/
namespace Infos.Mm.Vma
open Infos.Lib Function

section Operations
variable {s : State} {m : List Nat → Option (BitVec 64)} {p : List Nat} {i t : Nat}

theorem EntryPath.leaf (len : p.length = 3) {r : List Nat} (hr : EntryPath (p ++ i :: r)) :
    r = [] := by
  have total := hr.1
  rw [List.length_append, List.length_cons] at total
  exact List.length_eq_zero_iff.mp (by omega)

theorem Tables.descend_writeLeaf (h : Tables s m) (hp : EntryPath (p ++ [i])) (len : p.length = 3)
    (ht : descend slot child s.mem s.pgtVirtBase p = some t) (w : BitVec 64) {q : List Nat}
    {j : Nat} (hq : EntryPath (q ++ [j])) :
    descend slot child (s.setWord (slot t i) w).mem s.pgtVirtBase q =
      descend slot child s.mem s.pgtVirtBase q :=
  h.tree.descend_write_leaf EntryPath.closed hp ht (fun _ hr => hr.leaf len) hq

theorem Tables.writeLeaf (h : Tables s m) (hp : EntryPath (p ++ [i])) (len : p.length = 3)
    (ht : descend slot child s.mem s.pgtVirtBase p = some t) (w : BitVec 64) :
    Tables (s.setWord (slot t i) w) (update m (p ++ [i]) (leafBase w)) := by
  have go := fun q j hq => h.descend_writeLeaf hp len ht w (q := q) (j := j) hq
  have old : ∀ q j u, EntryPath (q ++ [j]) →
      descend slot child s.mem s.pgtVirtBase q = some u → ¬ (q = p ∧ j = i) →
      (s.setWord (slot t i) w).mem (slot u j) = s.mem (slot u j) :=
    fun q j u hq hu ne => update_of_ne (fun e => ne (h.tree q p j i u t hq hp hu ht e)) _ _
  constructor
  case tree => exact h.tree.write_leaf EntryPath.closed hp ht fun _ hr => hr.leaf len
  case owned =>
    intro q j u hq hu
    exact h.owned q j u hq ((go q j hq).symm.trans hu)
  case interior =>
    intro q j u hq hlen hu
    have hu' := (go q j hq).symm.trans hu
    rw [old q j u hq hu']
    · exact h.interior q j u hq hlen hu'
    · rintro ⟨rfl, _⟩
      omega
  case leaves =>
    intro q j hq hlen
    change _ = (descend slot child _ s.pgtVirtBase q).bind _
    rw [go q j hq]
    by_cases here : q = p ∧ j = i
    · obtain ⟨rfl, rfl⟩ := here
      rw [update_self, ht, Option.bind_some, setWord_mem_self]
    · have other : q ++ [j] ≠ p ++ [i] := fun e => here (by
        obtain ⟨front, last⟩ := List.append_inj' e rfl
        exact ⟨front, by simpa using last⟩)
      rw [update_of_ne other, h.leaves q j hq hlen]
      cases hu : descend slot child s.mem s.pgtVirtBase q with
      | none => rfl
      | some u => rw [Option.bind_some, Option.bind_some, old q j u hq hu here]
  case supply => exact h.supply
  case small => exact h.small

theorem UserAddress.entryPath {va : BitVec 64} (h : UserAddress va) : EntryPath (path va) := by
  refine ⟨le_rfl, ?_, ?_⟩
  · intro i hi
    simp only [path, List.mem_cons, List.not_mem_nil, or_false] at hi
    omega
  · intro i hi
    cases hi
    exact (userAddress_iff va).mp h

/-- The leaf entry that `insert_mapping` leaves behind. -/
def leafEntry (pa mappingFlags old : BitVec 64) : BitVec 64 :=
  let w := setBaseAddress pa old
  let w := if mappingFlags &&& mappingPresent ≠ 0 then setFlag .present true w else w
  let w := if mappingFlags &&& mappingWritable ≠ 0 then setFlag .writable true w else w
  if mappingFlags &&& mappingUser ≠ 0 then setFlag .allowUser true w else w

theorem leafBase_leafEntry {pa mappingFlags : BitVec 64} (old : BitVec 64)
    (present : mappingFlags &&& mappingPresent ≠ 0) :
    leafBase (leafEntry pa mappingFlags old) = some (baseAddress pa) := by
  unfold leafEntry
  dsimp only
  rw [if_pos present]
  split_ifs <;> simp [leafBase]

theorem setWord_same (addr : Nat) : s.setWord addr (s.mem addr) = s := by
  rw [State.setWord, update_eq_self]

theorem guarded_run {c : Prop} [Decidable c] (addr : Nat) (f : BitVec 64 → BitVec 64)
    {next : Exec State Unit} :
    (do
      if c then modifyEntry addr f
      next).run s = next.run (s.setWord addr (if c then f (s.mem addr) else s.mem addr)) := by
  by_cases hc : c
  · rw [if_pos hc, if_pos hc]
    rfl
  · rw [if_neg hc, if_neg hc, setWord_same]

theorem insertEntry_run (pt : Nat) (pa mappingFlags : BitVec 64) :
    (insertEntry pt pa mappingFlags).run s =
      .ok ((), s.setWord pt (leafEntry pa mappingFlags (s.mem pt))) := by
  unfold insertEntry
  rw [bind_ok (modifyEntry_run _ _), guarded_run, guarded_run]
  simp only [setWord_mem_self, setWord_setWord]
  unfold leafEntry
  dsimp only
  by_cases user : mappingFlags &&& mappingUser ≠ 0
  · rw [if_pos user, if_pos user, modifyEntry_run, setWord_mem_self, setWord_setWord]
  · rw [if_neg user, if_neg user]
    rfl

/-- Three steps down and a write: the map changes at one path. -/
theorem Tables.insertMapping (h : Tables s m) {va pa mappingFlags : BitVec 64}
    (user : UserAddress va) (present : mappingFlags &&& mappingPresent ≠ 0)
    (enough : 3 ≤ s.frames.length) :
    ∃ s', (insertMapping va pa mappingFlags).run s = .ok ((), s') ∧
      Tables s' (update m (path va) (some (baseAddress pa))) ∧
      s.frames.length ≤ s'.frames.length + 3 := by
  have whole := user.entryPath
  unfold path at whole ⊢
  generalize hi : va.toNat / 2 ^ 39 % 512 = i at whole ⊢
  generalize hj : va.toNat / 2 ^ 30 % 512 = j at whole ⊢
  generalize hk : va.toNat / 2 ^ 21 % 512 = k at whole ⊢
  generalize hl : va.toNat / 2 ^ 12 % 512 = l at whole ⊢
  have nonempty : ∀ {s : State}, 1 ≤ s.frames.length → s.frames ≠ [] := by
    intro s len e
    rw [e] at len
    exact absurd len (by decide)
  obtain ⟨s₁, t₁, run₁, tables₁, _, len₁, at₁⟩ := h.insertTable (p := []) (i := i)
    (EntryPath.closed [i] [j, k, l] whole) (by decide) rfl (nonempty (by omega))
  obtain ⟨s₂, t₂, run₂, tables₂, _, len₂, at₂⟩ := tables₁.insertTable (p := [i]) (i := j)
    (EntryPath.closed [i, j] [k, l] whole) (Nat.lt_add_of_pos_right Nat.two_pos) at₁
    (nonempty (by omega))
  obtain ⟨s₃, t₃, run₃, tables₃, _, len₃, at₃⟩ := tables₂.insertTable (p := [i, j]) (i := k)
    (EntryPath.closed [i, j, k] [l] whole) (Nat.lt_succ_self 2) at₂ (nonempty (by omega))
  have written := tables₃.writeLeaf (p := [i, j, k]) (i := l) whole rfl at₃
    (leafEntry pa mappingFlags (s₃.mem (slot t₃ l)))
  rw [leafBase_leafEntry _ present] at written
  refine ⟨_, ?_, written, ?_⟩
  · unfold Vma.insertMapping
    rw [vaTableIndicies_eq, hi, hj, hk, hl]
    dsimp only
    rw [bind_ok (run_get_eq s)]
    exact (bind_ok run₁).trans ((bind_ok run₂).trans ((bind_ok run₃).trans (insertEntry_run _ _ _)))
  · change s.frames.length ≤ s₃.frames.length + 3
    omega

theorem lookupTable_run {entry : Nat} (word : Interior (s.mem entry)) :
    (lookupTable entry).run s = .ok (child (s.mem entry), s) := by
  unfold lookupTable
  rw [bind_ok (load_run entry)]
  rcases word with zero | ⟨present, base, lt⟩
  · rw [zero, getFlag_zero, child_zero]
    rfl
  · rw [if_pos present, bind_ok (load_run entry), bind_ok (paToVpa_run lt), child, if_neg base]
    rfl

theorem Tables.root_ne_zero (h : Tables s m) : s.pgtVirtBase ≠ 0 := by
  obtain ⟨f, _, e⟩ := h.owned [] 0 s.pgtVirtBase
    ⟨by decide, by decide, fun i hi => by cases hi; decide⟩ rfl
  rw [e, tableAt, pmemVaStart]
  omega

theorem Tables.getMapping (h : Tables s m) {va : BitVec 64} (user : UserAddress va) :
    (getMapping va).run s = .ok ((m (path va)).map fun base => base ||| (va &&& 0xfff#64), s) := by
  have whole := user.entryPath
  have root := h.root_ne_zero
  unfold Vma.getMapping
  rw [bind_ok (run_get_eq s), if_neg root, vaTableIndicies_eq]
  dsimp only
  unfold path at whole ⊢
  generalize va.toNat / 2 ^ 39 % 512 = i at whole ⊢
  generalize va.toNat / 2 ^ 30 % 512 = j at whole ⊢
  generalize va.toNat / 2 ^ 21 % 512 = k at whole ⊢
  generalize va.toNat / 2 ^ 12 % 512 = l at whole ⊢
  have one : EntryPath ([] ++ [i]) := EntryPath.closed [i] [j, k, l] whole
  have two : EntryPath ([i] ++ [j]) := EntryPath.closed [i, j] [k, l] whole
  have three : EntryPath ([i, j] ++ [k]) := EntryPath.closed [i, j, k] [l] whole
  have leaf : m [i, j, k, l] = _ := h.leaves [i, j, k] l whole rfl
  have word₁ := h.interior [] i s.pgtVirtBase one (Nat.succ_pos 2) rfl
  have at₁ : descend slot child s.mem s.pgtVirtBase [i] = _ := descend_snoc (p := []) rfl
  apply (bind_ok (lookupTable_run word₁)).trans
  cases e₁ : child (s.mem (slot s.pgtVirtBase i)) with
  | none =>
      have none : descend slot child s.mem s.pgtVirtBase ([i] ++ [j, k]) = none := by
        rw [descend_append, at₁, e₁]; rfl
      rw [leaf, show [i, j, k] = [i] ++ [j, k] from rfl, none]
      rfl
  | some t₁ =>
      rw [e₁] at at₁
      have word₂ := h.interior [i] j t₁ two (Nat.lt_add_of_pos_right Nat.two_pos) at₁
      have at₂ : descend slot child s.mem s.pgtVirtBase [i, j] = _ := descend_snoc at₁
      apply (bind_ok (lookupTable_run word₂)).trans
      cases e₂ : child (s.mem (slot t₁ j)) with
      | none =>
          have none : descend slot child s.mem s.pgtVirtBase ([i, j] ++ [k]) = none := by
            rw [descend_append, at₂, e₂]; rfl
          rw [leaf, show [i, j, k] = [i, j] ++ [k] from rfl, none]
          rfl
      | some t₂ =>
          rw [e₂] at at₂
          have word₃ := h.interior [i, j] k t₂ three (Nat.lt_succ_self 2) at₂
          have at₃ : descend slot child s.mem s.pgtVirtBase [i, j, k] = _ := descend_snoc at₂
          apply (bind_ok (lookupTable_run word₃)).trans
          cases e₃ : child (s.mem (slot t₂ k)) with
          | none =>
              rw [leaf, at₃, e₃]
              rfl
          | some t₃ =>
              rw [leaf, at₃, e₃, Option.bind_some, leafBase]
              apply (bind_ok (load_run _)).trans
              change (if getFlag (s.mem (slot t₃ l)) .present then _ else _ :
                Exec State _).run s = _
              split_ifs <;> rfl

end Operations

/-! ### From a fresh address space -/

/-- A new address space with the default kernel mapping. -/
def create (template : Option (Nat → BitVec 64)) : Exec State Unit := do
  construct
  installDefaultKernelMapping template

/-- The arguments of one `insert_mapping` call. -/
structure Insert where
  va : BitVec 64
  pa : BitVec 64
  mappingFlags : BitVec 64

def insertAll : List Insert → Exec State Unit
  | [] => pure ()
  | x :: xs => do
      insertMapping x.va x.pa x.mappingFlags
      insertAll xs

/-- The physical address of the last insertion for the page of `va`. -/
def lastInserted (xs : List Insert) (va : BitVec 64) : Option (BitVec 64) :=
  (xs.reverse.find? fun x => SamePage x.va va).map Insert.pa

/-- The answers of the page allocator: distinct frames, none of them zero, in the direct map. -/
def FreshFrames (frames : List Nat) : Prop := frames.Nodup ∧ ∀ f ∈ frames, 0 < f ∧ f < 2 ^ 20

/-- No two paths through user entries reach the same table page. -/
def TablesUnshared (s : State) : Prop :=
  ∀ p q i t, EntryPath (p ++ [i]) → EntryPath (q ++ [i]) →
    descend slot child s.mem s.pgtVirtBase p = some t →
    descend slot child s.mem s.pgtVirtBase q = some t → p = q

section Runs
variable {s : State} {m : List Nat → Option (BitVec 64)}

/-- The state after a new top-level table in frame `f`. -/
def created (s : State) (f : Nat) (rest : List Nat) (pml4 : Nat → BitVec 64) : State :=
  let s₁ : State := { afterAlloc s f rest with pgtPhysBase := pgdToPa f, pgtVirtBase := tableAt f }
  (s₁.setWord (slot (tableAt f) 0x1ff) (pml4 0x1ff)).setWord (slot (tableAt f) 0x100) (pml4 0x100)

theorem created_direct (f : Nat) (rest : List Nat) (pml4 : Nat → BitVec 64) :
    (created s f rest pml4).mem (slot (tableAt f) 0x100) = pml4 0x100 :=
  setWord_mem_self _ _

theorem created_kernel (f : Nat) (rest : List Nat) (pml4 : Nat → BitVec 64) :
    (created s f rest pml4).mem (slot (tableAt f) 0x1ff) = pml4 0x1ff := by
  have apart : slot (tableAt f) 0x1ff ≠ slot (tableAt f) 0x100 := by
    unfold slot
    omega
  unfold created State.setWord
  dsimp only
  rw [update_of_ne apart, update_self]

theorem create_run {f : Nat} {rest : List Nat} (pml4 : Nat → BitVec 64)
    (frames : s.frames = f :: rest) (small : f < 2 ^ 20) :
    (create (some pml4)).run s = .ok ((), created s f rest pml4) := by
  let s₁ : State := { afterAlloc s f rest with pgtPhysBase := pgdToPa f, pgtVirtBase := tableAt f }
  have run₁ : construct.run s = .ok ((), s₁) := by
    unfold construct
    rw [bind_ok (allocatePhys_run frames small)]
    exact (bind_ok (pgdToVpa_run small)).trans rfl
  have run₂ : (installDefaultKernelMapping (some pml4)).run s₁ =
      .ok ((), created s f rest pml4) := by
    unfold installDefaultKernelMapping
    exact (bind_ok (run_get_eq s₁)).trans ((bind_ok (modifyEntry_run _ _)).trans rfl)
  exact (bind_ok run₁).trans run₂

theorem create_tables (pml4 : Nat → BitVec 64) (fresh : FreshFrames s.frames)
    (none : s.pageAllocations = []) (enough : 1 ≤ s.frames.length) :
    ∃ s', (create (some pml4)).run s = .ok ((), s') ∧ Tables s' (fun _ => Option.none) ∧
      s.frames.length = s'.frames.length + 1 := by
  obtain ⟨f, rest, frames⟩ := List.exists_cons_of_ne_nil (List.length_pos_iff.mp enough)
  have bounds := fresh.2 f (by rw [frames]; simp)
  let s₂ := created s f rest pml4
  -- every user entry of the top-level table is zero
  have zero : ∀ i, EntryPath [i] → s₂.mem (slot (tableAt f) i) = 0 := by
    intro i hi
    have kernel := hi.2.2 i rfl
    have lt := EntryPath.last_lt (p := []) hi
    change update (update (zeroed s.mem f) _ _) _ _ _ = _
    rw [update_of_ne, update_of_ne, zeroed_self lt]
    · exact fun e => kernel.2 (slot_inj lt (by decide) e).2
    · exact fun e => kernel.1 (slot_inj lt (by decide) e).2
  have only : ∀ p t, EntryPath p → descend slot child s₂.mem (tableAt f) p = some t →
      p = [] ∧ t = tableAt f := by
    intro p t hp ht
    cases p with
    | nil => cases ht; exact ⟨rfl, rfl⟩
    | cons i r =>
        rw [descend, zero i (EntryPath.closed [i] r hp), child_zero] at ht
        cases ht
  have owner : allocated s₂ = [f] := by
    change (s.pageAllocations ++ [_]).map _ = _
    rw [none]
    rfl
  refine ⟨s₂, create_run pml4 frames bounds.2, ?_, ?_⟩
  swap
  · rw [frames]; rfl
  constructor
  case tree =>
    intro p q i j t u hp hq ht hu e
    obtain ⟨rfl, rfl⟩ := only p t (EntryPath.closed p [i] hp) ht
    obtain ⟨rfl, rfl⟩ := only q u (EntryPath.closed q [j] hq) hu
    exact ⟨rfl, (slot_inj hp.last_lt hq.last_lt e).2⟩
  case owned =>
    intro p i t hp ht
    rw [owner]
    exact ⟨f, List.mem_singleton_self f, (only p t (EntryPath.closed p [i] hp) ht).2⟩
  case interior =>
    intro p i t hp _ ht
    obtain ⟨rfl, rfl⟩ := only p t (EntryPath.closed p [i] hp) ht
    exact .inl (zero i hp)
  case leaves =>
    intro p i hp len
    cases e : descend slot child s₂.mem s₂.pgtVirtBase p with
    | none => rfl
    | some t =>
        obtain ⟨rfl, _⟩ := only p t (EntryPath.closed p [i] hp) e
        cases len
  case supply =>
    rw [owner]
    have nodup := fresh.1
    rw [frames] at nodup
    exact (List.perm_append_singleton f rest).nodup_iff.mpr nodup
  case small =>
    rw [owner]
    intro g hg
    apply fresh.2 g
    rw [frames]
    exact (List.perm_append_singleton f rest).mem_iff.mp hg

/-- A run of insertions updates the map at one page after another. -/
theorem Tables.insertAll (h : Tables s m) {xs : List Insert}
    (user : ∀ x ∈ xs, UserAddress x.va) (present : ∀ x ∈ xs, x.mappingFlags &&& mappingPresent ≠ 0)
    (enough : 3 * xs.length ≤ s.frames.length) :
    ∃ s', (insertAll xs).run s = .ok ((), s') ∧
      Tables s' (xs.foldl (fun m x => update m (path x.va) (some (baseAddress x.pa))) m) := by
  induction xs generalizing s m with
  | nil => exact ⟨s, rfl, h⟩
  | cons x xs ih =>
      rw [List.length_cons] at enough
      obtain ⟨s₁, run₁, tables₁, len₁⟩ := h.insertMapping (user x List.mem_cons_self)
        (present x List.mem_cons_self) (by omega)
      obtain ⟨s', run', tables'⟩ := ih tables₁ (fun y hy => user y (List.mem_cons_of_mem x hy))
        (fun y hy => present y (List.mem_cons_of_mem x hy)) (by omega)
      exact ⟨s', (bind_ok run₁).trans run', tables'⟩

theorem foldl_insert (xs : List Insert) (va : BitVec 64) :
    xs.foldl (fun m x => update m (path x.va) (some (baseAddress x.pa))) (fun _ => none) (path va) =
      (lastInserted xs va).map baseAddress := by
  induction xs using List.reverseRecOn with
  | nil => rfl
  | append_singleton xs x ih =>
      rw [List.foldl_append, List.foldl_cons, List.foldl_nil, lastInserted, List.reverse_append,
        List.reverse_singleton, List.singleton_append, List.find?_cons]
      by_cases same : SamePage x.va va
      · rw [(path_eq_iff x.va va).mpr same, update_self, decide_eq_true same]
        rfl
      · have ne : path va ≠ path x.va := fun e => same ((path_eq_iff x.va va).mp e.symm)
        rw [update_of_ne ne, ih, decide_eq_false same]
        rfl

/-- The address space is a finite map: after any insertions, a lookup finds the last one for
its page, or nothing, and the tables stay unshared. -/
theorem vma_finite_map (s : State) (pml4 : Nat → BitVec 64) (xs : List Insert)
    (fresh : FreshFrames s.frames) (none : s.pageAllocations = [])
    (enough : 1 + 3 * xs.length ≤ s.frames.length) (user : ∀ x ∈ xs, UserAddress x.va)
    (present : ∀ x ∈ xs, x.mappingFlags &&& mappingPresent ≠ 0) :
    ∃ s', (do create (some pml4); insertAll xs).run s = .ok ((), s') ∧ TablesUnshared s' ∧
      ∀ va, UserAddress va → (getMapping va).run s' = .ok ((lastInserted xs va).map fun pa =>
        (pa &&& ~~~0xfff#64) ||| (va &&& 0xfff#64), s') := by
  obtain ⟨s₁, run₁, tables₁, len₁⟩ := create_tables pml4 fresh none (by omega)
  obtain ⟨s', run', tables'⟩ := tables₁.insertAll user present (by omega)
  refine ⟨s', (bind_ok run₁).trans run', ?_, fun va huser => ?_⟩
  · intro p q i t hp hq ht hu
    exact tables'.tree.unshared hp hq ht hu
  · rw [tables'.getMapping huser, foldl_insert, Option.map_map]
    rfl

/-- Two insertions for one page, the second of which counts. -/
def remapped : List Insert := [⟨0x400000, 0x5000, 7⟩, ⟨0x400123, 0x9abc, 1⟩]

theorem vma_finite_map_remapped :
    ∃ s', (do create (some fun _ => 0); insertAll remapped).run
        ⟨fun _ => 0, List.range' 1 7, [], 0, 0⟩ = .ok ((), s') ∧ TablesUnshared s' ∧
      (getMapping 0x400777).run s' = .ok (some 0x9777, s') := by
  obtain ⟨s', run, unshared, lookup⟩ := vma_finite_map ⟨fun _ => 0, List.range' 1 7, [], 0, 0⟩
    (fun _ => 0) remapped ⟨by decide, by decide⟩ rfl (by decide) (by decide) (by decide)
  exact ⟨s', run, unshared, lookup 0x400777 (by decide)⟩

end Runs
end Infos.Mm.Vma
