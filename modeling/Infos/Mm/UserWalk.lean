import Infos.Mm.AddressSpaces
import Infos.Mm.KernelTables

/-!
# What user mode reaches

The processor's walk for a program in user mode, which every entry on the way has to let through.
The entries that the operations write do, and those of the kernel's half do not.
-/
namespace Infos.Mm.Vma
open Infos.Lib Function

/-- The walk in user mode: bit 2 of an entry lets it through. -/
def userWalkFrom (s : State) (va : BitVec 64) : Nat → Nat → Option Nat
  | 0, table =>
      let entry := entryOf s va 0 table
      if entry.getLsbD 0 ∧ entry.getLsbD 2 then
        some (addressField 12 entry + va.toNat % 2 ^ 12)
      else none
  | level + 1, table =>
      let entry := entryOf s va (level + 1) table
      if entry.getLsbD 0 ∧ entry.getLsbD 2 then
        if entry.getLsbD 7 ∧ level + 1 < 3 then
          some (addressField (levelBits (level + 1)) entry + va.toNat % 2 ^ levelBits (level + 1))
        else userWalkFrom s va level (addressField 12 entry)
      else none

/-- Bits 47 to 63 are alike. The processor faults on all other addresses. -/
def Canonical (va : BitVec 64) : Prop := va.toNat < 2 ^ 47 ∨ 2 ^ 64 - 2 ^ 47 ≤ va.toNat

instance (va : BitVec 64) : Decidable (Canonical va) := inferInstanceAs (Decidable (_ ∨ _))

/-- Where a program in user mode gets with `va`. -/
def userWalk (s : State) (va : BitVec 64) : Option Nat :=
  if Canonical va then userWalkFrom s va 3 (addressField 12 s.pgtPhysBase) else none

/-! ### What the operations write into tables -/

/-- Nothing, or an entry that lets user mode through and maps no large page. -/
def UserEntry (entry : BitVec 64) : Prop :=
  entry = 0 ∨
    getFlag entry .present = true ∧ getFlag entry .allowUser = true ∧ getFlag entry .huge = false

/-- The upper half of a top-level table with the kernel's entries from `template`. -/
def upperEntry (template : Nat → BitVec 64) (i : Nat) : BitVec 64 :=
  if i = 0x1ff then template 0x1ff else if i = 0x100 then template 0x100 else 0

/-- The processor and `get_mapping` go through the same tables, and these hold entries for user
mode below the kernel's. -/
structure Guarded (template : Nat → BitVec 64) (s : State) : Prop where
  shown : s.pgtVirtBase = pmemVaStart + s.pgtPhysBase.toNat
  entries : ∀ p i t, EntryPath (p ++ [i]) → descend slot child s.mem s.pgtVirtBase p = some t →
    UserEntry (s.mem (slot t i))
  upper : ∀ i, 256 ≤ i → i < 512 → s.mem (slot s.pgtVirtBase i) = upperEntry template i

section Entries
variable {entry : BitVec 64}

theorem userEntry_tableEntry (f : Nat) : UserEntry (tableEntry f 0) := by
  have clear := getFlag_zero .huge
  refine .inr ⟨present_tableEntry f 0, ?_, ?_⟩
  · simp [tableEntry]
  · unfold tableEntry
    rw [getFlag_setFlag, getFlag_setFlag, getFlag_setFlag, getFlag_setBaseAddress]
    exact clear

theorem UserEntry.huge (h : UserEntry entry) : getFlag entry .huge = false := by
  rcases h with rfl | ⟨_, _, small⟩
  · exact getFlag_zero .huge
  · exact small

theorem UserEntry.leafEntry (h : UserEntry entry) {pa mappingFlags : BitVec 64}
    (present : mappingFlags &&& mappingPresent ≠ 0) (user : mappingFlags &&& mappingUser ≠ 0) :
    UserEntry (leafEntry pa mappingFlags entry) := by
  have clear := h.huge
  unfold Vma.leafEntry
  dsimp only
  rw [if_pos present, if_pos user]
  split_ifs <;> exact .inr (by simp [clear])

end Entries

section Guarded
variable {s s' : State} {template : Nat → BitVec 64} {m : List Nat → Option (BitVec 64)}
  {T D P : Nat → Prop} {p : List Nat} {i t : Nat}

theorem entryPath_first : EntryPath ([] ++ [0]) := by
  refine ⟨by decide, by decide, ?_⟩
  rintro i ⟨⟩
  decide

theorem Space.root_alone (h : Space s m T D) (hp : EntryPath (p ++ [i]))
    (ht : descend slot child s.mem s.pgtVirtBase p = some s.pgtVirtBase) : p = [] := by
  cases p with
  | nil => rfl
  | cons j r =>
      have first : EntryPath ((j :: r) ++ [0]) := by
        obtain ⟨len, lt, head⟩ := hp
        refine ⟨by rwa [List.length_append] at len ⊢, fun k mem => ?_, head⟩
        rcases List.mem_append.mp mem with old | new
        · exact lt k (List.mem_append_left _ old)
        · rw [List.mem_singleton.mp new]
          decide
      exact h.tables.tree.unshared first (q := []) entryPath_first ht rfl

theorem Space.slot_apart (h : Space s m T D) (hp : EntryPath (p ++ [i]))
    (low : ∀ j, (p ++ [i]).head? = some j → j < 256)
    (ht : descend slot child s.mem s.pgtVirtBase p = some t) {j : Nat} (upper : 256 ≤ j)
    (hj : j < 512) : slot s.pgtVirtBase j ≠ slot t i := by
  obtain ⟨g, _, rfl⟩ := h.reached p i t hp ht
  obtain ⟨r, _, root⟩ := h.reached [] 0 s.pgtVirtBase entryPath_first rfl
  intro same
  rw [root] at same
  obtain ⟨rfl, rfl⟩ := slot_inj hj hp.last_lt same
  rw [← root] at ht
  have top := h.root_alone hp ht
  subst top
  exact absurd (low j rfl) (by omega)

theorem Guarded.congr {template' : Nat → BitVec 64} (g : Guarded template s)
    (kernel : template' 0x1ff = template 0x1ff) (direct : template' 0x100 = template 0x100) :
    Guarded template' s where
  shown := g.shown
  entries := g.entries
  upper i above lt := by
    rw [g.upper i above lt, upperEntry, upperEntry, kernel, direct]

theorem Guarded.insertTable (g : Guarded template s) (h : Space s m T D) {u : Nat}
    (hp : EntryPath (p ++ [i])) (low : ∀ j, (p ++ [i]).head? = some j → j < 256)
    (len : p.length < 3) (ht : descend slot child s.mem s.pgtVirtBase p = some t)
    (run : (insertTable (slot t i)).run s = .ok (u, s')) : Guarded template s' := by
  obtain ⟨s₁, u₁, run₁, _, cases⟩ := h.tables.insertTable_cases hp len ht (insertTable_left run)
  rw [run₁] at run
  cases run
  rcases cases with rfl | ⟨f, rest, frames, zero, rfl⟩
  · exact g
  · constructor
    case shown => exact g.shown
    case entries =>
      intro q j v hq hv
      change descend slot child _ s.pgtVirtBase q = some v at hv
      rw [h.tables.descend_link frames hp ht zero (EntryPath.closed q [j] hq)] at hv
      split_ifs at hv with new
      · cases hv
        rw [h.tables.link_fresh frames hp ht hq.last_lt]
        exact .inl rfl
      · by_cases here : q = p ∧ j = i
        · obtain ⟨rfl, rfl⟩ := here
          cases ht.symm.trans hv
          rw [afterLink_mem_self]
          exact userEntry_tableEntry f
        · rw [h.tables.link_old frames hp ht hq hv here]
          exact g.entries q j v hq hv
    case upper =>
      intro j above hj
      refine (afterLink_mem_of_ne (h.slot_apart hp low ht above hj)).trans ?_
      rw [← g.upper j above hj]
      obtain ⟨r, mine, root⟩ := h.tables.owned [] 0 s.pgtVirtBase entryPath_first rfl
      rw [root]
      refine zeroed_other hj ?_
      rintro rfl
      exact h.tables.not_allocated frames mine

theorem Guarded.writeLeaf (g : Guarded template s) (h : Space s m T D)
    (hp : EntryPath (p ++ [i])) (low : ∀ j, (p ++ [i]).head? = some j → j < 256)
    (len : p.length = 3) (ht : descend slot child s.mem s.pgtVirtBase p = some t)
    {w : BitVec 64} (entry : UserEntry w) : Guarded template (s.setWord (slot t i) w) where
  shown := g.shown
  entries := by
    intro q j v hq hv
    have before := (h.tables.descend_writeLeaf hp len ht w hq).symm.trans hv
    by_cases here : q = p ∧ j = i
    · obtain ⟨rfl, rfl⟩ := here
      cases ht.symm.trans before
      rw [setWord_mem_self]
      exact entry
    · have other : slot v j ≠ slot t i := fun same =>
        here (h.tables.tree q p j i v t hq hp before ht same)
      have kept : (s.setWord (slot t i) w).mem (slot v j) = s.mem (slot v j) :=
        update_of_ne other _ _
      rw [kept]
      exact g.entries q j v hq before
  upper := by
    intro j above hj
    rw [← g.upper j above hj]
    exact update_of_ne (h.slot_apart hp low ht above hj) w s.mem

theorem Guarded.insertMapping (g : Guarded template s) (h : Space s m T D)
    {va pa mappingFlags : BitVec 64} (user : va.toNat < 2 ^ 47)
    (present : mappingFlags &&& mappingPresent ≠ 0) (allow : mappingFlags &&& mappingUser ≠ 0)
    (run : (insertMapping va pa mappingFlags).run s = .ok ((), s'))
    (apart : Apart s'.pageAllocations) : Guarded template s' := by
  have whole := (userAddress_of_lt user).entryPath
  have low : va.toNat / 2 ^ 39 % 512 < 256 := by omega
  unfold Vma.insertMapping at run
  rw [vaTableIndicies_eq, bind_ok (run_get_eq s)] at run
  unfold path at whole
  generalize va.toNat / 2 ^ 39 % 512 = i at run whole low
  generalize va.toNat / 2 ^ 30 % 512 = j at run whole
  generalize va.toNat / 2 ^ 21 % 512 = k at run whole
  generalize va.toNat / 2 ^ 12 % 512 = l at run whole
  have first : ∀ (r : List Nat) (x : Nat), (i :: r).head? = some x → x < 256 := by
    rintro r x ⟨⟩
    exact low
  obtain ⟨t₁, s₁, run₁, run⟩ := of_bind_ok run
  obtain ⟨t₂, s₂, run₂, run⟩ := of_bind_ok run
  obtain ⟨t₃, s₃, run₃, run⟩ := of_bind_ok run
  rw [insertEntry_run] at run
  cases run
  have apart₃ : Apart s₃.pageAllocations := apart
  have apart₂ := apart₃.of_prefix (insertTable_extends _ _ _ _ run₃).blocks
  have apart₁ := apart₂.of_prefix (insertTable_extends _ _ _ _ run₂).blocks
  have hp₁ : EntryPath ([] ++ [i]) := EntryPath.closed [i] [j, k, l] whole
  have hp₂ : EntryPath ([i] ++ [j]) := EntryPath.closed [i, j] [k, l] whole
  have hp₃ : EntryPath ([i, j] ++ [k]) := EntryPath.closed [i, j, k] [l] whole
  obtain ⟨at₁, T₁, _, space₁, _⟩ := h.insertTable hp₁ (by decide) rfl run₁ apart₁
  have g₁ := g.insertTable h hp₁ (first []) (by decide) rfl run₁
  have two : [i].length < 3 := Nat.lt_add_of_pos_right Nat.two_pos
  obtain ⟨at₂, T₂, _, space₂, _⟩ := space₁.insertTable hp₂ two at₁ run₂ apart₂
  have g₂ := g₁.insertTable space₁ hp₂ (first [j]) two at₁ run₂
  have three : [i, j].length < 3 := Nat.lt_succ_self 2
  obtain ⟨at₃, T₃, _, space₃, _⟩ := space₂.insertTable hp₃ three at₂ run₃ apart₃
  have g₃ := g₂.insertTable space₂ hp₃ (first [j, k]) three at₂ run₃
  have old : UserEntry (s₃.mem (slot t₃ l)) := g₃.entries [i, j, k] l t₃ whole at₃
  exact g₃.writeLeaf (p := [i, j, k]) space₃ whole (first [j, k, l]) rfl at₃
    (old.leafEntry present allow)

theorem Guarded.mapPages (g : Guarded template s) (h : Space s m T D) {n F : Nat}
    {va : BitVec 64} (user : va.toNat / 4096 + n ≤ 2 ^ 35)
    (run : (mapPages n va (pgdToPa F)).run s = .ok ((), s')) (apart : Apart s'.pageAllocations) :
    Guarded template s' := by
  induction n generalizing s m T F va with
  | zero =>
      cases run
      exact g
  | succ n ih =>
      unfold Vma.mapPages at run
      obtain ⟨_, s₁, run₁, run⟩ := of_bind_ok run
      have low : va.toNat < 2 ^ 47 := by omega
      have apart₁ := apart.of_prefix (mapPages_extends _ _ _ _ _ _ run).blocks
      obtain ⟨T₁, _, space₁, _⟩ :=
        h.insertMapping (userAddress_of_lt low) (by decide) run₁ apart₁
      have g₁ := g.insertMapping h low (by decide) (by decide) run₁ apart₁
      rw [pgdToPa_succ] at run
      have next := next_page (by omega : va.toNat / 4096 + 1 < 2 ^ 52)
      exact ih g₁ space₁ (by omega) run

theorem Guarded.of_writes (g : Guarded template s) (h : Space s m T D) (writes : Writes P s s')
    (out : ∀ f, T f → ¬ P f) (phys : s'.pgtPhysBase = s.pgtPhysBase)
    (root : s'.pgtVirtBase = s.pgtVirtBase) : Guarded template s' where
  shown := by rw [root, phys, g.shown]
  entries := by
    intro q j v hq hv
    have same := fun q j u hq hu => h.same writes out (q := q) (j := j) (u := u) hq hu
    rw [root, RadixTree.descend_frame EntryPath.closed same (EntryPath.closed q [j] hq)] at hv
    rw [same q j v hq hv]
    exact g.entries q j v hq hv
  upper j above hj := by
    obtain ⟨r, mine, there⟩ := h.reached [] 0 s.pgtVirtBase entryPath_first rfl
    rw [root, ← g.upper j above hj, there]
    exact writes.page (out r mine) (inPage_slot hj)

theorem allocatePhys_phys {order : Nat} {r : Option Nat}
    (run : (allocatePhys order).run s = .ok (r, s')) : s'.pgtPhysBase = s.pgtPhysBase := by
  cases frames : s.frames with
  | nil =>
      rw [allocatePhys_empty frames] at run
      cases run
      rfl
  | cons f rest =>
      unfold Vma.allocatePhys at run
      rw [bind_ok (allocPages_cons frames order)] at run
      dsimp only at run
      rw [bind_ok (run_modify_eq _ _)] at run
      obtain ⟨base, s₁, run₁, run⟩ := of_bind_ok run
      obtain ⟨rfl, rfl⟩ := paToVpa_ok run₁
      unfold pnzero at run
      rw [bind_ok (run_modify_eq _ _)] at run
      cases run
      rfl

theorem Guarded.allocatePhys (g : Guarded template s) (h : Space s m T D) {order : Nat}
    {r : Option Nat} (run : (allocatePhys order).run s = .ok (r, s'))
    (apart : Apart s'.pageAllocations) : Guarded template s' := by
  have phys := allocatePhys_phys run
  cases r with
  | none =>
      rw [allocatePhys_empty (allocatePhys_none run)] at run
      cases run
      exact g
  | some f =>
      have new := allocatePhys_some run apart
      exact g.of_writes h new.writes (fun f table own => new.fresh apart own (h.heldTables f table))
        phys new.root

theorem Guarded.allocateVirt (g : Guarded template s) (h : Space s m T D) {va : BitVec 64}
    {nrPages : Int} {r : Bool}
    (user : va.toNat / 4096 + 2 ^ log2ceil (toUInt64 nrPages) ≤ 2 ^ 35)
    (run : (allocateVirt va nrPages).run s = .ok (r, s')) (apart : Apart s'.pageAllocations) :
    Guarded template s' := by
  unfold Vma.allocateVirt at run
  by_cases zero : nrPages = 0
  · rw [if_pos zero] at run
    cases run
    exact g
  · rw [if_neg zero] at run
    dsimp only at run
    generalize log2ceil (toUInt64 nrPages) = order at run user
    obtain ⟨answer, s₁, run₁, run⟩ := of_bind_ok run
    cases answer with
    | none =>
        cases run
        exact g.allocatePhys h run₁ apart
    | some F =>
        obtain ⟨_, s₂, run₂, run⟩ := of_bind_ok run
        cases run
        have apart₁ := apart.of_prefix (mapPages_extends _ _ _ _ _ _ run₂).blocks
        have space₁ := h.allocate (allocatePhys_some run₁ apart₁) apart₁
        rw [Nat.one_shiftLeft] at run₂
        exact (g.allocatePhys h run₁ apart₁).mapPages space₁ user run₂ apart

theorem created_other {f : Nat} {rest : List Nat} (lt : i < 512) (kernel : i ≠ 0x1ff)
    (direct : i ≠ 0x100) : (created s f rest template).mem (slot (tableAt f) i) = 0 := by
  change update (update (zeroed s.mem f) _ _) _ _ _ = _
  rw [update_of_ne, update_of_ne, zeroed_self lt]
  · exact fun e => kernel (slot_inj lt (by decide) e).2
  · exact fun e => direct (slot_inj lt (by decide) e).2

theorem create_guarded (fresh : FreshFrames s.frames)
    (run : (create (some template)).run s = .ok ((), s')) (apart : Apart s'.pageAllocations) :
    Guarded template s' := by
  obtain ⟨f, frames, _, _⟩ := create_writes run apart
  generalize s'.frames = rest at frames
  have small : f < 2 ^ 20 := (fresh.2 f (frames ▸ List.mem_cons_self)).2
  rw [create_run template frames small] at run
  cases run
  have zero : ∀ i, EntryPath [i] →
      (created s f rest template).mem (slot (tableAt f) i) = 0 := by
    intro i hi
    obtain ⟨direct, kernel⟩ := hi.2.2 i rfl
    exact created_other (EntryPath.last_lt (p := []) hi) kernel direct
  constructor
  case shown =>
    change tableAt f = pmemVaStart + (pgdToPa f).toNat
    rw [toNat_pgdToPa small, tableAt]
  case entries =>
    intro p i t hp ht
    change descend slot child _ (tableAt f) p = some t at ht
    cases p with
    | nil =>
        cases ht
        exact .inl (zero i hp)
    | cons j r =>
        rw [descend, zero j (EntryPath.closed [j] (r ++ [i]) hp), child_zero] at ht
        cases ht
  case upper =>
    intro i above lt
    change (created s f rest template).mem (slot (tableAt f) i) = _
    unfold upperEntry
    split_ifs with kernel direct
    · rw [kernel, created_kernel]
    · rw [direct, created_direct]
    · exact created_other lt kernel direct

end Guarded

/-! ### Where the walks lead -/

/-- Every entry on the way of `va` lets user mode through. -/
def Passable (s : State) (va : BitVec 64) : Nat → Nat → Prop
  | 0, table =>
      let entry := entryOf s va 0 table
      UserEntry entry ∧ (baseAddress entry).toNat < 2 ^ 52
  | level + 1, table =>
      let entry := entryOf s va (level + 1) table
      UserEntry entry ∧ (entry = 0 ∨ (baseAddress entry).toNat < pmemVaSize ∧
        Passable s va level (baseAddress entry).toNat)

section Walks
variable {s : State} {va entry : BitVec 64} {level table F : Nat} {template : Nat → BitVec 64}
  {m : List Nat → Option (BitVec 64)} {T D : Nat → Prop}

theorem user_bit (entry : BitVec 64) : entry.getLsbD 2 = getFlag entry .allowUser :=
  (getFlag_eq entry .allowUser).symm

theorem UserEntry.bits (h : UserEntry entry) : entry = 0 ∨
    entry.getLsbD 0 = true ∧ entry.getLsbD 2 = true ∧ entry.getLsbD 7 = false := by
  rw [present_bit, user_bit, huge_bit]
  exact h

theorem clear_bit (i : Nat) : ¬ (0 : BitVec 64).getLsbD i = true := by
  rw [show (0 : BitVec 64).getLsbD i = false from BitVec.getLsbD_zero]
  exact Bool.false_ne_true

theorem Passable.walk (h : Passable s va level table) :
    userWalkFrom s va level table = walkFrom s va level table ∧ Plain s va level table := by
  induction level generalizing table with
  | zero =>
      obtain ⟨entry, small⟩ := h
      unfold userWalkFrom walkFrom Plain
      dsimp only
      refine ⟨?_, fun _ => small⟩
      rcases entry.bits with none | ⟨present, user, _⟩
      · rw [none, if_neg fun both => clear_bit 0 both.1, if_neg (clear_bit 0)]
      · rw [if_pos ⟨present, user⟩, if_pos present]
  | succ level ih =>
      obtain ⟨entry, next⟩ := h
      unfold userWalkFrom walkFrom Plain
      dsimp only
      rcases entry.bits with none | ⟨present, user, plain⟩
      · rw [none, if_neg fun both => clear_bit 0 both.1, if_neg (clear_bit 0), getFlag_zero]
        exact ⟨rfl, fun present => absurd present Bool.false_ne_true⟩
      · have there : entryOf s va (level + 1) table ≠ 0 := by
          intro none
          rw [none] at present
          exact clear_bit 0 present
        obtain ⟨small, below⟩ := next.resolve_left there
        obtain ⟨same, rest⟩ := ih below
        have field : (baseAddress (entryOf s va (level + 1) table)).toNat < 2 ^ 52 := by
          rw [pmemVaSize] at small
          omega
        have notHuge : ¬ (getFlag (entryOf s va (level + 1) table) .huge = true ∧
            level + 1 < 3) := by
          rintro ⟨huge, _⟩
          rw [← huge_bit, plain] at huge
          cases huge
        rw [if_pos ⟨present, user⟩, if_pos present, huge_bit, if_neg notHuge, if_neg notHuge,
          if_neg notHuge, addressField_eq field]
        exact ⟨same, fun _ => ⟨small, rest⟩⟩

/-- The index of `va` at a level. -/
def index (va : BitVec 64) (level : Nat) : Nat := va.toNat / 2 ^ levelBits level % 512

theorem Guarded.passable_succ (g : Guarded template s) (h : Space s m T D) {p : List Nat}
    (hp : EntryPath (p ++ [index va (level + 1)])) (len : p.length < 3)
    (ht : descend slot child s.mem s.pgtVirtBase p = some (pmemVaStart + table))
    (below : ∀ table', descend slot child s.mem s.pgtVirtBase (p ++ [index va (level + 1)]) =
      some (pmemVaStart + table') → Passable s va level table') :
    Passable s va (level + 1) table := by
  refine ⟨g.entries p _ _ hp ht, ?_⟩
  have word : Interior (entryOf s va (level + 1) table) := h.tables.interior p _ _ hp len ht
  rcases word with none | ⟨_, base, small⟩
  · exact .inl none
  · refine .inr ⟨small, below _ ?_⟩
    rw [descend_snoc ht, child]
    exact if_neg base

theorem Guarded.passable_leaf (g : Guarded template s) (h : Space s m T D)
    (data : ShowsOnly D m) (apart : Apart s.pageAllocations) {p : List Nat}
    (hp : EntryPath (p ++ [index va 0])) (len : p.length = 3)
    (ht : descend slot child s.mem s.pgtVirtBase p = some (pmemVaStart + table)) :
    Passable s va 0 table := by
  have user : UserEntry (entryOf s va 0 table) := g.entries p _ _ hp ht
  refine ⟨user, ?_⟩
  rcases user with none | ⟨present, _⟩
  · rw [none, baseAddress_zero]
    decide
  · have leaf := h.tables.leaves p _ hp len
    have word : leafBase (s.mem (slot (pmemVaStart + table) (index va 0))) =
        some (baseAddress (entryOf s va 0 table)) := if_pos present
    rw [ht, Option.bind_some, word] at leaf
    obtain ⟨f, mine, base⟩ := data _ _ leaf
    obtain ⟨b, mem, _, high⟩ := h.heldData f mine
    have inside := (apart.inside b mem).2
    have small : f < 2 ^ 20 := by omega
    rw [base, toNat_pgdToPa small]
    omega

theorem Guarded.passable (g : Guarded template s) (h : Space s m T D) (data : ShowsOnly D m)
    (apart : Apart s.pageAllocations) (user : va.toNat < 2 ^ 47) :
    Passable s va 3 s.pgtPhysBase.toNat := by
  have whole : EntryPath [index va 3, index va 2, index va 1, index va 0] :=
    (userAddress_of_lt user).entryPath
  have two : [index va 3].length < 3 := Nat.lt_add_of_pos_right Nat.two_pos
  have three : [index va 3, index va 2].length < 3 := Nat.lt_succ_self 2
  refine g.passable_succ h (p := []) (EntryPath.closed [_] [_, _, _] whole) (by decide)
    (congrArg some g.shown) fun _ at₃ => ?_
  refine g.passable_succ h (EntryPath.closed [_, _] [_, _] whole) two at₃ fun _ at₂ => ?_
  refine g.passable_succ h (EntryPath.closed [_, _, _] [_] whole) three at₂ fun _ at₁ => ?_
  exact g.passable_leaf h data apart whole rfl at₁

theorem Guarded.rooted (g : Guarded template s) (h : Space s m T D)
    (apart : Apart s.pageAllocations) : Rooted s := by
  obtain ⟨r, mine, root⟩ := h.reached [] 0 s.pgtVirtBase entryPath_first rfl
  obtain ⟨b, mem, _, high⟩ := h.heldTables r mine
  have inside := (apart.inside b mem).2
  have shown := g.shown
  rw [root, tableAt] at shown
  refine ⟨g.shown, ?_, ?_⟩
  · omega
  · rw [pmemVaSize]
    omega

theorem Guarded.upper_denied (g : Guarded template s) (rooted : Rooted s)
    (kernel : getFlag (template 0x1ff) .allowUser = false)
    (direct : getFlag (template 0x100) .allowUser = false) (upper : 2 ^ 64 - 2 ^ 47 ≤ va.toNat) :
    userWalkFrom s va 3 (addressField 12 s.pgtPhysBase) = none := by
  have bound := va.isLt
  have above : 256 ≤ index va 3 := by
    rw [index, levelBits]
    omega
  have word : entryOf s va 3 s.pgtPhysBase.toNat = upperEntry template (index va 3) := by
    rw [← g.upper (index va 3) above (Nat.mod_lt _ (by decide)), g.shown]
    rfl
  rw [rooted.addressField]
  unfold userWalkFrom
  dsimp only
  rw [word]
  refine if_neg ?_
  rw [user_bit]
  unfold upperEntry
  rintro ⟨present, user⟩
  split_ifs at present user
  · rw [kernel] at user
    cases user
  · rw [direct] at user
    cases user
  · exact clear_bit 0 present

/-- User mode reaches what `get_mapping` shows in the user half, and nothing else. -/
theorem Guarded.userWalk_iff (g : Guarded template s) (h : Space s m T D)
    (data : ShowsOnly D m) (apart : Apart s.pageAllocations)
    (kernel : getFlag (template 0x1ff) .allowUser = false)
    (direct : getFlag (template 0x100) .allowUser = false) {x : Nat} :
    userWalk s va = some x ↔ va.toNat < 2 ^ 47 ∧ ∃ pa, Shows s va pa ∧ pa.toNat = x := by
  have rooted := g.rooted h apart
  unfold userWalk
  split_ifs with canonical
  · rcases canonical with low | upper
    · obtain ⟨same, plain⟩ := (g.passable h data apart low).walk
      obtain ⟨r, run, found⟩ := (agrees_iff_plain rooted va).mpr plain
      rw [rooted.addressField, same, ← rooted.addressField]
      change processorWalk s va = some x ↔ _
      rw [← found, and_iff_right low]
      constructor
      · intro here
        obtain ⟨pa, rfl, value⟩ := Option.map_eq_some_iff.mp here
        exact ⟨pa, run, value⟩
      · rintro ⟨pa, shows, rfl⟩
        cases shows.symm.trans run
        rfl
    · rw [g.upper_denied rooted kernel direct upper]
      refine ⟨fun reached => absurd reached.symm (Option.some_ne_none x), ?_⟩
      rintro ⟨low, _⟩
      omega
  · refine ⟨False.elim, ?_⟩
    rintro ⟨low, _⟩
    exact absurd (.inl low) canonical

end Walks

/-! ### The kernel's half -/

section Kernel
variable {s : State} {va : BitVec 64} {F x j : Nat}

theorem put_other {words : PageWords} {k i k' i' : Nat} {w : BitVec 64} (ne : k' = k → i' ≠ i) :
    put words k i w k' i' = words k' i' := if_neg fun here => ne here.1 here.2

theorem builtWords_pdp0 (below : j < 0x1fe) : builtWords F 1 j = 0 := by
  unfold builtWords
  rw [fill_other (by decide), fill_other (by decide), fill_other (by decide),
    fill_other (by decide), fill_other (by decide), fill_other (by decide),
    put_other (by omega), put_other (by omega), put_other (by omega), put_other (by omega),
    put_other (by omega), put_other (by omega), put_other (by omega), put_other (by omega)]

theorem builtWords_pdp1 (above : 4 ≤ j) : builtWords F 2 j = 0 := by
  unfold builtWords
  rw [fill_other (by decide), fill_other (by decide), fill_other (by decide),
    fill_other (by decide), fill_other (by decide), fill_other (by decide),
    put_other (by omega), put_other (by omega), put_other (by omega), put_other (by omega),
    put_other (by omega), put_other (by omega), put_other (by omega), put_other (by omega)]

theorem linkEntry_denies (f : Nat) : getFlag (linkEntry f) .allowUser = false := by
  rw [linkEntry_eq, getFlag_or]
  rfl

theorem Guarded.kernelHalf (g : Guarded (builtWords F 0) s)
    (rooted : Rooted s) (holds : Holds s.mem F (builtWords F)) (inside : F + 16 ≤ 2 ^ 20) :
    KernelHalf s F := by
  have tables := kernelTables_of_holds holds
  have root : ∀ i, entryAt s s.pgtPhysBase.toNat i = s.mem (slot s.pgtVirtBase i) := by
    intro i
    rw [g.shown]
    rfl
  constructor
  case rooted => exact rooted
  case kernel => exact (root 0x1ff).trans (g.upper 0x1ff (by decide) (by decide))
  case direct => exact (root 0x100).trans (g.upper 0x100 (by decide) (by decide))
  case tables => exact tables
  case inside => exact inside

theorem walkFrom_stops {f : Nat} (top : entryOf s va 3 s.pgtPhysBase.toNat = linkEntry f)
    (small : f < 2 ^ 20) (none : entryOf s va 2 (4096 * f) = 0) :
    walkFrom s va 3 s.pgtPhysBase.toNat = Option.none := by
  rw [walkFrom_link top small]
  unfold walkFrom
  dsimp only
  rw [none]
  exact if_neg (clear_bit 0)

/-- The upper half shows the direct map and the kernel, in each area alike, and nothing else. -/
theorem Guarded.walk_upper_iff (g : Guarded (builtWords F 0) s)
    (rooted : Rooted s) (holds : Holds s.mem F (builtWords F)) (inside : F + 16 ≤ 2 ^ 20)
    (upper : 2 ^ 64 - 2 ^ 47 ≤ va.toNat) :
    processorWalk s va = some x ↔ x < 2 ^ 32 ∧ va.toNat = pmemVaStart + x ∨
      x < 2 ^ 31 ∧ va.toNat = kernelVmemStart + x := by
  have half := g.kernelHalf rooted holds inside
  have bound := va.isLt
  have value : ∀ y, va.toNat = y → va = BitVec.ofNat 64 y := by
    rintro y rfl
    exact (BitVec.ofNat_toNat ..).trans (BitVec.setWidth_eq va) |>.symm
  constructor
  · intro walk
    have top : entryOf s va 3 s.pgtPhysBase.toNat = upperEntry (builtWords F 0) (index va 3) := by
      rw [← g.upper (index va 3) (by rw [index, levelBits]; omega) (Nat.mod_lt _ (by decide)),
        g.shown]
      rfl
    rw [processorWalk, rooted.addressField] at walk
    by_cases kernel : index va 3 = 0x1ff
    · have first : entryOf s va 3 s.pgtPhysBase.toNat = linkEntry (F + 1) := by
        rw [top, kernel]
        rfl
      rw [index, levelBits] at kernel
      by_cases inWindow : kernelVmemStart ≤ va.toNat
      · rw [kernelVmemStart] at inWindow
        have there := half.walk_kernel (x := va.toNat - kernelVmemStart)
          (by rw [kernelVmemStart]; omega)
        rw [← value _ (by rw [kernelVmemStart]; omega), processorWalk, rooted.addressField,
          walk] at there
        have place := Option.some.inj there
        rw [kernelVmemStart] at place ⊢
        exact .inr ⟨by omega, by omega⟩
      · rw [kernelVmemStart] at inWindow
        rw [walkFrom_stops first (by omega)] at walk
        · cases walk
        · have below : va.toNat / 2 ^ 30 % 512 < 0x1fe := by omega
          have entry : entryAt s (4096 * (F + 1)) (va.toNat / 2 ^ 30 % 512) = 0 :=
            (holds 1 (by decide) _ (by omega)).trans (builtWords_pdp0 below)
          exact entry
    · by_cases direct : index va 3 = 0x100
      · have first : entryOf s va 3 s.pgtPhysBase.toNat = linkEntry (F + 2) := by
          rw [top, direct]
          rfl
        rw [index, levelBits] at direct
        by_cases inWindow : va.toNat < pmemVaStart + 2 ^ 32
        · rw [pmemVaStart] at inWindow
          have there := half.walk (x := va.toNat - pmemVaStart) (by rw [pmemVaStart]; omega)
          rw [directMapped, ← value _ (by rw [pmemVaStart]; omega), processorWalk,
            rooted.addressField, walk] at there
          have place := Option.some.inj there
          rw [pmemVaStart] at place ⊢
          exact .inl ⟨by omega, by omega⟩
        · rw [pmemVaStart] at inWindow
          rw [walkFrom_stops first (by omega)] at walk
          · cases walk
          · have above : 4 ≤ va.toNat / 2 ^ 30 % 512 := by omega
            have entry : entryAt s (4096 * (F + 2)) (va.toNat / 2 ^ 30 % 512) = 0 :=
              (holds 2 (by decide) _ (by omega)).trans (builtWords_pdp1 above)
            exact entry
      · rw [upperEntry, if_neg kernel, if_neg direct] at top
        unfold walkFrom at walk
        dsimp only at walk
        rw [top, if_neg (clear_bit 0)] at walk
        cases walk
  · rintro (⟨small, place⟩ | ⟨small, place⟩)
    · rw [value _ place]
      exact half.walk small
    · rw [value _ place]
      exact half.walk_kernel small

end Kernel
end Infos.Mm.Vma
