import Infos.Mm.VmaBlocks

/-!
# The address spaces that the operations lead to

Mappings are inserted one at a time, blocks are taken from the page allocator, and memory
outside the tables changes as it likes.
-/
namespace Infos.Mm.Vma
open Infos.Lib Function

/-- A table of the user half lies in page frame `f`. -/
def TableFrame (s : State) (f : Nat) : Prop :=
  ∃ p i, EntryPath (p ++ [i]) ∧ descend slot child s.mem s.pgtVirtBase p = some (tableAt f)

/-- The address of a page that was handed out and is no table. -/
def DataPage (s : State) (base : BitVec 64) : Prop :=
  ∃ f, Held s f ∧ ¬ TableFrame s f ∧ base = pgdToPa f

/-- The states of an area whose insertions map only pages that are `allowed`; the page allocator
keeps its promise throughout. -/
inductive Reached (allowed : State → BitVec 64 → Prop) : State → Prop
  | create {s s' : State} (template : Option (Nat → BitVec 64)) (fresh : FreshFrames s.frames)
      (none : s.pageAllocations = []) (run : (create template).run s = .ok ((), s'))
      (apart : Apart s'.pageAllocations) : Reached allowed s'
  | allocatePhys {s s' : State} {order : Nat} {r : Option Nat} (before : Reached allowed s)
      (run : (allocatePhys order).run s = .ok (r, s')) (apart : Apart s'.pageAllocations) :
      Reached allowed s'
  | insertMapping {s s' : State} {va pa mappingFlags : BitVec 64} (before : Reached allowed s)
      (user : UserAddress va) (page : allowed s (baseAddress pa))
      (run : (insertMapping va pa mappingFlags).run s = .ok ((), s'))
      (apart : Apart s'.pageAllocations) : Reached allowed s'
  | store {s s' : State} {P : Nat → Prop} (before : Reached allowed s) (new : Updates P s s')
      (outside : ∀ f, TableFrame s f → ¬ P f) : Reached allowed s'

section Space
variable {s s' : State} {m : List Nat → Option (BitVec 64)} {T D : Nat → Prop}

theorem tableAt_inj {f g : Nat} (h : tableAt f = tableAt g) : f = g := by
  unfold tableAt at h
  omega

theorem Space.tableFrame (h : Space s m T D) {f : Nat} (table : TableFrame s f) : T f := by
  obtain ⟨p, i, hp, ht⟩ := table
  obtain ⟨g, hg, same⟩ := h.reached p i _ hp ht
  rw [tableAt_inj same]
  exact hg

theorem Space.tight (h : Space s m T D) : Space s m (TableFrame s) D where
  tables := h.tables
  reached p i t hp ht := by
    obtain ⟨f, _, rfl⟩ := h.reached p i t hp ht
    exact ⟨f, ⟨p, i, hp, ht⟩, rfl⟩
  heldTables f hf := h.heldTables f (h.tableFrame hf)
  heldData := h.heldData
  apart f hf data := h.apart f (h.tableFrame hf) data

/-- A page that was handed out and is no table can be counted as data. -/
theorem Space.widen (h : Space s m T D) {f : Nat} (held : Held s f) (other : ¬ T f) :
    Space s m T fun g => D g ∨ g = f where
  tables := h.tables
  reached := h.reached
  heldTables := h.heldTables
  heldData := by
    rintro g (data | rfl)
    · exact h.heldData g data
    · exact held
  apart := by
    rintro g table (data | rfl)
    · exact h.apart g table data
    · exact other table

@[simp] theorem baseAddress_leafEntry (pa mappingFlags old : BitVec 64) :
    baseAddress (leafEntry pa mappingFlags old) = baseAddress pa := by
  unfold leafEntry
  dsimp only
  split_ifs <;> simp

end Space

section Reached
variable {s s' : State} {m : List Nat → Option (BitVec 64)} {T D : Nat → Prop}
  {allowed : State → BitVec 64 → Prop}

theorem Reached.apart (h : Reached allowed s) : Apart s.pageAllocations := by
  induction h with
  | create template fresh none run apart => exact apart
  | allocatePhys _ run apart _ => exact apart
  | insertMapping _ user page run apart _ => exact apart
  | store _ new outside ih =>
      rw [new.blocks]
      exact ih

theorem Reached.space (h : Reached allowed s) :
    ∃ m, Space s m (TableFrame s) fun _ => False := by
  induction h with
  | create template fresh none run apart =>
      obtain ⟨T, space, _⟩ := create_space fresh none run apart
      exact ⟨_, space.tight⟩
  | @allocatePhys s s' order r _ run apart ih =>
      obtain ⟨m, space⟩ := ih
      cases r with
      | none =>
          rw [allocatePhys_empty (allocatePhys_none run)] at run
          cases run
          exact ⟨m, space⟩
      | some f =>
          have larger := (space.allocate (allocatePhys_some run apart) apart).tight
          exact ⟨m, { larger with heldData := nofun, apart := fun _ _ data => data }⟩
  | insertMapping _ user page run apart ih =>
      obtain ⟨m, space⟩ := ih
      obtain ⟨T', old, _, space', _⟩ := space.insertMapping_flags user run apart
      exact ⟨_, space'.tight⟩
  | store _ new outside ih =>
      obtain ⟨m, space⟩ := ih
      exact ⟨m, (space.updated new outside).tight⟩

theorem Reached.shows_data (h : Reached DataPage s) :
    ∃ m D, Space s m (TableFrame s) D ∧
      ∀ p base, m p = some base → ∃ f, D f ∧ base = pgdToPa f := by
  induction h with
  | create template fresh none run apart =>
      obtain ⟨T, space, _⟩ := create_space fresh none run apart
      exact ⟨_, _, space.tight, nofun⟩
  | @allocatePhys s s' order r _ run apart ih =>
      obtain ⟨m, D, space, data⟩ := ih
      cases r with
      | none =>
          rw [allocatePhys_empty (allocatePhys_none run)] at run
          cases run
          exact ⟨m, D, space, data⟩
      | some f =>
          refine ⟨m, _, (space.allocate (allocatePhys_some run apart) apart).tight, ?_⟩
          intro p base shown
          obtain ⟨g, hg, rfl⟩ := data p base shown
          exact ⟨g, .inl hg, rfl⟩
  | @insertMapping s s' va pa mappingFlags _ user page run apart ih =>
      obtain ⟨m, D, space, data⟩ := ih
      obtain ⟨f, held, other, base⟩ := page
      obtain ⟨T', old, _, space', _⟩ :=
        (space.widen held other).insertMapping_flags user run apart
      refine ⟨_, _, space'.tight, ?_⟩
      intro p base' shown
      by_cases here : p = path va
      · rw [here, update_self, leafBase] at shown
        split_ifs at shown
        cases shown
        rw [baseAddress_leafEntry]
        exact ⟨f, .inr rfl, base⟩
      · rw [update_of_ne here] at shown
        obtain ⟨g, hg, rfl⟩ := data p base' shown
        exact ⟨g, .inl hg, rfl⟩
  | store _ new outside ih =>
      obtain ⟨m, D, space, data⟩ := ih
      exact ⟨m, D, (space.updated new outside).tight, data⟩

theorem Reached.mapPages (h : Reached allowed s) (space : Space s m T D) {n F : Nat}
    {va : BitVec 64} (user : va.toNat / 4096 + n ≤ 2 ^ 35) (data : ∀ i < n, D (F + i))
    (pages : ∀ s base, DataPage s base → allowed s base)
    (run : (mapPages n va (pgdToPa F)).run s = .ok ((), s')) (apart : Apart s'.pageAllocations) :
    Reached allowed s' := by
  induction n generalizing s m T F va with
  | zero =>
      cases run
      exact h
  | succ n ih =>
      unfold Vma.mapPages at run
      obtain ⟨_, s₁, run₁, run⟩ := of_bind_ok run
      have user₁ : UserAddress va := userAddress_of_lt (by omega)
      have apart₁ := apart.of_prefix (mapPages_extends _ _ _ _ _ _ run).blocks
      have first : D F := data 0 (Nat.succ_pos n)
      have page : DataPage s (baseAddress (pgdToPa F)) := by
        rw [baseAddress_pgdToPa]
        exact ⟨F, space.heldData F first, fun table => space.apart F (space.tableFrame table) first,
          rfl⟩
      have next := next_page (by omega : va.toNat / 4096 + 1 < 2 ^ 52)
      obtain ⟨T₁, _, space₁, _⟩ := space.insertMapping user₁ (by decide) run₁ apart₁
      rw [pgdToPa_succ] at run
      refine ih (h.insertMapping user₁ (pages s _ page) run₁ apart₁) space₁ (by omega) ?_ run
      intro i lt
      rw [Nat.add_right_comm, Nat.add_assoc]
      exact data (i + 1) (by omega)

theorem Reached.allocateVirt (h : Reached allowed s) {va : BitVec 64} {nrPages : Int} {r : Bool}
    (user : va.toNat / 4096 + 2 ^ log2ceil (toUInt64 nrPages) ≤ 2 ^ 35)
    (pages : ∀ s base, DataPage s base → allowed s base)
    (run : (allocateVirt va nrPages).run s = .ok (r, s')) (apart : Apart s'.pageAllocations) :
    Reached allowed s' := by
  unfold Vma.allocateVirt at run
  by_cases zero : nrPages = 0
  · rw [if_pos zero] at run
    cases run
    exact h
  · rw [if_neg zero] at run
    dsimp only at run
    generalize log2ceil (toUInt64 nrPages) = order at run user
    obtain ⟨answer, s₁, run₁, run⟩ := of_bind_ok run
    cases answer with
    | none =>
        cases run
        exact h.allocatePhys run₁ apart
    | some F =>
        obtain ⟨_, s₂, run₂, run⟩ := of_bind_ok run
        cases run
        have apart₁ := apart.of_prefix (mapPages_extends _ _ _ _ _ _ run₂).blocks
        obtain ⟨m, space⟩ := h.space
        have space₁ := space.allocate (allocatePhys_some run₁ apart₁) apart₁
        rw [Nat.one_shiftLeft] at run₂
        refine (h.allocatePhys run₁ apart₁).mapPages space₁ user ?_ pages run₂ apart
        intro i lt
        exact .inr ⟨Nat.le_add_right F i, Nat.add_lt_add_left lt F⟩

end Reached
end Infos.Mm.Vma
