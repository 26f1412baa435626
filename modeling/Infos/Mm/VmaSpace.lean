import Infos.Lib.Triple
import Infos.Mm.VmaRuns
import Mathlib.Order.Defs.Unbundled

/-!
# Address spaces in memory

Page tables and data live in the same memory. What keeps them apart is the page
allocator: the blocks it hands out are disjoint, so a page is a table or data
and never both.
-/
namespace Infos.Mm.Vma
open Infos.Lib Function

/-! ### Blocks -/

/-- Page frame `f` belongs to the allocation. -/
def PageAllocation.Has (a : PageAllocation) (f : Nat) : Prop :=
  a.descriptorBase ≤ f ∧ f < a.descriptorBase + 2 ^ a.allocationOrder

/-- What the page allocator promises of the blocks it handed out. -/
structure Apart (blocks : List PageAllocation) : Prop where
  disjoint : blocks.Pairwise fun a b =>
    a.descriptorBase + 2 ^ a.allocationOrder ≤ b.descriptorBase ∨
      b.descriptorBase + 2 ^ b.allocationOrder ≤ a.descriptorBase
  inside : ∀ a ∈ blocks, 0 < a.descriptorBase ∧ a.descriptorBase + 2 ^ a.allocationOrder ≤ 2 ^ 20

instance (blocks : List PageAllocation) : Decidable (Apart blocks) :=
  decidable_of_iff
    ((blocks.Pairwise fun a b => a.descriptorBase + 2 ^ a.allocationOrder ≤ b.descriptorBase ∨
        b.descriptorBase + 2 ^ b.allocationOrder ≤ a.descriptorBase) ∧
      ∀ a ∈ blocks, 0 < a.descriptorBase ∧ a.descriptorBase + 2 ^ a.allocationOrder ≤ 2 ^ 20)
    ⟨fun h => ⟨h.1, h.2⟩, fun h => ⟨h.disjoint, h.inside⟩⟩

theorem Apart.fresh {blocks : List PageAllocation} {b : PageAllocation} (h : Apart (blocks ++ [b]))
    {f : Nat} (hf : b.Has f) : ¬ ∃ a ∈ blocks, a.Has f := by
  rintro ⟨a, ha, lo, hi⟩
  obtain ⟨lo', hi'⟩ := hf
  have := (List.pairwise_append.mp h.disjoint).2.2 a ha b (List.mem_singleton_self b)
  omega

def Held (s : State) (f : Nat) : Prop := ∃ a ∈ s.pageAllocations, a.Has f

/-- Address `a` lies in page frame `f` of the direct map. -/
def InPage (f a : Nat) : Prop := tableAt f ≤ a ∧ a < tableAt f + 4096

theorem InPage.unique {f g a : Nat} (hf : InPage f a) (hg : InPage g a) : f = g := by
  obtain ⟨lo, hi⟩ := hf
  obtain ⟨lo', hi'⟩ := hg
  rw [tableAt] at lo hi lo' hi'
  omega

theorem inPage_slot {f i : Nat} (hi : i < 512) : InPage f (slot (tableAt f) i) := by
  rw [InPage, slot]
  omega

/-- Memory changed only in the pages of the frames in `P`. -/
def Writes (P : Nat → Prop) (s s' : State) : Prop :=
  ∀ a, (∀ f, P f → ¬ InPage f a) → s'.mem a = s.mem a

section Writes
variable {P Q : Nat → Prop} {s s₁ s' : State}

theorem Writes.refl (P : Nat → Prop) (s : State) : Writes P s s := fun _ _ => rfl

theorem Writes.mono (h : Writes P s s') (sub : ∀ f, P f → Q f) : Writes Q s s' :=
  fun a out => h a fun f hf => out f (sub f hf)

theorem Writes.trans (h : Writes P s s₁) (h' : Writes P s₁ s') : Writes P s s' :=
  fun a out => (h' a out).trans (h a out)

theorem Writes.page (h : Writes P s s') {f a : Nat} (out : ¬ P f) (ha : InPage f a) :
    s'.mem a = s.mem a := by
  apply h a
  intro g hg hga
  exact out (hga.unique ha ▸ hg)

theorem Writes.setWord {f a : Nat} (hf : P f) (ha : InPage f a) (w : BitVec 64) :
    Writes P s (s.setWord a w) := by
  intro x out
  refine update_of_ne ?_ _ _
  rintro rfl
  exact out f hf ha

/-- Only memory changed, and only in the pages of the frames in `P`. -/
structure Updates (P : Nat → Prop) (s s' : State) : Prop where
  writes : Writes P s s'
  root : s'.pgtVirtBase = s.pgtVirtBase
  blocks : s'.pageAllocations = s.pageAllocations
  frames : s'.frames = s.frames

theorem Updates.refl (P : Nat → Prop) (s : State) : Updates P s s := ⟨.refl P s, rfl, rfl, rfl⟩

theorem Updates.trans (h : Updates P s s₁) (h' : Updates P s₁ s') : Updates P s s' where
  writes := h.writes.trans h'.writes
  root := h'.root.trans h.root
  blocks := h'.blocks.trans h.blocks
  frames := h'.frames.trans h.frames

theorem Updates.setWord {f a : Nat} (hf : P f) (ha : InPage f a) (w : BitVec 64) :
    Updates P s (s.setWord a w) := ⟨.setWord hf ha w, rfl, rfl, rfl⟩

end Writes

/-! ### What every operation leaves behind -/

/-- Allocations are only added, and answers of the page allocator only used up. -/
structure Extends (s s' : State) : Prop where
  blocks : s.pageAllocations <+: s'.pageAllocations
  frames : s'.frames <:+ s.frames

instance : Std.Refl Extends where
  refl _ := ⟨List.prefix_rfl, List.suffix_rfl⟩

instance : IsTrans State Extends where
  trans _ _ _ h h' := ⟨h.blocks.trans h'.blocks, h'.frames.trans h.frames⟩

/-- There is memory left, and the blocks handed out are as promised. -/
structure Supplied (s : State) : Prop where
  left : s.frames ≠ []
  apart : Apart s.pageAllocations

theorem Apart.of_prefix {blocks blocks' : List PageAllocation} (h : Apart blocks')
    (pre : blocks <+: blocks') : Apart blocks where
  disjoint := h.disjoint.sublist pre.sublist
  inside a ha := h.inside a (pre.subset ha)

theorem Supplied.of_extends {s s' : State} (h : Supplied s') (ext : Extends s s') : Supplied s where
  left := by
    intro none
    have used := ext.frames
    rw [none, List.suffix_nil] at used
    exact h.left used
  apart := h.apart.of_prefix ext.blocks

theorem Extends.held {s s' : State} (ext : Extends s s') {f : Nat} (h : Held s f) : Held s' f := by
  obtain ⟨a, ha, hf⟩ := h
  exact ⟨a, ext.blocks.subset ha, hf⟩

theorem Updates.held {P : Nat → Prop} {s s' : State} (h : Updates P s s') {f : Nat}
    (held : Held s f) : Held s' f := by
  rw [Held, h.blocks]
  exact held

theorem Extends.of_eq {s s' : State} (blocks : s'.pageAllocations = s.pageAllocations)
    (frames : s'.frames = s.frames) : Extends s s' where
  blocks := blocks ▸ List.prefix_rfl
  frames := frames ▸ List.suffix_rfl

section Respect

theorem paToVpa_extends (pa : BitVec 64) : Respects Extends (paToVpa pa) := by
  unfold paToVpa
  exact .bind (.assertThat _) fun _ => .ret _

theorem modifyEntry_extends (addr : Nat) (f : BitVec 64 → BitVec 64) :
    Respects Extends (modifyEntry addr f) :=
  .modify fun _ => .of_eq rfl rfl

theorem load_extends (addr : Nat) : Respects Extends (load addr) :=
  .bind .getState fun _ => .ret _

theorem allocatePhys_extends (order : Nat) : Respects Extends (allocatePhys order) := by
  unfold allocatePhys
  refine .bind ?_ ?_
  · intro s r s' run
    unfold allocPages at run
    rw [bind_ok (run_get_eq s)] at run
    cases frames : s.frames with
    | nil =>
        rw [frames] at run
        cases run
        exact .of_eq rfl rfl
    | cons f rest =>
        rw [frames] at run
        cases run
        exact ⟨List.prefix_rfl, frames ▸ List.suffix_cons f rest⟩
  · intro r
    cases r with
    | none => exact .ret none
    | some f =>
        refine .bind (.modify fun s => ⟨List.prefix_append _ _, List.suffix_rfl⟩) fun _ => ?_
        refine .bind (paToVpa_extends _) fun _ => ?_
        exact .bind (.modify fun _ => .of_eq rfl rfl) fun _ => .ret _

theorem insertTable_extends (entry : Nat) : Respects Extends (insertTable entry) := by
  unfold insertTable
  have down : Respects Extends (do paToVpa (baseAddress (← load entry))) :=
    .bind (load_extends entry) fun _ => paToVpa_extends _
  refine .bind (load_extends entry) fun w => ?_
  by_cases base : baseAddress w = 0
  · rw [if_pos base]
    refine .bind (allocatePhys_extends 0) fun r => ?_
    cases r with
    | none => exact .bind (.throw _) fun _ => down
    | some pgd =>
        exact .bind (modifyEntry_extends _ _) fun _ => .bind (modifyEntry_extends _ _) fun _ =>
          .bind (modifyEntry_extends _ _) fun _ => .bind (modifyEntry_extends _ _) fun _ => down
  · rw [if_neg base]
    exact down

theorem insertMapping_extends (va pa mappingFlags : BitVec 64) :
    Respects Extends (insertMapping va pa mappingFlags) := by
  unfold insertMapping
  refine .bind .getState fun _ => .bind (insertTable_extends _) fun _ => ?_
  refine .bind (insertTable_extends _) fun _ => .bind (insertTable_extends _) fun _ => ?_
  intro s a s' run
  rw [insertEntry_run] at run
  cases run
  exact .of_eq rfl rfl

theorem mapPages_extends (n : Nat) (vbase pbase : BitVec 64) :
    Respects Extends (mapPages n vbase pbase) := by
  induction n generalizing vbase pbase with
  | zero => exact .ret ()
  | succ n ih => exact .bind (insertMapping_extends _ _ _) fun _ => ih _ _

theorem allocateVirt_extends (va : BitVec 64) (nrPages : Int) :
    Respects Extends (allocateVirt va nrPages) := by
  unfold allocateVirt
  refine .ite (.ret false) (.bind (allocatePhys_extends _) fun r => ?_)
  cases r with
  | none => exact .ret false
  | some pgd => exact .bind (mapPages_extends _ _ _) fun _ => .ret true

theorem lookupTable_same (entry : Nat) : Respects Eq (lookupTable entry) := by
  have read : ∀ addr, Respects Eq (load addr) := fun _ => .bind .getState fun _ => .ret _
  unfold lookupTable
  refine .bind (read entry) fun _ => .ite (.bind (read entry) fun _ => ?_) (.ret none)
  exact .bind (.bind (.assertThat _) fun _ => .ret _) fun _ => .ret _

theorem getMapping_same (va : BitVec 64) : Respects Eq (getMapping va) := by
  unfold getMapping
  refine .bind .getState fun s => .ite (.ret none) (.bind (lookupTable_same _) fun r₁ => ?_)
  cases r₁ with
  | none => exact .ret none
  | some t₁ =>
      refine .bind (lookupTable_same _) fun r₂ => ?_
      cases r₂ with
      | none => exact .ret none
      | some t₂ =>
          refine .bind (lookupTable_same _) fun r₃ => ?_
          cases r₃ with
          | none => exact .ret none
          | some t₃ =>
              exact .bind (.bind .getState fun _ => .ret _) fun _ => .ite (.ret _) (.ret none)

theorem getMapping_extends (va : BitVec 64) : Respects Extends (getMapping va) := by
  intro s r s' run
  cases getMapping_same va s r s' run
  exact Std.Refl.refl s

theorem copyTo_extends (va : BitVec 64) (src : List Byte) : Respects Extends (copyTo va src) := by
  unfold copyTo
  refine .bind (getMapping_extends va) fun r => ?_
  cases r with
  | none => exact .ret false
  | some pa =>
      exact .bind (paToVpa_extends pa) fun _ => .bind (.modify fun _ => .of_eq rfl rfl) fun _ =>
        .ret true

end Respect

/-! ### Allocations -/

/-- A block was handed out, recorded and cleared. -/
structure NewBlock (s s' : State) (b : PageAllocation) : Prop where
  frames : s.frames = b.descriptorBase :: s'.frames
  blocks : s'.pageAllocations = s.pageAllocations ++ [b]
  root : s'.pgtVirtBase = s.pgtVirtBase
  writes : Writes b.Has s s'

theorem paToVpa_ok {s s' : State} {pa : BitVec 64} {base : Nat}
    (run : (paToVpa pa).run s = .ok (base, s')) : s' = s ∧ base = pmemVaStart + pa.toNat := by
  unfold paToVpa at run
  by_cases small : pa.toNat < pmemVaSize
  · rw [bind_ok (assertThat_run (decide_eq_true small))] at run
    cases run
    exact ⟨rfl, rfl⟩
  · rw [decide_eq_false small] at run
    cases run

theorem writes_pnzero {s : State} {f n : Nat} :
    Writes (fun g => f ≤ g ∧ g < f + n) s { s with
      mem := fun a => if tableAt f ≤ a ∧ a < tableAt f + 4096 * n then 0 else s.mem a } := by
  intro a out
  apply if_neg
  rintro ⟨lo, hi⟩
  rw [tableAt] at lo hi
  apply out (f + (a - (pmemVaStart + 4096 * f)) / 4096) ⟨Nat.le_add_right _ _, by omega⟩
  rw [InPage, tableAt]
  omega

theorem allocatePhys_empty {s : State} (frames : s.frames = []) (order : Nat) :
    (allocatePhys order).run s = .ok (none, s) := by
  have answer : (allocPages order).run s = .ok (none, s) := by
    unfold allocPages
    rw [bind_ok (run_get_eq s), frames]
    rfl
  unfold allocatePhys
  rw [bind_ok answer]
  rfl

theorem allocPages_cons {s : State} {f : Nat} {rest : List Nat} (frames : s.frames = f :: rest)
    (order : Nat) : (allocPages order).run s = .ok (some f, { s with frames := rest }) := by
  unfold allocPages
  rw [bind_ok (run_get_eq s), frames]
  rfl

theorem allocatePhys_some {s s' : State} {order f : Nat}
    (run : (allocatePhys order).run s = .ok (some f, s')) (apart : Apart s'.pageAllocations) :
    NewBlock s s' ⟨f, order⟩ := by
  cases frames : s.frames with
  | nil =>
      rw [allocatePhys_empty frames] at run
      cases run
  | cons g rest =>
      unfold allocatePhys at run
      rw [bind_ok (allocPages_cons frames order)] at run
      dsimp only at run
      rw [bind_ok (run_modify_eq _ _)] at run
      obtain ⟨base, s₁, run₁, run⟩ := of_bind_ok run
      obtain ⟨rfl, rfl⟩ := paToVpa_ok run₁
      unfold pnzero at run
      rw [bind_ok (run_modify_eq _ _)] at run
      cases run
      refine ⟨frames, rfl, rfl, ?_⟩
      have inside : f + 2 ^ order ≤ 2 ^ 20 := (apart.inside ⟨f, order⟩ (by simp)).2
      have pos := Nat.two_pow_pos order
      rw [toNat_pgdToPa (by omega), Nat.one_shiftLeft]
      exact writes_pnzero

theorem allocatePhys_none {s s' : State} {order : Nat}
    (run : (allocatePhys order).run s = .ok (none, s')) : s.frames = [] := by
  by_contra left
  obtain ⟨g, rest, frames⟩ := List.exists_cons_of_ne_nil left
  unfold allocatePhys at run
  rw [bind_ok (allocPages_cons frames order)] at run
  dsimp only at run
  rw [bind_ok (run_modify_eq _ _)] at run
  obtain ⟨_, _, _, run⟩ := of_bind_ok run
  cases run

theorem allocatePhys_ok {s s' : State} {order : Nat} {r : Option Nat}
    (run : (allocatePhys order).run s = .ok (r, s')) (supplied : Supplied s') :
    ∃ f, r = some f ∧ NewBlock s s' ⟨f, order⟩ := by
  cases r with
  | none =>
      have frames := allocatePhys_none run
      rw [allocatePhys_empty frames] at run
      cases run
      exact absurd frames supplied.left
  | some f => exact ⟨f, rfl, allocatePhys_some run supplied.apart⟩

section NewBlock
variable {s s' : State} {b : PageAllocation}

theorem NewBlock.extends (h : NewBlock s s' b) : Extends s s' where
  blocks := h.blocks ▸ List.prefix_append _ _
  frames := h.frames ▸ List.suffix_cons _ _

theorem NewBlock.held_iff (h : NewBlock s s' b) (f : Nat) : Held s' f ↔ Held s f ∨ b.Has f := by
  simp only [Held, h.blocks, List.mem_append, List.mem_singleton, or_and_right, exists_or,
    exists_eq_left]

theorem NewBlock.fresh (h : NewBlock s s' b) (apart : Apart s'.pageAllocations) {f : Nat}
    (hf : b.Has f) : ¬ Held s f := by
  rw [h.blocks] at apart
  exact apart.fresh hf

end NewBlock

/-! ### Tables and data -/

section Space
variable {s s' : State} {m : List Nat → Option (BitVec 64)} {T D P : Nat → Prop}

/-- An address space with its tables in the frames `T` and its data in the frames `D`. -/
structure Space (s : State) (m : List Nat → Option (BitVec 64)) (T D : Nat → Prop) : Prop where
  tables : Tables s m
  reached : ∀ p i t, EntryPath (p ++ [i]) → descend slot child s.mem s.pgtVirtBase p = some t →
    ∃ f, T f ∧ t = tableAt f
  heldTables : ∀ f, T f → Held s f
  heldData : ∀ f, D f → Held s f
  apart : ∀ f, T f → ¬ D f

theorem Tables.frame (h : Tables s m) (root : s'.pgtVirtBase = s.pgtVirtBase)
    (same : ∀ q j u, EntryPath (q ++ [j]) → descend slot child s.mem s.pgtVirtBase q = some u →
      s'.mem (slot u j) = s.mem (slot u j))
    (sub : allocated s ⊆ allocated s') (supply : (s'.frames ++ allocated s').Nodup)
    (small : ∀ f ∈ s'.frames ++ allocated s', 0 < f ∧ f < 2 ^ 20) : Tables s' m := by
  have go := fun q hq => RadixTree.descend_frame (p := q) EntryPath.closed same hq
  constructor
  case tree =>
    rw [root]
    exact h.tree.frame EntryPath.closed same
  case owned =>
    intro q j u hq hu
    rw [root, go q (EntryPath.closed q [j] hq)] at hu
    obtain ⟨f, hf, e⟩ := h.owned q j u hq hu
    exact ⟨f, sub hf, e⟩
  case interior =>
    intro q j u hq len hu
    rw [root, go q (EntryPath.closed q [j] hq)] at hu
    rw [same q j u hq hu]
    exact h.interior q j u hq len hu
  case leaves =>
    intro q j hq len
    rw [h.leaves q j hq len, root, go q (EntryPath.closed q [j] hq)]
    cases hu : descend slot child s.mem s.pgtVirtBase q with
    | none => rfl
    | some u => rw [Option.bind_some, Option.bind_some, same q j u hq hu]
  case supply => exact supply
  case small => exact small

theorem Space.same (h : Space s m T D) (writes : Writes P s s') (out : ∀ f, T f → ¬ P f)
    {q : List Nat} {j u : Nat} (hq : EntryPath (q ++ [j]))
    (hu : descend slot child s.mem s.pgtVirtBase q = some u) :
    s'.mem (slot u j) = s.mem (slot u j) := by
  obtain ⟨f, hf, rfl⟩ := h.reached q j u hq hu
  exact writes.page (out f hf) (inPage_slot hq.last_lt)

theorem Space.reached_of_writes (h : Space s m T D) (root : s'.pgtVirtBase = s.pgtVirtBase)
    (writes : Writes P s s') (out : ∀ f, T f → ¬ P f) {p : List Nat} {i t : Nat}
    (hp : EntryPath (p ++ [i])) (ht : descend slot child s'.mem s'.pgtVirtBase p = some t) :
    ∃ f, T f ∧ t = tableAt f := by
  have same := fun q j u hq hu => h.same writes out (q := q) (j := j) (u := u) hq hu
  rw [root, RadixTree.descend_frame EntryPath.closed same (EntryPath.closed p [i] hp)] at ht
  exact h.reached p i t hp ht

theorem Space.updated (h : Space s m T D) (new : Updates P s s') (out : ∀ f, T f → ¬ P f) :
    Space s' m T D where
  tables := by
    have allocs : allocated s' = allocated s := congrArg (List.map _) new.blocks
    refine h.tables.frame new.root (fun q j u hq hu => h.same new.writes out hq hu) ?_ ?_ ?_
    · rw [allocs]
      exact List.Subset.refl _
    · rw [allocs, new.frames]
      exact h.tables.supply
    · rw [allocs, new.frames]
      exact h.tables.small
  reached p i t hp ht := h.reached_of_writes new.root new.writes out hp ht
  heldTables f hf := new.held (h.heldTables f hf)
  heldData f hf := new.held (h.heldData f hf)
  apart := h.apart

theorem Space.allocate (h : Space s m T D) {b : PageAllocation} (new : NewBlock s s' b)
    (apart : Apart s'.pageAllocations) : Space s' m T fun f => D f ∨ b.Has f where
  tables := by
    have out : ∀ f, T f → ¬ b.Has f := fun f hf hb => new.fresh apart hb (h.heldTables f hf)
    have allocs : allocated s' = allocated s ++ [b.descriptorBase] := by
      rw [allocated, new.blocks, List.map_append]
      rfl
    have perm : (s'.frames ++ allocated s').Perm (s.frames ++ allocated s) := by
      rw [allocs, new.frames, ← List.append_assoc]
      exact List.perm_append_singleton _ _
    refine h.tables.frame new.root (fun q j u hq hu => h.same new.writes out hq hu) ?_ ?_ ?_
    · rw [allocs]
      exact List.subset_append_left _ _
    · exact perm.nodup_iff.mpr h.tables.supply
    · exact fun f hf => h.tables.small f (perm.mem_iff.mp hf)
  reached p i t hp ht :=
    h.reached_of_writes new.root new.writes
      (fun f hf hb => new.fresh apart hb (h.heldTables f hf)) hp ht
  heldTables f hf := new.extends.held (h.heldTables f hf)
  heldData f hf := by
    rw [new.held_iff]
    exact hf.imp_left (h.heldData f)
  apart f hf := by
    rintro (data | block)
    · exact h.apart f hf data
    · exact new.fresh apart block (h.heldTables f hf)

/-! ### Insertions and lookups -/

theorem afterLink_extends {f : Nat} {rest : List Nat} (addr : Nat)
    (frames : s.frames = f :: rest) : Extends s (afterLink s f rest addr) where
  blocks := List.prefix_append _ _
  frames := frames ▸ List.suffix_cons f rest

theorem writes_afterLink {f g addr : Nat} (rest : List Nat) (page : InPage g addr) :
    Writes (fun x => x = g ∨ x = f) s (afterLink s f rest addr) := by
  intro a out
  have apart : a ≠ addr := by
    rintro rfl
    exact out g (.inl rfl) page
  rw [afterLink_mem_of_ne apart]
  exact if_neg (out f (.inr rfl))

theorem insertTable_left {entry u : Nat} (run : (insertTable entry).run s = .ok (u, s'))
    (base : baseAddress (s.mem entry) = 0) : s.frames ≠ [] := by
  intro frames
  unfold Vma.insertTable at run
  rw [bind_ok (load_run entry), if_pos base, bind_ok (allocatePhys_empty frames 0)] at run
  cases run

theorem Space.insertTable (h : Space s m T D) {p : List Nat} {i t u : Nat}
    (hp : EntryPath (p ++ [i])) (len : p.length < 3)
    (ht : descend slot child s.mem s.pgtVirtBase p = some t)
    (run : (insertTable (slot t i)).run s = .ok (u, s')) (apart : Apart s'.pageAllocations) :
    descend slot child s'.mem s'.pgtVirtBase (p ++ [i]) = some u ∧
      ∃ T', (∀ f, T f → T' f) ∧ Space s' m T' D ∧ Writes T' s s' := by
  obtain ⟨s₁, u₁, run₁, reached, cases⟩ := h.tables.insertTable_cases hp len ht
    (insertTable_left run)
  rw [run₁] at run
  cases run
  refine ⟨reached, ?_⟩
  rcases cases with rfl | ⟨f, rest, frames, zero, rfl⟩
  · exact ⟨T, fun _ hf => hf, h, .refl T _⟩
  · obtain ⟨g, hg, rfl⟩ := h.reached p i t hp ht
    have ext := afterLink_extends (slot (tableAt g) i) frames
    have writes := writes_afterLink (s := s) (f := f) rest (inPage_slot (f := g) hp.last_lt)
    have own : (⟨f, 0⟩ : PageAllocation).Has f := ⟨le_rfl, Nat.lt_succ_self f⟩
    have mine : Held (afterLink s f rest (slot (tableAt g) i)) f :=
      ⟨⟨f, 0⟩, List.mem_append_right _ (List.mem_singleton_self _), own⟩
    have fresh : ¬ Held s f := Apart.fresh apart own
    refine ⟨fun x => T x ∨ x = f, fun _ => .inl, ?_, writes.mono ?_⟩
    · constructor
      case tables => exact h.tables.link frames hp len ht zero
      case reached =>
        intro q j v hq hv
        change descend slot child _ s.pgtVirtBase q = some v at hv
        rw [h.tables.descend_link frames hp ht zero (EntryPath.closed q [j] hq)] at hv
        split_ifs at hv with new
        · cases hv
          exact ⟨f, .inr rfl, rfl⟩
        · obtain ⟨x, hx, e⟩ := h.reached q j v hq hv
          exact ⟨x, .inl hx, e⟩
      case heldTables =>
        rintro x (old | rfl)
        · exact ext.held (h.heldTables x old)
        · exact mine
      case heldData => exact fun x hx => ext.held (h.heldData x hx)
      case apart =>
        rintro x (old | rfl) data
        · exact h.apart x old data
        · exact fresh (h.heldData x data)
    · rintro x (rfl | rfl)
      · exact .inl hg
      · exact .inr rfl

theorem Space.writeLeaf (h : Space s m T D) {p : List Nat} {i t : Nat}
    (hp : EntryPath (p ++ [i])) (len : p.length = 3)
    (ht : descend slot child s.mem s.pgtVirtBase p = some t) (w : BitVec 64) :
    Space (s.setWord (slot t i) w) (update m (p ++ [i]) (leafBase w)) T D ∧
      Writes T s (s.setWord (slot t i) w) := by
  obtain ⟨g, hg, rfl⟩ := h.reached p i t hp ht
  constructor
  · constructor
    case tables => exact h.tables.writeLeaf hp len ht w
    case reached =>
      intro q j u hq hu
      exact h.reached q j u hq ((h.tables.descend_writeLeaf hp len ht w hq).symm.trans hu)
    case heldTables => exact h.heldTables
    case heldData => exact h.heldData
    case apart => exact h.apart
  · exact .setWord hg (inPage_slot hp.last_lt) w

theorem Space.insertMapping_flags (h : Space s m T D) {va pa mappingFlags : BitVec 64}
    (user : UserAddress va) (run : (insertMapping va pa mappingFlags).run s = .ok ((), s'))
    (apart : Apart s'.pageAllocations) :
    ∃ T' old, (∀ f, T f → T' f) ∧
      Space s' (update m (path va) (leafBase (leafEntry pa mappingFlags old))) T' D ∧
      Writes T' s s' := by
  have whole := user.entryPath
  unfold Vma.insertMapping at run
  rw [vaTableIndicies_eq, bind_ok (run_get_eq s)] at run
  unfold path at whole ⊢
  generalize va.toNat / 2 ^ 39 % 512 = i at run whole ⊢
  generalize va.toNat / 2 ^ 30 % 512 = j at run whole ⊢
  generalize va.toNat / 2 ^ 21 % 512 = k at run whole ⊢
  generalize va.toNat / 2 ^ 12 % 512 = l at run whole ⊢
  obtain ⟨t₁, s₁, run₁, run⟩ := of_bind_ok run
  obtain ⟨t₂, s₂, run₂, run⟩ := of_bind_ok run
  obtain ⟨t₃, s₃, run₃, run⟩ := of_bind_ok run
  rw [insertEntry_run] at run
  cases run
  have apart₃ : Apart s₃.pageAllocations := apart
  have apart₂ := apart₃.of_prefix (insertTable_extends _ _ _ _ run₃).blocks
  have apart₁ := apart₂.of_prefix (insertTable_extends _ _ _ _ run₂).blocks
  obtain ⟨at₁, T₁, sub₁, space₁, writes₁⟩ := h.insertTable (p := []) (i := i)
    (EntryPath.closed [i] [j, k, l] whole) (by decide) rfl run₁ apart₁
  obtain ⟨at₂, T₂, sub₂, space₂, writes₂⟩ := space₁.insertTable (p := [i]) (i := j)
    (EntryPath.closed [i, j] [k, l] whole) (Nat.lt_add_of_pos_right Nat.two_pos) at₁ run₂ apart₂
  obtain ⟨at₃, T₃, sub₃, space₃, writes₃⟩ := space₂.insertTable (p := [i, j]) (i := k)
    (EntryPath.closed [i, j, k] [l] whole) (Nat.lt_succ_self 2) at₂ run₃ apart₃
  obtain ⟨space₄, writes₄⟩ := space₃.writeLeaf (p := [i, j, k]) (i := l) whole rfl at₃
    (leafEntry pa mappingFlags (s₃.mem (slot t₃ l)))
  refine ⟨T₃, s₃.mem (slot t₃ l), fun f hf => sub₃ f (sub₂ f (sub₁ f hf)), space₄, ?_⟩
  have first := writes₁.mono fun f hf => sub₃ f (sub₂ f hf)
  have second := writes₂.mono sub₃
  exact ((first.trans second).trans writes₃).trans writes₄

theorem Space.insertMapping (h : Space s m T D) {va pa mappingFlags : BitVec 64}
    (user : UserAddress va) (present : mappingFlags &&& mappingPresent ≠ 0)
    (run : (insertMapping va pa mappingFlags).run s = .ok ((), s'))
    (apart : Apart s'.pageAllocations) :
    ∃ T', (∀ f, T f → T' f) ∧ Space s' (update m (path va) (some (baseAddress pa))) T' D ∧
      Writes T' s s' := by
  obtain ⟨T', old, sub, space, writes⟩ := h.insertMapping_flags user run apart
  rw [leafBase_leafEntry _ present] at space
  exact ⟨T', sub, space, writes⟩

/-! ### The loop of `allocate_virt` -/

theorem userAddress_of_lt {va : BitVec 64} (low : va.toNat < 2 ^ 47) : UserAddress va := by
  rw [userAddress_iff]
  omega

theorem path_eq_iff_page {va va' : BitVec 64} (low : va.toNat < 2 ^ 47)
    (low' : va'.toNat < 2 ^ 47) :
    path va = path va' ↔ va.toNat / 4096 = va'.toNat / 4096 := by
  simp only [path, List.cons.injEq, and_true]
  omega

theorem pgdToPa_succ (f : Nat) : pgdToPa f + 0x1000 = pgdToPa (f + 1) := by
  apply BitVec.eq_of_toNat_eq
  have page : (0x1000 : BitVec 64).toNat = 4096 := rfl
  simp only [pgdToPa, BitVec.toNat_add, BitVec.toNat_shiftLeft, BitVec.toNat_ofNat,
    Nat.shiftLeft_eq, page]
  omega

/-- The maps `m` and `m'` differ in the `n` pages from `first`, which get the frames from `F`. -/
def Mapped (m m' : List Nat → Option (BitVec 64)) (first n F : Nat) : Prop :=
  ∀ va : BitVec 64, va.toNat < 2 ^ 47 →
    m' (path va) = if first ≤ va.toNat / 4096 ∧ va.toNat / 4096 < first + n
      then some (pgdToPa (F + (va.toNat / 4096 - first))) else m (path va)

theorem Mapped.cons {m m' : List Nat → Option (BitVec 64)} {n F : Nat} {va : BitVec 64}
    (low : va.toNat < 2 ^ 47)
    (rest : Mapped (update m (path va) (some (pgdToPa F))) m' (va.toNat / 4096 + 1) n (F + 1)) :
    Mapped m m' (va.toNat / 4096) (n + 1) F := by
  intro va' low'
  rw [rest va' low']
  by_cases here : va'.toNat / 4096 = va.toNat / 4096
  · have same : path va' = path va := (path_eq_iff_page low' low).mpr here
    rw [if_neg (by omega), if_pos (by omega), same, update_self, here, Nat.sub_self, Nat.add_zero]
  · have other : path va' ≠ path va := fun e => here ((path_eq_iff_page low' low).mp e)
    rw [update_of_ne other]
    by_cases inside : va.toNat / 4096 + 1 ≤ va'.toNat / 4096 ∧
        va'.toNat / 4096 < va.toNat / 4096 + 1 + n
    · have next : F + 1 + (va'.toNat / 4096 - (va.toNat / 4096 + 1)) =
          F + (va'.toNat / 4096 - va.toNat / 4096) := by omega
      rw [if_pos inside, if_pos (by omega), next]
    · rw [if_neg inside, if_neg (by omega)]

theorem Space.mapPages (h : Space s m T D) {n F : Nat} {va : BitVec 64}
    (user : va.toNat / 4096 + n ≤ 2 ^ 35) (small : F + n ≤ 2 ^ 20)
    (run : (mapPages n va (pgdToPa F)).run s = .ok ((), s')) (apart : Apart s'.pageAllocations) :
    ∃ T' m', (∀ f, T f → T' f) ∧ Space s' m' T' D ∧ Mapped m m' (va.toNat / 4096) n F ∧
      Writes T' s s' := by
  induction n generalizing s m T F va with
  | zero =>
      cases run
      refine ⟨T, m, fun _ hf => hf, h, ?_, .refl T _⟩
      intro va' _
      rw [if_neg (by omega)]
  | succ n ih =>
      unfold Vma.mapPages at run
      obtain ⟨_, s₁, run₁, run⟩ := of_bind_ok run
      have low : va.toNat < 2 ^ 47 := by omega
      have apart₁ := apart.of_prefix (mapPages_extends _ _ _ _ _ _ run).blocks
      obtain ⟨T₁, sub₁, space₁, writes₁⟩ :=
        h.insertMapping (userAddress_of_lt low) (by decide) run₁ apart₁
      rw [baseAddress_pgdToPa] at space₁
      rw [pgdToPa_succ] at run
      have next := next_page (by omega : va.toNat / 4096 + 1 < 2 ^ 52)
      obtain ⟨T', m', sub', space', mapped, writes'⟩ := ih space₁ (by omega) (by omega) run
      rw [next] at mapped
      exact ⟨T', m', fun f hf => sub' f (sub₁ f hf), space', .cons low mapped,
        (writes₁.mono sub').trans writes'⟩

theorem Space.congr {D' : Nat → Prop} (h : Space s m T D) (same : ∀ f, D' f ↔ D f) :
    Space s m T D' where
  tables := h.tables
  reached := h.reached
  heldTables := h.heldTables
  heldData f hf := h.heldData f ((same f).mp hf)
  apart f hf data := h.apart f hf ((same f).mp data)

/-- A call of `allocate_virt` that returns true maps the pages of a new block. -/
theorem Space.allocateVirt (h : Space s m T D) {va : BitVec 64} {nrPages : Int}
    (user : va.toNat / 4096 + 2 ^ log2ceil (toUInt64 nrPages) ≤ 2 ^ 35)
    (run : (allocateVirt va nrPages).run s = .ok (true, s')) (apart : Apart s'.pageAllocations) :
    ∃ F s₁ T' m', NewBlock s s₁ ⟨F, log2ceil (toUInt64 nrPages)⟩ ∧ Extends s₁ s' ∧
      (∀ f, T f → T' f) ∧
      Space s' m' T' (fun f => D f ∨ (⟨F, log2ceil (toUInt64 nrPages)⟩ : PageAllocation).Has f) ∧
      Mapped m m' (va.toNat / 4096) (2 ^ log2ceil (toUInt64 nrPages)) F ∧ Writes T' s₁ s' := by
  unfold Vma.allocateVirt at run
  by_cases zero : nrPages = 0
  · rw [if_pos zero] at run
    cases run
  · rw [if_neg zero] at run
    dsimp only at run
    generalize log2ceil (toUInt64 nrPages) = order at run user ⊢
    obtain ⟨answer, s₁, run₁, run⟩ := of_bind_ok run
    cases answer with
    | none => cases run
    | some F =>
        obtain ⟨_, s₂, run₂, run⟩ := of_bind_ok run
        cases run
        have ext := mapPages_extends _ _ _ _ _ _ run₂
        have apart₁ := apart.of_prefix ext.blocks
        have new := allocatePhys_some run₁ apart₁
        have inside := (apart₁.inside ⟨F, order⟩ (by rw [new.blocks]; simp)).2
        rw [Nat.one_shiftLeft] at run₂
        obtain ⟨T', m', sub, space, mapped, writes⟩ :=
          (h.allocate new apart₁).mapPages user inside run₂ apart
        exact ⟨F, s₁, T', m', new, ext, sub, space, mapped, writes⟩

/-! ### A fresh address space -/

theorem create_writes {template : Option (Nat → BitVec 64)}
    (run : (create template).run s = .ok ((), s')) (apart : Apart s'.pageAllocations) :
    ∃ f, s.frames = f :: s'.frames ∧ s'.pageAllocations = s.pageAllocations ++ [⟨f, 0⟩] ∧
      Writes (· = f) s s' := by
  unfold create construct at run
  obtain ⟨_, s₂, run₂, run₃⟩ := of_bind_ok run
  obtain ⟨answer, s₁, run₁, run₂⟩ := of_bind_ok run₂
  cases answer with
  | none => cases run₂
  | some f =>
      obtain ⟨base, s₁', run₄, run₂⟩ := of_bind_ok run₂
      obtain ⟨same, rfl⟩ := paToVpa_ok run₄
      cases run₂
      rw [same] at run₃
      cases template with
      | none => cases run₃
      | some pml4 =>
          cases run₃
          have new := allocatePhys_some run₁ apart
          have small := (apart.inside ⟨f, 0⟩ (by
            change _ ∈ s₁.pageAllocations
            rw [new.blocks]
            simp)).2
          have own : ∀ g, (⟨f, 0⟩ : PageAllocation).Has g → g = f := by
            rintro g ⟨lo, hi⟩
            exact Nat.le_antisymm (Nat.le_of_lt_succ hi) lo
          refine ⟨f, new.frames, new.blocks, (new.writes.mono own).trans ?_⟩
          let s₂ : State := { s₁ with
            pgtPhysBase := pgdToPa f, pgtVirtBase := pmemVaStart + (pgdToPa f).toNat }
          have root : pmemVaStart + (pgdToPa f).toNat = tableAt f := by
            rw [toNat_pgdToPa (Nat.lt_of_succ_le small), tableAt]
          change Writes (· = f) s₂ ((s₂.setWord
            (slot (pmemVaStart + (pgdToPa f).toNat) 0x1ff) (pml4 0x1ff)).setWord
            (slot (pmemVaStart + (pgdToPa f).toNat) 0x100) (pml4 0x100))
          rw [root]
          exact (Writes.setWord (P := (· = f)) rfl (inPage_slot (i := 0x1ff) (by decide)) _).trans
            (.setWord (P := (· = f)) rfl (inPage_slot (i := 0x100) (by decide)) _)

theorem create_space {template : Option (Nat → BitVec 64)} (fresh : FreshFrames s.frames)
    (empty : s.pageAllocations = []) (run : (create template).run s = .ok ((), s'))
    (apart : Apart s'.pageAllocations) :
    ∃ T, Space s' (fun _ => none) T (fun _ => False) ∧ Writes T s s' := by
  obtain ⟨f, frames, blocks, writes⟩ := create_writes run apart
  rw [empty] at blocks
  cases template with
  | none =>
      unfold create at run
      obtain ⟨_, _, _, run⟩ := of_bind_ok run
      cases run
  | some pml4 =>
      have enough : 1 ≤ s.frames.length := by
        rw [frames]
        exact Nat.succ_pos _
      obtain ⟨s₁, run₁, tables, _⟩ := create_tables pml4 fresh empty enough
      rw [run] at run₁
      cases run₁
      refine ⟨(· = f), ?_, writes⟩
      constructor
      case tables => exact tables
      case reached =>
        intro p i t hp ht
        obtain ⟨g, hg, e⟩ := tables.owned p i t hp ht
        rw [allocated, blocks] at hg
        exact ⟨g, List.mem_singleton.mp hg, e⟩
      case heldTables =>
        rintro g rfl
        exact ⟨⟨g, 0⟩, by rw [blocks]; exact List.mem_singleton_self _, le_rfl, Nat.lt_succ_self g⟩
      case heldData => exact fun _ none => none.elim
      case apart => exact fun _ _ none => none
end Space
end Infos.Mm.Vma
