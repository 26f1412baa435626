import Infos.Lib.Machine
import Infos.Mm.BuddyOps

/-!
# Whole runs of the buddy allocator

The state is read back through its pointers alone: a free list is what the chain
from a free area spells, and a page is free when some listed block holds it.
-/
namespace Infos.Mm.Buddy
open Infos.Lib Function Set

/-- The list of order `k`, as the pointers spell it. -/
def IsFreeList (s : State) (k : Nat) (xs : List Nat) : Prop :=
  Chain Slot.next s.slots (.area k) xs

def freePagesOf (s : State) : Set Nat :=
  {x | ∃ k < maxOrder, ∃ xs, IsFreeList s k xs ∧ ∃ p ∈ xs, x ∈ block k p}

/-- The free lists as `dump_state` should always find them. -/
structure FreeListsOk (s : State) : Prop where
  ascending : ∀ k < maxOrder, ∃ xs, IsFreeList s k xs ∧ xs.Pairwise (· < ·)
  placed : ∀ k < maxOrder, ∀ xs, IsFreeList s k xs → ∀ p ∈ xs, 2 ^ k ∣ p ∧ p + 2 ^ k ≤ s.nrPages
  disjoint : ∀ j < maxOrder, ∀ k < maxOrder, ∀ xs ys, IsFreeList s j xs → IsFreeList s k ys →
    ∀ p ∈ xs, ∀ q ∈ ys, ∀ x, x ∈ block j p → x ∈ block k q → j = k ∧ p = q
  noBuddies : ∀ k < maxOrder - 1, ∀ xs, IsFreeList s k xs → ∀ p ∈ xs, buddy k p ∉ xs

/-- All 17 free lists agree, element by element. -/
def SameLists (s s' : State) : Prop := ∀ k < maxOrder, ∃ xs, IsFreeList s k xs ∧ IsFreeList s' k xs

inductive Op where
  | alloc (order : Nat)
  | reserve (page : Nat)
  | free (start order : Nat)

inductive Reply where
  | block (start : Option Nat)
  | flag (reserved : Bool)
  | done

def Op.run (fuel : Nat) : Op → Exec State Reply
  | .alloc k => do pure (.block (← allocPages fuel k))
  | .reserve p => do pure (.flag (← reservePage fuel p))
  | .free b k => do freePages fuel b k; pure .done

/-- An aligned block inside memory none of whose pages is free. -/
def Freeable (s : State) (b k : Nat) : Prop :=
  k < maxOrder ∧ 2 ^ k ∣ b ∧ b + 2 ^ k ≤ s.nrPages ∧ Disjoint (block k b) (freePagesOf s)

def Op.Valid (s : State) : Op → Prop
  | .alloc _ => True
  | .reserve p => p < s.nrPages
  | .free b k => Freeable s b k

/-- How each operation changes the free pages, by its reply. -/
def Advertised (s s' : State) : Op → Reply → Prop
  | .alloc _, .block none => s' = s
  | .alloc k, .block (some p) =>
      2 ^ k ∣ p ∧ block k p ⊆ freePagesOf s ∧ freePagesOf s' = freePagesOf s \ block k p
  | .reserve p, .flag true => p ∈ freePagesOf s ∧ freePagesOf s' = freePagesOf s \ {p}
  | .reserve p, .flag false => p ∉ freePagesOf s ∧ s' = s
  | .free b k, .done => freePagesOf s' = freePagesOf s ∪ block k b
  | _, _ => False

/-- The allocator over `nr` descriptors; its runs start where `init` returned. -/
def machine (nr fuel : Nat) : Machine State Op Reply where
  start s := ∃ success, (init fuel nr).run (State.fresh nr) = .ok (success, s)
  valid s op := op.Valid s
  run op := op.run fuel

section ReadBack
variable {s s' : State} {L L' : Lists} {F : Set Nat} {k : Nat}

theorem Holds.isFreeList_iff (h : Holds s L) (hk : k < maxOrder) {xs : List Nat} :
    IsFreeList s k xs ↔ xs = L k := by
  constructor
  · exact fun chain => chain.unique (h.chain k hk)
  · rintro rfl
    exact h.chain k hk

theorem Tiled.freePagesOf_eq (h : Tiled s L F) : freePagesOf s = F := by
  ext x
  rw [h.tiling.cover]
  constructor
  · rintro ⟨k, hk, xs, list, p, hp, hx⟩
    rw [h.holds.isFreeList_iff hk] at list
    subst list
    exact ⟨k, p, hp, hx⟩
  · rintro ⟨k, p, hp, hx⟩
    have hk := h.order_lt hp
    exact ⟨k, hk, L k, h.holds.chain k hk, p, hp, hx⟩

theorem Sound.freeListsOk (h : Sound s L F) : FreeListsOk s where
  ascending k hk := ⟨L k, h.holds.chain k hk, h.holds.ascending k⟩
  placed k hk xs list p hp := by
    rw [h.holds.isFreeList_iff hk] at list
    subst list
    have pos := Nat.two_pow_pos k
    have last := h.block_lt hp (last_mem_block k p)
    exact ⟨h.aligned hp, by omega⟩
  disjoint j hj k hk xs ys listj listk p hp q hq x hx hy := by
    rw [h.holds.isFreeList_iff hj] at listj
    rw [h.holds.isFreeList_iff hk] at listk
    subst listj; subst listk
    exact h.tiling.disjoint hp hq hx hy
  noBuddies k hk xs list p hp := by
    rw [h.holds.isFreeList_iff (by omega)] at list
    subst list
    exact h.noPairs k hk p hp

theorem Sound.sameLists (h : Sound s L F) (h' : Sound s' L' F) : SameLists s s' := by
  intro k hk
  refine ⟨L k, h.holds.chain k hk, (h'.holds.isFreeList_iff hk).mpr ?_⟩
  have sets := h.tiling.unique h.noPairs h'.tiling h'.noPairs k
  exact (h.holds.ascending k).eq_of_mem_iff (h'.holds.ascending k) fun p => Set.ext_iff.mp sets p

end ReadBack

section Runs
variable {nr fuel : Nat} {s s' : State}

/-- The run invariant: the lists are sound for the pages they make free. -/
def Inv (nr : Nat) (s : State) : Prop := s.nrPages = nr ∧ ∃ L, Sound s L (freePagesOf s)

theorem Sound.inv {L : Lists} {F : Set Nat} (h : Sound s L F) (size : s.nrPages = nr) : Inv nr s :=
  ⟨size, L, h.freePagesOf_eq ▸ h⟩

theorem Tiled.front {L : Lists} {F : Set Nat} {j k p : Nat} {ps : List Nat} (h : Tiled s L F)
    (head : L j = p :: ps) (le : k ≤ j) :
    2 ^ k ∣ p ∧ block k p ⊆ F ∧ p + 2 ^ k ≤ s.nrPages := by
  have hp : p ∈ L j := by
    rw [head]
    exact List.mem_cons_self
  have al : 2 ^ k ∣ p := (pow_dvd_pow 2 le).trans (h.aligned hp)
  have free : block k p ⊆ F := (block_nested le al (h.aligned hp) (start_mem_block k p)
    (start_mem_block j p)).trans (h.tiling.subset hp)
  have last := h.inside _ (free (last_mem_block k p))
  exact ⟨al, free, by omega⟩

/-- One operation: it returns, keeps the invariant and does what it advertises. -/
theorem Inv.step (h : Inv nr s) (budget : nr + maxOrder < fuel) {op : Op} (valid : op.Valid s) :
    ∃ out s', (op.run fuel).run s = .ok (out, s') ∧ Inv nr s' ∧ Advertised s s' op out := by
  obtain ⟨size, L, sound⟩ := h
  subst size
  cases op with
  | alloc k =>
      rcases sound.allocPages k budget with
        ⟨run, _⟩ | ⟨j, p, ps, s', L', le, _, head, _, run, size', sound'⟩
      · exact ⟨.block none, s, bind_ok run, ⟨rfl, L, sound⟩, rfl⟩
      · obtain ⟨al, free, -⟩ := sound.front head le
        exact ⟨.block (some p), s', bind_ok run, sound'.inv size', al, free,
          sound'.freePagesOf_eq⟩
  | reserve p =>
      rcases sound.reservePage p (by omega : s.nrPages < fuel) with
        ⟨free, s', L', run, size', sound'⟩ | ⟨used, run⟩
      · exact ⟨.flag true, s', bind_ok run, sound'.inv size', free, sound'.freePagesOf_eq⟩
      · exact ⟨.flag false, s, bind_ok run, ⟨rfl, L, sound⟩, used, rfl⟩
  | free b k =>
      obtain ⟨hk, al, hb, apart⟩ := valid
      obtain ⟨s', L', run, size', sound'⟩ := sound.freePages hk al hb apart budget
      exact ⟨.done, s', bind_ok run, sound'.inv size', sound'.freePagesOf_eq⟩

theorem init_inv (small : nr < 2 ^ 31) (budget : nr < fuel) :
    ∃ s, (init fuel nr).run (State.fresh nr) = .ok (true, s) ∧ Inv nr s ∧ freePagesOf s = Iio nr := by
  obtain ⟨s, L, run, size, sound⟩ := init_sound small budget
  exact ⟨s, run, sound.inv size, sound.freePagesOf_eq⟩

theorem reach_inv (addressable : nr < 2 ^ 63) (budget : nr + maxOrder < fuel)
    (h : (machine nr fuel).Reach s) : Inv nr s := by
  refine h.invariant (I := Inv nr) (fun {s} start => ?_) (fun {s s' op out} inv valid run => ?_)
  · obtain ⟨_, run⟩ := start
    obtain ⟨_, s₀, L, run₀, size, sound⟩ := init_sound_any addressable (by omega : nr < fuel)
    cases run₀.symm.trans run
    exact sound.inv size
  · obtain ⟨out', s'', run', inv', _⟩ := inv.step budget valid
    cases run'.symm.trans run
    exact inv'

/-- From `init`, over any run: the free lists stay well formed, no operation faults, and each
changes the free pages as advertised. -/
theorem buddy_runs_sound (nr fuel : Nat) (small : nr < 2 ^ 31) (budget : nr + maxOrder < fuel) :
    (∃ s, (init fuel nr).run (State.fresh nr) = .ok (true, s) ∧ freePagesOf s = Iio nr) ∧
    ∀ s, (machine nr fuel).Reach s → s.nrPages = nr ∧ FreeListsOk s ∧
      ∀ op : Op, op.Valid s →
        ∃ out s', (op.run fuel).run s = .ok (out, s') ∧ Advertised s s' op out := by
  constructor
  · obtain ⟨s, run, _, free⟩ := init_inv small (by omega : nr < fuel)
    exact ⟨s, run, free⟩
  · intro s h
    have inv := reach_inv (by omega) budget h
    obtain ⟨L, sound⟩ := inv.2
    refine ⟨inv.1, sound.freeListsOk, fun op valid => ?_⟩
    obtain ⟨out, s', run, _, advertised⟩ := inv.step budget valid
    exact ⟨out, s', run, advertised⟩

theorem buddy_runs_sound_ragged :
    (∃ s, (init 40 21).run (State.fresh 21) = .ok (true, s) ∧ freePagesOf s = Iio 21) ∧
    ∀ s, (machine 21 40).Reach s → s.nrPages = 21 ∧ FreeListsOk s ∧
      ∀ op : Op, op.Valid s →
        ∃ out s', (op.run 40).run s = .ok (out, s') ∧ Advertised s s' op out :=
  buddy_runs_sound 21 40 (by decide) (by decide)

/-! ### No spurious failure -/

/-- Some aligned run of `2 ^ k` pages is entirely free. -/
def HasRun (s : State) (k : Nat) : Prop :=
  ∃ p, 2 ^ k ∣ p ∧ p + 2 ^ k ≤ s.nrPages ∧ block k p ⊆ freePagesOf s

/-- `p` starts the lowest free block of the smallest order from `k` up that has one. -/
def IsBestFit (s : State) (k p : Nat) : Prop :=
  ∃ j xs, k ≤ j ∧ j < maxOrder ∧ IsFreeList s j xs ∧ p ∈ xs ∧ (∀ q ∈ xs, p ≤ q) ∧
    ∀ i, k ≤ i → i < j → IsFreeList s i []

/-- A wholly free aligned run keeps some list from its order up from being empty. -/
theorem Sound.hasRun_iff {L : Lists} (h : Sound s L (freePagesOf s)) {k : Nat} (hk : k < maxOrder) :
    HasRun s k ↔ ∃ j, k ≤ j ∧ j < maxOrder ∧ L j ≠ [] := by
  constructor
  · rintro ⟨p, al, _, free⟩
    obtain ⟨j, q, le, hq, _⟩ := h.tiling.cover_run h.noPairs (Nat.le_pred_of_lt hk) al free
    exact ⟨j, le, h.order_lt hq, List.ne_nil_of_mem hq⟩
  · rintro ⟨j, le, _, ne⟩
    obtain ⟨p, ps, head⟩ := List.exists_cons_of_ne_nil ne
    obtain ⟨al, free, fits⟩ := h.front head le
    exact ⟨p, al, fits, free⟩

theorem alloc_pages_exact (nr fuel : Nat) (addressable : nr < 2 ^ 63) (budget : nr + maxOrder < fuel)
    (s : State) (h : (machine nr fuel).Reach s) (k : Nat) (hk : k < maxOrder) :
    ∃ r s', (allocPages fuel k).run s = .ok (r, s') ∧ (r = none ↔ ¬ HasRun s k) ∧
      ∀ p, r = some p → IsBestFit s k p := by
  obtain ⟨size, L, sound⟩ := reach_inv addressable budget h
  subst size
  rw [sound.hasRun_iff hk]
  rcases sound.allocPages k budget with
    ⟨run, empty⟩ | ⟨j, p, ps, s', L', le, hj, head, smaller, run, _, _⟩
  · refine ⟨none, s, run, ⟨fun _ => ?_, fun _ => rfl⟩, nofun⟩
    rintro ⟨j, le, hj, ne⟩
    exact ne (empty j le hj)
  · have first : ∀ q ∈ L j, p ≤ q := by
      have asc := sound.holds.ascending j
      rw [head, List.pairwise_cons] at asc
      intro q hq
      rw [head, List.mem_cons] at hq
      rcases hq with rfl | later
      · exact le_rfl
      · exact (asc.1 q later).le
    refine ⟨some p, s', run, ⟨nofun, fun none => ?_⟩, fun q e => ?_⟩
    · exact absurd ⟨j, le, hj, by rw [head]; exact List.cons_ne_nil p ps⟩ none
    · cases e
      refine ⟨j, L j, le, hj, sound.holds.chain j hj, by rw [head]; exact List.mem_cons_self,
        first, fun i lo hi => ?_⟩
      rw [sound.holds.isFreeList_iff (by omega), smaller i lo hi]

theorem alloc_pages_exact_ragged :
    ∃ s r s', (init 40 21).run (State.fresh 21) = .ok (true, s) ∧
      (allocPages 40 2).run s = .ok (r, s') ∧ (r = none ↔ ¬ HasRun s 2) ∧
      ∀ p, r = some p → IsBestFit s 2 p := by
  obtain ⟨s, run, _⟩ := init_inv (by decide : 21 < 2 ^ 31) (by decide : 21 < 40)
  obtain ⟨r, s', exact⟩ :=
    alloc_pages_exact 21 40 (by decide) (by decide) s (.start ⟨true, run⟩) 2 (by decide)
  exact ⟨s, r, s', run, exact⟩

/-! ### History independence -/

def freeAll (fuel : Nat) : List (Nat × Nat) → Exec State Unit
  | [] => pure ()
  | (b, k) :: bs => do
      freePages fuel b k
      freeAll fuel bs

/-- Blocks held at once: each could be freed, and no two share a page. -/
def Outstanding (s : State) (bs : List (Nat × Nat)) : Prop :=
  (∀ b ∈ bs, Freeable s b.1 b.2) ∧
    bs.Pairwise fun a b => Disjoint (block a.2 a.1) (block b.2 b.1)

def pagesOf (bs : List (Nat × Nat)) : Set Nat := {x | ∃ b ∈ bs, x ∈ block b.2 b.1}

theorem pagesOf_cons (b : Nat × Nat) (bs : List (Nat × Nat)) :
    pagesOf (b :: bs) = block b.2 b.1 ∪ pagesOf bs := by
  ext x
  simp [pagesOf]

theorem Sound.freeHeld {L : Lists} {F : Set Nat} {b : Nat × Nat} {bs : List (Nat × Nat)}
    (h : Sound s L F) (budget : s.nrPages + maxOrder < fuel) (out : Outstanding s (b :: bs)) :
    ∃ s' L', (Buddy.freePages fuel b.1 b.2).run s = .ok ((), s') ∧ s'.nrPages = s.nrPages ∧
      Sound s' L' (F ∪ block b.2 b.1) ∧ Outstanding s' bs := by
  obtain ⟨hk, al, hb, apart⟩ := out.1 b List.mem_cons_self
  have pages := h.freePagesOf_eq
  rw [pages] at apart
  obtain ⟨s', L', run', size', sound'⟩ := h.freePages hk al hb apart budget
  refine ⟨s', L', run', size', sound', fun c hc => ?_, (List.pairwise_cons.mp out.2).2⟩
  obtain ⟨hk', al', hb', apart'⟩ := out.1 c (List.mem_cons_of_mem b hc)
  refine ⟨hk', al', size' ▸ hb', ?_⟩
  rw [sound'.freePagesOf_eq, disjoint_union_right, ← pages]
  exact ⟨apart', ((List.pairwise_cons.mp out.2).1 c hc).symm⟩

theorem Sound.freeAll {L : Lists} {F : Set Nat} {bs : List (Nat × Nat)} (h : Sound s L F)
    (budget : s.nrPages + maxOrder < fuel) (out : Outstanding s bs) :
    ∃ s' L', (freeAll fuel bs).run s = .ok ((), s') ∧ s'.nrPages = s.nrPages ∧
      Sound s' L' (F ∪ pagesOf bs) := by
  induction bs generalizing s L F with
  | nil =>
      refine ⟨s, L, rfl, rfl, ?_⟩
      have none : pagesOf [] = ∅ := by ext x; simp [pagesOf]
      rwa [none, union_empty]
  | cons b bs ih =>
      obtain ⟨s₁, L₁, run₁, size₁, sound₁, out₁⟩ := h.freeHeld budget out
      obtain ⟨s', L', run', size', sound'⟩ := ih sound₁ (size₁ ▸ budget) out₁
      refine ⟨s', L', ?_, size'.trans size₁, ?_⟩
      · rw [Buddy.freeAll, bind_ok run₁, run']
      · rwa [pagesOf_cons, ← union_assoc]

theorem Outstanding.perm {bs bs' : List (Nat × Nat)} (h : Outstanding s bs) (e : bs.Perm bs') :
    Outstanding s bs' :=
  ⟨fun b hb => h.1 b (e.mem_iff.mpr hb), h.2.perm e fun apart => apart.symm⟩

theorem history_independent (nr fuel : Nat) (addressable : nr < 2 ^ 63)
    (budget : nr + maxOrder < fuel) :
    (∀ s s', (machine nr fuel).Reach s → (machine nr fuel).Reach s' →
      freePagesOf s = freePagesOf s' → SameLists s s') ∧
    (∀ s k p s', (machine nr fuel).Reach s → (allocPages fuel k).run s = .ok (some p, s') →
      ∃ s'', (freePages fuel p k).run s' = .ok ((), s'') ∧ SameLists s s'') ∧
    (∀ s bs bs', (machine nr fuel).Reach s → Outstanding s bs → bs.Perm bs' →
      ∃ s₁ s₂, (freeAll fuel bs).run s = .ok ((), s₁) ∧ (freeAll fuel bs').run s = .ok ((), s₂) ∧
        SameLists s₁ s₂) := by
  refine ⟨fun s s' h h' same => ?_, fun s k p s' h run => ?_, fun s bs bs' h out perm => ?_⟩
  · obtain ⟨_, L, sound⟩ := reach_inv addressable budget h
    obtain ⟨_, L', sound'⟩ := reach_inv addressable budget h'
    rw [← same] at sound'
    exact sound.sameLists sound'
  · obtain ⟨size, L, sound⟩ := reach_inv addressable budget h
    subst size
    rcases sound.allocPages k budget with
      ⟨run', _⟩ | ⟨j, q, qs, s₁, L₁, le, hj, head, _, run', size₁, sound₁⟩
    · cases run'.symm.trans run
    cases run'.symm.trans run
    obtain ⟨al, free, fits⟩ := sound.front head le
    obtain ⟨s₂, L₂, run₂, _, sound₂⟩ := sound₁.freePages (k := k) (p := p) (by omega) al (by omega)
      disjoint_sdiff_right (size₁ ▸ budget)
    refine ⟨s₂, run₂, ?_⟩
    rw [sdiff_union_of_subset free] at sound₂
    exact sound.sameLists sound₂
  · obtain ⟨size, L, sound⟩ := reach_inv addressable budget h
    subst size
    obtain ⟨s₁, L₁, run₁, _, sound₁⟩ := sound.freeAll budget out
    obtain ⟨s₂, L₂, run₂, _, sound₂⟩ := sound.freeAll budget (out.perm perm)
    have pages : pagesOf bs = pagesOf bs' := by
      ext x; simp only [pagesOf, mem_ofPred_eq, perm.mem_iff]
    rw [← pages] at sound₂
    exact ⟨s₁, s₂, run₁, run₂, sound₁.sameLists sound₂⟩

theorem history_independent_two_pages :
    ∃ s s₁ s₂, (machine 21 40).Reach s ∧ 3 ∉ freePagesOf s ∧ 4 ∉ freePagesOf s ∧
      (freeAll 40 [(3, 0), (4, 0)]).run s = .ok ((), s₁) ∧
      (freeAll 40 [(4, 0), (3, 0)]).run s = .ok ((), s₂) ∧ SameLists s₁ s₂ := by
  obtain ⟨s₀, run₀, ⟨size₀, L₀, sound₀⟩, free₀⟩ :=
    init_inv (by decide : 21 < 2 ^ 31) (by decide : 21 < 40)
  rw [free₀] at sound₀
  rcases sound₀.reservePage 3 (by omega : s₀.nrPages < 40) with
    ⟨_, s₁, L₁, run₁, size₁, sound₁⟩ | ⟨out, _⟩
  swap
  · exact absurd (by decide : 3 < 21) out
  rcases sound₁.reservePage 4 (by omega : s₁.nrPages < 40) with
    ⟨_, s₂, L₂, run₂, size₂, sound₂⟩ | ⟨out, _⟩
  swap
  · exact absurd ⟨show 4 < 21 by decide, by decide⟩ out
  have valid₁ : (machine 21 40).valid s₀ (.reserve 3) := show 3 < s₀.nrPages by omega
  have valid₂ : (machine 21 40).valid s₁ (.reserve 4) := show 4 < s₁.nrPages by omega
  have reach₁ : (machine 21 40).Reach s₁ := .step (.start ⟨true, run₀⟩) valid₁ (bind_ok run₁)
  have reach₂ : (machine 21 40).Reach s₂ := .step reach₁ valid₂ (bind_ok run₂)
  have free₂ := sound₂.freePagesOf_eq
  have page : ∀ x, x < 21 → (x = 3 ∨ x = 4) → Freeable s₂ x 0 := fun x lt e => by
    refine ⟨by decide, by simp, by omega, ?_⟩
    rw [free₂, disjoint_left]
    intro y hy hF
    rw [mem_block_zero] at hy
    subst hy
    rcases e with rfl | rfl
    · exact hF.1.2 rfl
    · exact hF.2 rfl
  have out : Outstanding s₂ [(3, 0), (4, 0)] := by
    refine ⟨by simpa using ⟨page 3 (by decide) (.inl rfl), page 4 (by decide) (.inr rfl)⟩, ?_⟩
    simp [disjoint_left, mem_block_zero]
  obtain ⟨s, s', run, run', same⟩ := (history_independent 21 40 (by decide) (by decide)).2.2
    s₂ _ _ reach₂ out (List.Perm.swap _ _ _)
  refine ⟨s₂, s, s', reach₂, ?_, ?_, run, run', same⟩
  · rw [free₂]; exact fun h => h.1.2 rfl
  · rw [free₂]; exact fun h => h.2 rfl

end Runs
end Infos.Mm.Buddy
