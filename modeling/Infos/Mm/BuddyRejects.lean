import Infos.Mm.BuddyRuns

/-!
# What `free_pages` refuses

The scan before the block is inserted looks for the first and the last page of
the block only, and only in free blocks that start before the last page.
-/
namespace Infos.Mm.Buddy
open Infos.Lib Function Set

/-- `free_pages` up to the call of `insert_block`, which is its first store. -/
def checkFree (fuel pgd order : Nat) : Exec State Unit := do
  assertThat (isCorrectAlignmentForOrder pgd order)
  checkNotFree fuel pgd order maxOrder

theorem freePages_eq (fuel pgd order : Nat) :
    freePages fuel pgd order = (do
      checkFree fuel pgd order
      let _ ← insertBlock fuel pgd order
      coalesce fuel fuel (buddyOf (← get).nrPages pgd order) order) := by
  rw [freePages, checkFree, bind_assoc]

/-- `free_pages` stops on an assertion, and does so before its first store. -/
def Rejects (fuel : Nat) (s : State) (b k : Nat) : Prop :=
  (checkFree fuel b k).run s = .error .assertion

theorem Rejects.stops {fuel : Nat} {s : State} {b k : Nat} (h : Rejects fuel s b k) :
    (freePages fuel b k).run s = .error .assertion := by
  rw [freePages_eq]
  exact bind_error h

/-- Some page of the block is in a free block. -/
def PartlyFree (s : State) (b k : Nat) : Prop := ∃ x ∈ block k b, x ∈ freePagesOf s

def StartsFree (s : State) (j p : Nat) : Prop := ∃ xs, IsFreeList s j xs ∧ p ∈ xs

/-- The double frees that pass: a single page that starts a free block, and a longer block
with free pages whose first page is not free and whose last is not free either, or is a
free block by itself. -/
def Missed (s : State) (b k : Nat) : Prop :=
  if k = 0 then ∃ j < maxOrder, StartsFree s j b
  else PartlyFree s b k ∧ b ∉ freePagesOf s ∧
    (b + 2 ^ k - 1 ∈ freePagesOf s → StartsFree s 0 (b + 2 ^ k - 1))

section Scan
variable {s : State} {L : Lists} {F : Set Nat} {b k fuel : Nat}

theorem Holds.startsFree_iff (h : Holds s L) {j p : Nat} (hj : j < maxOrder) :
    StartsFree s j p ↔ p ∈ L j := by
  constructor
  · rintro ⟨xs, list, hp⟩
    rw [h.isFreeList_iff hj] at list
    subst list
    exact hp
  · exact fun hp => ⟨L j, h.chain j hj, hp⟩

theorem Tiled.starts_before (h : Tiled s L F) {x : Nat} (hx : x ∈ F)
    (inner : ∀ j, x ∈ L j → False) : ∃ j, ∃ q ∈ L j, q < x ∧ x ∈ block j q := by
  obtain ⟨j, q, hq, here⟩ := (h.tiling.cover x).mp hx
  have le := (mem_block.mp here).1
  refine ⟨j, q, hq, Nat.lt_of_le_of_ne le ?_, here⟩
  rintro rfl
  exact inner j hq

/-- The last page of a block of two pages or more starts a free block only by itself. -/
theorem Tiled.last_alone (h : Tiled s L F) (al : 2 ^ k ∣ b) (long : k ≠ 0) {j : Nat}
    (hj : b + 2 ^ k - 1 ∈ L j) : j = 0 := by
  have pos := Nat.two_pow_pos k
  have even : 2 ∣ b + 2 ^ k :=
    (dvd_pow_self 2 long).trans (Nat.dvd_add al dvd_rfl)
  by_contra ne
  have two : 2 ∣ b + 2 ^ k - 1 := (dvd_pow_self 2 ne).trans (h.aligned hj)
  omega

theorem Tiled.caught_page_iff (h : Tiled s L F) :
    (∃ ord < maxOrder, ∃ q ∈ L ord, Caught b 0 ord q) ↔
      b ∈ F ∧ ¬ ∃ j < maxOrder, StartsFree s j b := by
  constructor
  · rintro ⟨ord, _, q, hq, before, seen⟩
    have here : b ∈ block ord q := by simpa using seen
    refine ⟨h.tiling.subset hq here, ?_⟩
    rintro ⟨j, hj, start⟩
    have same := (h.tiling.disjoint ((h.holds.startsFree_iff hj).mp start) hq
      (start_mem_block j b) here).2
    simp only [pow_zero, Nat.add_sub_cancel] at before
    omega
  · rintro ⟨free, inner⟩
    obtain ⟨j, q, hq, before, here⟩ := h.starts_before free fun j hj =>
      inner ⟨j, h.order_lt hj, (h.holds.startsFree_iff (h.order_lt hj)).mpr hj⟩
    exact ⟨j, h.order_lt hq, q, hq, by simpa using before, .inl here⟩

theorem Tiled.caught_block_iff (h : Tiled s L F) (al : 2 ^ k ∣ b) (long : k ≠ 0) :
    (∃ ord < maxOrder, ∃ q ∈ L ord, Caught b k ord q) ↔
      b ∈ F ∨ b + 2 ^ k - 1 ∈ F ∧ ¬ StartsFree s 0 (b + 2 ^ k - 1) := by
  have two : 2 ≤ 2 ^ k := Nat.le_self_pow long 2
  constructor
  · rintro ⟨ord, _, q, hq, before, here | here⟩
    · exact .inl (h.tiling.subset hq here)
    · refine .inr ⟨h.tiling.subset hq here, ?_⟩
      intro alone
      have start := (h.holds.startsFree_iff (by decide)).mp alone
      have same := (h.tiling.disjoint start hq (start_mem_block 0 _) here).2
      omega
  · rintro (free | ⟨free, inner⟩)
    · obtain ⟨j, q, hq, here⟩ := (h.tiling.cover b).mp free
      have le := (mem_block.mp here).1
      exact ⟨j, h.order_lt hq, q, hq, by omega, .inl here⟩
    · obtain ⟨j, q, hq, before, here⟩ := h.starts_before free fun j hj => by
        cases h.last_alone al long hj
        exact inner ((h.holds.startsFree_iff (by decide)).mpr hj)
      exact ⟨j, h.order_lt hq, q, hq, before, .inr here⟩

theorem Tiled.caught_iff (h : Tiled s L F) (pages : freePagesOf s = F) (al : 2 ^ k ∣ b) :
    (∃ ord < maxOrder, ∃ q ∈ L ord, Caught b k ord q) ↔ PartlyFree s b k ∧ ¬ Missed s b k := by
  have pos := Nat.two_pow_pos k
  have first := start_mem_block k b
  have last : b + 2 ^ k - 1 ∈ block k b := mem_block.mpr ⟨by omega, by omega⟩
  unfold Missed PartlyFree
  rw [pages]
  by_cases single : k = 0
  · subst single
    have page : (∃ x ∈ block 0 b, x ∈ F) ↔ b ∈ F := by
      constructor
      · rintro ⟨x, hx, free⟩
        rwa [← mem_block_zero.mp hx]
      · exact fun free => ⟨b, first, free⟩
    rw [if_pos rfl, page]
    exact h.caught_page_iff
  · rw [if_neg single, h.caught_block_iff al single]
    constructor
    · rintro (free | ⟨free, inner⟩)
      · exact ⟨⟨b, first, free⟩, fun missed => missed.2.1 free⟩
      · exact ⟨⟨_, last, free⟩, fun missed => inner (missed.2.2 free)⟩
    · rintro ⟨partly, caught⟩
      by_contra unseen
      rw [not_or, not_and, not_not] at unseen
      exact caught ⟨partly, unseen⟩

/-- The scan, on an aligned block: it stops exactly at the double frees that are not missed. -/
theorem Sound.checkFree (h : Sound s L F) (al : 2 ^ k ∣ b) (budget : s.nrPages < fuel) :
    (PartlyFree s b k ∧ ¬ Missed s b k) ∧ Rejects fuel s b k ∨
    ¬ (PartlyFree s b k ∧ ¬ Missed s b k) ∧ (checkFree fuel b k).run s = .ok ((), s) := by
  have caught := h.toTiled.caught_iff h.freePagesOf_eq al
  unfold Rejects Buddy.checkFree
  rw [bind_ok (assertThat_run (aligned_iff.mpr al)), ← caught]
  rcases h.holds.checkNotFree (p := b) (k := k) budget le_rfl with found | ⟨none, run⟩
  · exact .inl found
  · refine .inr ⟨?_, run⟩
    rintro ⟨ord, lt, q, hq, here⟩
    exact none ord lt q hq here

theorem Sound.rejects_iff (h : Sound s L F) (al : 2 ^ k ∣ b) (budget : s.nrPages < fuel) :
    Rejects fuel s b k ↔ PartlyFree s b k ∧ ¬ Missed s b k := by
  rcases h.checkFree al budget with ⟨caught, rejects⟩ | ⟨passed, run⟩
  · exact iff_of_true rejects caught
  · refine iff_of_false ?_ passed
    unfold Rejects
    rw [run]
    exact nofun

theorem Tiled.missed_partlyFree (h : Tiled s L F) (missed : Missed s b k) : PartlyFree s b k := by
  unfold Missed at missed
  split_ifs at missed
  · obtain ⟨j, hj, start⟩ := missed
    have free := h.tiling.subset ((h.holds.startsFree_iff hj).mp start) (start_mem_block j b)
    exact ⟨b, start_mem_block k b, h.freePagesOf_eq ▸ free⟩
  · exact missed.1

end Scan

/-! ### Runs with frees that may be refused -/

/-- Any aligned block inside memory may be freed, free pages or not, unless its double free
would be missed. -/
def Op.Attempted (s : State) : Op → Prop
  | .alloc _ => True
  | .reserve p => p < s.nrPages
  | .free b k => k < maxOrder ∧ 2 ^ k ∣ b ∧ b + 2 ^ k ≤ s.nrPages ∧ ¬ Missed s b k

def attempts (nr fuel : Nat) : Machine State Op Reply :=
  { machine nr fuel with valid := fun s op => op.Attempted s }

section Attempts
variable {nr fuel : Nat} {s s' : State}

theorem Inv.valid_of_attempted (h : Inv nr s) (budget : nr + maxOrder < fuel) {op : Op}
    {out : Reply} (attempted : op.Attempted s) (run : (op.run fuel).run s = .ok (out, s')) :
    op.Valid s := by
  obtain ⟨size, L, sound⟩ := h
  cases op with
  | alloc k => trivial
  | reserve p => exact attempted
  | free b k =>
      obtain ⟨hk, al, hb, unmissed⟩ := attempted
      refine ⟨hk, al, hb, ?_⟩
      rw [disjoint_left]
      intro x hx free
      have rejects := (sound.rejects_iff (k := k) al (by omega : s.nrPages < fuel)).mpr
        ⟨⟨x, hx, free⟩, unmissed⟩
      rw [Op.run, bind_error rejects.stops] at run
      cases run

theorem attempts_inv (addressable : nr < 2 ^ 63) (budget : nr + maxOrder < fuel)
    (h : (attempts nr fuel).Reach s) : Inv nr s := by
  induction h with
  | start start => exact reach_inv addressable budget (.start start)
  | step _ attempted run ih =>
      obtain ⟨out, s₁, run', inv, _⟩ := ih.step budget (ih.valid_of_attempted budget attempted run)
      cases run'.symm.trans run
      exact inv

/-- `free_pages` refuses exactly the blocks with a free page, but for the missed ones. -/
theorem free_pages_rejects_iff (nr fuel : Nat) (addressable : nr < 2 ^ 63)
    (budget : nr + maxOrder < fuel) (s : State) (h : (attempts nr fuel).Reach s) (k b : Nat)
    (al : 2 ^ k ∣ b) :
    (Rejects fuel s b k ↔ PartlyFree s b k) ↔ ¬ Missed s b k := by
  obtain ⟨size, L, sound⟩ := attempts_inv addressable budget h
  have missed := sound.toTiled.missed_partlyFree (b := b) (k := k)
  rw [sound.rejects_iff al (by omega : s.nrPages < fuel)]
  tauto

theorem free_pages_rejects_iff_pair :
    ∃ s, (attempts 21 40).Reach s ∧ ((Rejects 40 s 2 1 ↔ PartlyFree s 2 1) ↔ ¬ Missed s 2 1) := by
  obtain ⟨s, run, _⟩ := init_inv (by decide : 21 < 2 ^ 31) (by decide : 21 < 40)
  have reach : (attempts 21 40).Reach s := .start ⟨true, run⟩
  exact ⟨s, reach, free_pages_rejects_iff 21 40 (by decide) (by decide) s reach 1 2 (by decide)⟩

/-- Page 20 is a free block of order 0 from the start. Freeing it again passes the scan, makes
it its own successor, and the search for its buddy does not end. -/
theorem double_free_missed :
    ∃ s, (machine 21 40).Reach s ∧ ¬ (Rejects 40 s 20 0 ↔ PartlyFree s 20 0) ∧
      (freePages 40 20 0).run s = .error .outOfFuel := by
  obtain ⟨s, run, _, free⟩ := init_inv (by decide : 21 < 2 ^ 31) (by decide : 21 < 40)
  have passed : endsWith (init 40 21 >>= fun _ => checkFree 40 20 0) (State.fresh 21)
    (fun _ _ => true) = true := by rfl
  have looped : (init 40 21 >>= fun _ => freePages 40 20 0).run (State.fresh 21) =
    .error .outOfFuel := by rfl
  rw [bind_ok run] at looped
  obtain ⟨_, s', passes, _⟩ := of_endsWith passed
  rw [bind_ok run] at passes
  refine ⟨s, .start ⟨true, run⟩, ?_, looped⟩
  intro same
  have rejects := same.mpr ⟨20, start_mem_block 0 20, by rw [free]; exact by decide⟩
  rw [Rejects, passes] at rejects
  cases rejects

end Attempts
end Infos.Mm.Buddy
