import Infos.Mm.PageAllocatorAlgorithm
import Mathlib.Data.Nat.Find

/-!
# What the simple page allocator finds

Its search against the first run of available pages that is large enough. The
search starts at the first page and behind every page that is not available,
and stops where it sees nothing else from a start on.
-/
namespace Infos.Mm.PageAllocator
open Infos.Lib

/-- The block of the order at page `i` is there, and available. -/
def FreeRun (s : State) (order i : Nat) : Prop :=
  i + 2 ^ order ≤ s.nrPages ∧ ∀ x, i ≤ x → x < i + 2 ^ order → s.types x = .available

/-- The first such block, or NULL where there is none. -/
def FirstFit (s : State) (order : Nat) : Option Nat → Prop
  | none => ∀ i, ¬ FreeRun s order i
  | some p => FreeRun s order p ∧ ∀ i, i < p → ¬ FreeRun s order i

/-- The call returns the first fit, within the descriptors, and leaves them as they are. -/
def AllocatesFirstFit (s : State) (order : Nat) : Prop :=
  ∃ r, (simplePageAllocator.allocPages order).run s = .ok (r, s) ∧ FirstFit s order r

/-- The first page, or the page behind one that is not available. -/
def Start (s : State) (i : Nat) : Prop := ∀ x, i = x + 1 → s.types x ≠ .available

/-- `nr_pages` for an order. -/
def intPages (order : Nat) : Int := toInt32 ((1 <<< order : Nat) : Int)

/-- How many pages the search inspects from page `i` on. -/
def inspected (nrPages : Int) (i : Nat) : Nat := toUInt64 (i + nrPages) - i

/-- The search does not go on behind this start. -/
structure Stop (s : State) (nrPages : Int) (i : Nat) : Prop where
  inside : i < s.nrPages
  start : Start s i
  clear : ∀ x, i ≤ x → x < i + inspected nrPages i → x < s.nrPages → s.types x = .available

/-- The first place where the search stops. -/
structure FirstStop (s : State) (nrPages : Int) (i : Nat) : Prop where
  stop : Stop s nrPages i
  first : ∀ j, j < i → ¬ Stop s nrPages j

section Search
variable {s : State} {nrPages : Int}

theorem not_stop_between {idx taken i : Nat} (found : s.types taken ≠ .available)
    (near : taken < idx + inspected nrPages idx) (inside : taken < s.nrPages)
    (free : ∀ x, idx ≤ x → x < taken → s.types x = .available)
    (lo : idx ≤ i) (hi : i < taken + 1) : ¬ Stop s nrPages i := by
  intro stop
  rcases Nat.eq_or_lt_of_le lo with rfl | later
  · exact found (stop.clear taken (by omega) near inside)
  · obtain ⟨x, rfl⟩ : ∃ x, i = x + 1 := ⟨i - 1, by omega⟩
    exact stop.start x rfl (free x (by omega) (by omega))

/-- The outer loop ends where the search first stops, and there it reads behind the descriptors
if fewer pages are left than it inspects. -/
theorem firstFit_exact {fuel idx : Nat} (start : Start s idx) (le : idx ≤ s.nrPages)
    (budget : s.nrPages < idx + fuel) (before : ∀ j, j < idx → ¬ Stop s nrPages j) :
    (∃ i, FirstStop s nrPages i ∧ (firstFit nrPages fuel idx).run s =
      if i + inspected nrPages i ≤ s.nrPages then .ok (some i, s) else .error .outOfBounds) ∨
    (∀ i, ¬ Stop s nrPages i) ∧ (firstFit nrPages fuel idx).run s = .ok (none, s) := by
  induction fuel generalizing idx with
  | zero => omega
  | succ fuel ih =>
      unfold firstFit
      rw [bind_ok (run_get_eq s)]
      split_ifs with more
      · rcases firstTaken_run (s := s) idx (toUInt64 (idx + nrPages) - idx) with
          ⟨taken, le', near, inside, found, free, run⟩ | ⟨free, run⟩
        · rw [bind_ok run]
          refine ih ?_ inside (by omega) ?_
          · intro x eq
            cases eq
            exact found
          · intro j lt
            rcases Nat.lt_or_ge j idx with earlier | here
            · exact before j earlier
            · exact not_stop_between found near inside free here lt
        · have stop : Stop s nrPages idx := ⟨more, start, free⟩
          refine .inl ⟨idx, ⟨stop, before⟩, ?_⟩
          rw [max_eq_right le] at run
          split_ifs at run with enough
          · rw [bind_ok run]
            exact (if_pos enough).symm
          · rw [bind_error run]
            exact (if_neg enough).symm
      · refine .inr ⟨?_, rfl⟩
        intro i stop
        exact before i (by have := stop.inside; omega) stop

theorem allocPages_exact (s : State) (order : Nat) :
    (∃ i, FirstStop s (intPages order) i ∧ (simplePageAllocator.allocPages order).run s =
      if i + inspected (intPages order) i ≤ s.nrPages then .ok (some i, s)
      else .error .outOfBounds) ∨
    (∀ i, ¬ Stop s (intPages order) i) ∧
      (simplePageAllocator.allocPages order).run s = .ok (none, s) := by
  unfold simplePageAllocator
  dsimp only
  rw [bind_ok (run_get_eq s)]
  apply firstFit_exact
  · intro x eq
    omega
  · omega
  · omega
  · intro j lt
    omega

theorem allocatesFirstFit_iff (s : State) (order : Nat) :
    AllocatesFirstFit s order ↔
      (∃ i, FirstStop s (intPages order) i ∧ i + inspected (intPages order) i ≤ s.nrPages ∧
        FirstFit s order (some i)) ∨
      (∀ i, ¬ Stop s (intPages order) i) ∧ FirstFit s order none := by
  rcases allocPages_exact s order with ⟨i, first, run⟩ | ⟨never, run⟩
  · constructor
    · rintro ⟨r, run', fit⟩
      rw [run] at run'
      split_ifs at run' with enough
      cases run'
      exact .inl ⟨i, first, enough, fit⟩
    · rintro (⟨j, first', enough, fit⟩ | ⟨never, -⟩)
      · have eq : i = j := by
          rcases Nat.lt_trichotomy i j with lt | eq | gt
          · exact absurd first.stop (first'.first i lt)
          · exact eq
          · exact absurd first'.stop (first.first j gt)
        subst eq
        rw [if_pos enough] at run
        exact ⟨some i, run, fit⟩
      · exact absurd first.stop (never i)
  · constructor
    · rintro ⟨r, run', fit⟩
      rw [run] at run'
      cases run'
      exact .inr ⟨never, fit⟩
    · rintro (⟨i, first, -⟩ | ⟨-, fit⟩)
      · exact absurd first.stop (never i)
      · exact ⟨none, run, fit⟩

end Search

/-! ### Free runs -/

section Runs
variable {s : State} {order : Nat}

theorem FreeRun.start {i : Nat} (free : FreeRun s order i)
    (first : ∀ j, j < i → ¬ FreeRun s order j) : Start s i := by
  intro x eq available
  subst eq
  have pos := Nat.two_pow_pos order
  refine first x (Nat.lt_succ_self x) ⟨by have := free.1; omega, ?_⟩
  intro y lo hi
  rcases Nat.eq_or_lt_of_le lo with rfl | later
  · exact available
  · exact free.2 y later (by omega)

theorem FreeRun.exists_first {i : Nat} (free : FreeRun s order i) :
    ∃ j, j ≤ i ∧ FirstFit s order (some j) := by
  classical
  have found : ∃ j, FreeRun s order j := ⟨i, free⟩
  refine ⟨Nat.find found, Nat.find_min' found free, Nat.find_spec found, ?_⟩
  intro j lt
  exact Nat.find_min found lt

theorem exists_tail (s : State) (last : Nat) (length : s.nrPages = last + 1)
    (available : s.types last = .available) :
    ∃ i, i ≤ last ∧ Start s i ∧ ∀ x, i ≤ x → x < s.nrPages → s.types x = .available := by
  classical
  have found : ∃ i, ∀ x, i ≤ x → x < s.nrPages → s.types x = .available := by
    refine ⟨last, ?_⟩
    intro x lo hi
    rw [show x = last by omega]
    exact available
  refine ⟨Nat.find found, ?_, ?_, Nat.find_spec found⟩
  · apply Nat.find_min' found
    intro x lo hi
    rw [show x = last by omega]
    exact available
  · intro x eq free
    apply Nat.find_min found (m := x) (by omega)
    intro y lo hi
    rcases Nat.eq_or_lt_of_le lo with rfl | later
    · exact free
    · exact Nat.find_spec found y (by omega) hi

end Runs

/-! ### The block sizes -/

section Orders
variable {s : State}

/-- Descriptors that fit into the address space. -/
def InMemory (s : State) : Prop := sizeofPageDescriptor * s.nrPages ≤ 2 ^ 64

instance (s : State) : Decidable (InMemory s) := inferInstanceAs (Decidable (_ ≤ _))

theorem InMemory.lt (fits : InMemory s) : s.nrPages ≤ 2 ^ 60 := by
  unfold InMemory sizeofPageDescriptor at fits
  omega

theorem inspected_small {order i : Nat} (small : order < 31) (lt : i < 2 ^ 60) :
    inspected (intPages order) i = 2 ^ order := by
  have bound : 2 ^ order < 2 ^ 31 := Nat.pow_lt_pow_right (by decide) small
  unfold inspected intPages
  rw [Nat.one_shiftLeft, toInt32_natCast bound, ← Int.natCast_add, toUInt64_natCast (by omega)]
  exact Nat.add_sub_cancel_left _ _

theorem inspected_sign {i : Nat} (lt : i < 2 ^ 60) :
    inspected (intPages 31) i = if i < 2 ^ 31 then 2 ^ 64 - 2 ^ 31 else 0 := by
  unfold inspected intPages toUInt64
  rw [Nat.one_shiftLeft, toInt32_wrap (by decide) (by decide)]
  split_ifs with low <;> omega

theorem inspected_shifted {order i : Nat} (large : 32 ≤ order) (lt : i < 2 ^ 60) :
    inspected (intPages order) i = 0 := by
  have zero : intPages order = 0 := by
    rw [intPages, Nat.one_shiftLeft, toInt32]
    apply Int.bmod_eq_zero_of_dvd
    exact Int.natCast_dvd_natCast.mpr (Nat.pow_dvd_pow 2 large)
  unfold inspected
  rw [zero, Int.add_zero, toUInt64_natCast (by omega)]
  omega

theorem not_start_end {s : State} {i : Nat} (inside : i < s.nrPages)
    (free : ∀ x, i ≤ x → x < s.nrPages → s.types x = .available) : ¬ Start s s.nrPages := by
  intro start
  exact start (s.nrPages - 1) (by omega) (free _ (by omega) (by omega))

theorem exists_tail_of {s : State} (ends : ¬ Start s s.nrPages) :
    ∃ i, i < s.nrPages ∧ Start s i ∧ ∀ x, i ≤ x → x < s.nrPages → s.types x = .available := by
  unfold Start at ends
  push Not at ends
  obtain ⟨last, length, available⟩ := ends
  obtain ⟨i, le, start, free⟩ := exists_tail s last length available
  exact ⟨i, by omega, start, free⟩

theorem allocatesFirstFit_small {order : Nat} (fits : InMemory s) (small : order < 31) :
    AllocatesFirstFit s order ↔ (∃ i, FreeRun s order i) ∨ Start s s.nrPages := by
  have bound := fits.lt
  have size : ∀ i, i < s.nrPages → inspected (intPages order) i = 2 ^ order :=
    fun i lt => inspected_small small (by omega)
  have pos := Nat.two_pow_pos order
  have stopOf : ∀ i, FirstFit s order (some i) → Stop s (intPages order) i := by
    rintro i ⟨free, first⟩
    have inside : i < s.nrPages := by have := free.1; omega
    refine ⟨inside, free.start first, ?_⟩
    rw [size i inside]
    exact fun x lo hi _ => free.2 x lo hi
  rw [allocatesFirstFit_iff]
  constructor
  · rintro (⟨i, -, -, fit⟩ | ⟨never, -⟩)
    · exact .inl ⟨i, fit.1⟩
    · right
      by_contra ends
      obtain ⟨i, inside, start, free⟩ := exists_tail_of ends
      exact never i ⟨inside, start, fun x lo _ page => free x lo page⟩
  · intro meets
    by_cases found : ∃ i, FreeRun s order i
    · obtain ⟨i, free⟩ := found
      obtain ⟨j, -, fit⟩ := free.exists_first
      have inside := (stopOf j fit).inside
      refine .inl ⟨j, ⟨stopOf j fit, ?_⟩, ?_, fit⟩
      · intro k lt stop
        refine fit.2 k lt ⟨by have := fit.1.1; omega, ?_⟩
        intro x lo hi
        have := fit.1.1
        exact stop.clear x lo (by rw [size k stop.inside]; exact hi) (by omega)
      · rw [size j inside]
        exact fit.1.1
    · right
      refine ⟨?_, fun i free => found ⟨i, free⟩⟩
      intro i stop
      have free := stop.clear
      rw [size i stop.inside] at free
      by_cases enough : i + 2 ^ order ≤ s.nrPages
      · exact found ⟨i, enough, fun x lo hi => free x lo hi (by omega)⟩
      · have start := meets.resolve_left found
        exact not_start_end stop.inside (fun x lo hi => free x lo (by omega) hi) start

theorem stop_sign_iff (fits : InMemory s) (i : Nat) :
    Stop s (intPages 31) i ↔ i < s.nrPages ∧ Start s i ∧
      (i < 2 ^ 31 → ∀ x, i ≤ x → x < s.nrPages → s.types x = .available) := by
  have bound := fits.lt
  constructor
  · rintro ⟨inside, start, clear⟩
    refine ⟨inside, start, ?_⟩
    intro low x lo hi
    rw [inspected_sign (by omega), if_pos low] at clear
    exact clear x lo (by omega) hi
  · rintro ⟨inside, start, clear⟩
    refine ⟨inside, start, ?_⟩
    rw [inspected_sign (by omega)]
    intro x lo hi page
    split_ifs at hi with low
    · exact clear low x lo page
    · omega

/-- Page `t` is the first one from `2 ^ 31 - 1` on that is not available. -/
structure FirstTakenHigh (s : State) (t : Nat) : Prop where
  inside : t < s.nrPages
  taken : s.types t ≠ .available
  high : 2 ^ 31 ≤ t + 1
  first : ∀ x, 2 ^ 31 ≤ x + 1 → x < t → s.types x = .available

theorem FirstTakenHigh.not_stop {t i : Nat} (fits : InMemory s) (page : FirstTakenHigh s t)
    (le : i ≤ t) : ¬ Stop s (intPages 31) i := by
  rw [stop_sign_iff fits]
  rintro ⟨inside, start, clear⟩
  by_cases low : i < 2 ^ 31
  · exact page.taken (clear low t le page.inside)
  · obtain ⟨x, rfl⟩ : ∃ x, i = x + 1 := ⟨i - 1, by omega⟩
    exact start x rfl (page.first x (by omega) (by omega))

theorem FirstTakenHigh.stop_next {t : Nat} (fits : InMemory s) (page : FirstTakenHigh s t)
    (more : t + 1 < s.nrPages) : Stop s (intPages 31) (t + 1) := by
  refine (stop_sign_iff fits _).mpr ⟨more, ?_, ?_⟩
  · intro y eq
    rw [← Nat.succ.inj eq]
    exact page.taken
  · have := page.high
    omega

theorem FirstStop.taken_high {t : Nat} (fits : InMemory s)
    (first : FirstStop s (intPages 31) (t + 1)) (high : 2 ^ 31 ≤ t + 1) : FirstTakenHigh s t := by
  have stop := (stop_sign_iff fits _).mp first.stop
  refine ⟨by omega, stop.2.1 t rfl, high, ?_⟩
  intro x high lt
  by_contra taken
  refine first.first (x + 1) (by omega) ((stop_sign_iff fits _).mpr ⟨by omega, ?_, ?_⟩)
  · intro y eq
    cases eq
    exact taken
  · omega

theorem exists_firstTakenHigh
    (other : ¬ ∀ x, 2 ^ 31 ≤ x + 1 → x < s.nrPages → s.types x = .available) :
    ∃ t, FirstTakenHigh s t := by
  classical
  push Not at other
  obtain ⟨lo, inside, taken⟩ := Nat.find_spec other
  refine ⟨Nat.find other, inside, taken, lo, ?_⟩
  intro x lo' lt
  by_contra taken'
  exact Nat.find_min other lt ⟨lo', by omega, taken'⟩

theorem not_stop_of_free_high (fits : InMemory s)
    (free : ∀ x, 2 ^ 31 ≤ x + 1 → x < s.nrPages → s.types x = .available)
    (ends : Start s s.nrPages) (i : Nat) : ¬ Stop s (intPages 31) i := by
  intro stop
  obtain ⟨inside, start, clear⟩ := (stop_sign_iff fits i).mp stop
  by_cases low : i < 2 ^ 31
  · exact not_start_end inside (clear low) ends
  · obtain ⟨x, rfl⟩ : ∃ x, i = x + 1 := ⟨i - 1, by omega⟩
    exact start x rfl (free x (by omega) (by omega))

/-- Order 31: the search only ends at a page from `2 ^ 31` on, without looking at any. -/
theorem allocatesFirstFit_sign (fits : InMemory s) :
    AllocatesFirstFit s 31 ↔
      ((∀ x, 2 ^ 31 ≤ x + 1 → x < s.nrPages → s.types x = .available) ∧ Start s s.nrPages) ∨
      ∃ t, FirstTakenHigh s t ∧
        FirstFit s 31 (if t + 1 < s.nrPages then some (t + 1) else none) := by
  have bound := fits.lt
  rw [allocatesFirstFit_iff]
  constructor
  · rintro (⟨i, first, enough, fit⟩ | ⟨never, fit⟩)
    · have inside := first.stop.inside
      rw [inspected_sign (by omega)] at enough
      split_ifs at enough with low
      · omega
      · obtain ⟨t, rfl⟩ : ∃ t, i = t + 1 := ⟨i - 1, by omega⟩
        refine .inr ⟨t, first.taken_high fits (by omega), ?_⟩
        rw [if_pos inside]
        exact fit
    · by_cases free : ∀ x, 2 ^ 31 ≤ x + 1 → x < s.nrPages → s.types x = .available
      · refine .inl ⟨free, ?_⟩
        by_contra ends
        obtain ⟨i, inside, start, tail⟩ := exists_tail_of ends
        exact never i ((stop_sign_iff fits i).mpr ⟨inside, start, fun _ => tail⟩)
      · obtain ⟨t, page⟩ := exists_firstTakenHigh free
        refine .inr ⟨t, page, ?_⟩
        rw [if_neg fun more => never _ (page.stop_next fits more)]
        exact fit
  · rintro (⟨free, ends⟩ | ⟨t, page, fit⟩)
    · refine .inr ⟨not_stop_of_free_high fits free ends, ?_⟩
      intro i run
      have enough := run.1
      exact ends (s.nrPages - 1) (by omega) (free _ (by omega) (by omega))
    · have high := page.high
      split_ifs at fit with more
      · have stop := page.stop_next fits more
        refine .inl ⟨t + 1, ⟨stop, fun j lt => page.not_stop fits (by omega)⟩, ?_, fit⟩
        rw [inspected_sign (by omega), if_neg (by omega)]
        omega
      · refine .inr ⟨?_, fit⟩
        intro i stop
        exact page.not_stop fits (by have := stop.inside; omega) stop

/-- From order 32 on no bit of the block size is left, and the search ends at the first page. -/
theorem allocatesFirstFit_shifted {order : Nat} (fits : InMemory s) (large : 32 ≤ order) :
    AllocatesFirstFit s order ↔ s.nrPages = 0 ∨ FreeRun s order 0 := by
  have bound := fits.lt
  have pos := Nat.two_pow_pos order
  have size : ∀ i, i < s.nrPages → inspected (intPages order) i = 0 :=
    fun i lt => inspected_shifted large (by omega)
  rw [allocatesFirstFit_iff]
  constructor
  · rintro (⟨i, first, -, fit⟩ | ⟨never, -⟩)
    · right
      have first' : i = 0 := by
        by_contra later
        refine first.first 0 (by omega) ⟨by have := first.stop.inside; omega, nofun, ?_⟩
        intro x lo hi
        rw [size 0 (by have := first.stop.inside; omega)] at hi
        omega
      subst first'
      exact fit.1
    · left
      by_contra pages
      refine never 0 ⟨by omega, nofun, ?_⟩
      intro x lo hi
      rw [size 0 (by omega)] at hi
      omega
  · rintro (none | free)
    · refine .inr ⟨?_, ?_⟩
      · intro i stop
        have := stop.inside
        omega
      · intro i run
        have := run.1
        omega
    · have enough := free.1
      refine .inl ⟨0, ⟨⟨by omega, nofun, ?_⟩, fun j lt => absurd lt (by omega)⟩, ?_, free,
        fun j lt => absurd lt (by omega)⟩
      · intro x lo hi
        rw [size 0 (by omega)] at hi
        omega
      · rw [size 0 (by omega)]
        omega

/-- Which arrays and orders the search is right for. -/
inductive SearchFits (s : State) : Nat → Prop where
  /-- Something is large enough, or the last page is not available. -/
  | small {order : Nat} (small : order < 31)
      (meets : (∃ i, FreeRun s order i) ∨ Start s s.nrPages) : SearchFits s order
  /-- Nothing from page `2 ^ 31 - 1` on is taken, and the last page is. -/
  | low (free : ∀ x, 2 ^ 31 ≤ x + 1 → x < s.nrPages → s.types x = .available)
      (ends : Start s s.nrPages) : SearchFits s 31
  /-- The first fit is behind the first taken page from `2 ^ 31 - 1` on. -/
  | high {t : Nat} (page : FirstTakenHigh s t)
      (fit : FirstFit s 31 (if t + 1 < s.nrPages then some (t + 1) else none)) : SearchFits s 31
  /-- The shift has lost the block size, and the first page is the answer. -/
  | shifted {order : Nat} (large : 32 ≤ order) (meets : s.nrPages = 0 ∨ FreeRun s order 0) :
      SearchFits s order

/-- `alloc_pages` of the simple allocator is a first-fit search exactly there. -/
theorem simple_allocPages_iff (s : State) (order : Nat) (fits : InMemory s) :
    AllocatesFirstFit s order ↔ SearchFits s order := by
  constructor
  · intro allocates
    rcases Nat.lt_trichotomy order 31 with small | rfl | large
    · exact .small small ((allocatesFirstFit_small fits small).mp allocates)
    · rcases (allocatesFirstFit_sign fits).mp allocates with ⟨free, ends⟩ | ⟨t, page, fit⟩
      · exact .low free ends
      · exact .high page fit
    · exact .shifted large ((allocatesFirstFit_shifted fits large).mp allocates)
  · intro meets
    cases meets with
    | small small meets => exact (allocatesFirstFit_small fits small).mpr meets
    | low free ends => exact (allocatesFirstFit_sign fits).mpr (.inl ⟨free, ends⟩)
    | high page fit => exact (allocatesFirstFit_sign fits).mpr (.inr ⟨_, page, fit⟩)
    | shifted large meets => exact (allocatesFirstFit_shifted fits large).mpr meets

/-- Eight pages, of which only the last two are available. -/
def shortTail : State :=
  ⟨Buddy.State.fresh 8, fun p => if p < 6 then .allocated else .available⟩

/-- A pair of pages is found there. -/
theorem shortTail_pair : InMemory shortTail ∧ AllocatesFirstFit shortTail 1 := by
  refine ⟨by decide, (simple_allocPages_iff shortTail 1 (by decide)).mpr (.small (by decide) ?_)⟩
  refine .inl ⟨6, by decide, ?_⟩
  intro x lo hi
  exact if_neg (by omega)

/-- Looking for four pages, the search reads the descriptor behind the last one. -/
theorem shortTail_overrun :
    InMemory shortTail ∧ (simplePageAllocator.allocPages 2).run shortTail = .error .outOfBounds ∧
      ¬ AllocatesFirstFit shortTail 2 := by
  have run : (simplePageAllocator.allocPages 2).run shortTail = .error .outOfBounds := rfl
  refine ⟨by decide, run, ?_⟩
  rintro ⟨r, run', -⟩
  rw [run] at run'
  cases run'

end Orders

end Infos.Mm.PageAllocator
