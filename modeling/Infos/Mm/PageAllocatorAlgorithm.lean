import Infos.Mm.PageAllocator
import Mathlib.Tactic.SplitIfs

/-!
# Page allocation algorithms behind the front end

The front end calls whatever algorithm is installed through its interface. The
buddy algorithm looks at links only, the simple one at type tags only.
-/
namespace Infos.Mm.PageAllocator
open Infos.Lib

/-- What the front end calls to allocate. -/
structure PageAllocatorAlgorithm where
  allocPages : Nat → Exec State (Option Nat)

def buddyPageAllocator (fuel : Nat) : PageAllocatorAlgorithm where
  allocPages order := algorithm (Buddy.allocPages fuel order)

/-! ### The simple page allocator -/

/-- The inner loop of the simple `alloc_pages`: the first page of `count` from `subidx` on
that is not available. -/
def firstTaken : Nat → Nat → Exec State (Option Nat)
  | _, 0 => pure none
  | subidx, count + 1 => do
      if (← getType subidx) ≠ .available then pure (some subidx)
      else firstTaken (subidx + 1) count

/-- Its outer loop. `nr_pages` is an `int` and `idx + nr_pages` a `uint64_t`. -/
def firstFit (nrPages : Int) : Nat → Nat → Exec State (Option Nat)
  | 0, _ => throw .outOfFuel
  | fuel + 1, idx => do
      if idx < (← get).nrPages then
        match ← firstTaken idx (toUInt64 (idx + nrPages) - idx) with
        | none => pure (some idx)
        | some subidx => firstFit nrPages fuel (subidx + 1)
      else pure none

def simplePageAllocator : PageAllocatorAlgorithm where
  allocPages order := do firstFit (toInt32 ((1 <<< order : Nat) : Int)) ((← get).nrPages + 1) 0

section Simple
variable {s : State}

theorem getType_run {pgd : Nat} (inside : pgd < s.nrPages) :
    (getType pgd).run s = .ok (s.types pgd, s) := by
  rw [getType, bind_ok (run_get_eq s), if_pos inside]
  rfl

theorem getType_outside {pgd : Nat} (outside : ¬ pgd < s.nrPages) :
    (getType pgd).run s = .error .outOfBounds := by
  rw [getType, bind_ok (run_get_eq s), if_neg outside]
  rfl

/-- The inner loop finds the first page that is not available, has seen only available ones, or
has seen only available ones and reads behind the descriptors. -/
theorem firstTaken_run (subidx count : Nat) :
    (∃ taken, subidx ≤ taken ∧ taken < subidx + count ∧ taken < s.nrPages ∧
      s.types taken ≠ .available ∧
      (∀ x, subidx ≤ x → x < taken → s.types x = .available) ∧
      (firstTaken subidx count).run s = .ok (some taken, s)) ∨
    (∀ x, subidx ≤ x → x < subidx + count → x < s.nrPages → s.types x = .available) ∧
      (firstTaken subidx count).run s =
        if subidx + count ≤ max subidx s.nrPages then .ok (none, s) else .error .outOfBounds := by
  induction count generalizing subidx with
  | zero =>
      right
      refine ⟨fun x lo hi => absurd hi (by omega), ?_⟩
      rw [if_pos (by omega)]
      rfl
  | succ count ih =>
      unfold firstTaken
      by_cases inside : subidx < s.nrPages
      · rw [bind_ok (getType_run inside)]
        by_cases taken : s.types subidx ≠ .available
        · left
          rw [if_pos taken]
          exact ⟨subidx, le_rfl, by omega, inside, taken, fun x lo hi => absurd hi (by omega), rfl⟩
        · rw [if_neg taken]
          have here : s.types subidx = .available := not_not.mp taken
          have rest : ∀ x, subidx ≤ x → x = subidx ∨ subidx + 1 ≤ x := by omega
          rcases ih (subidx + 1) with ⟨t, le, lt, page, found, free, run⟩ | ⟨free, run⟩
          · left
            refine ⟨t, by omega, by omega, page, found, ?_, run⟩
            intro x lo hi
            rcases rest x lo with rfl | later
            · exact here
            · exact free x later hi
          · right
            refine ⟨?_, ?_⟩
            · intro x lo hi page
              rcases rest x lo with rfl | later
              · exact here
              · exact free x later (by omega) page
            · rw [run]
              apply if_congr _ rfl rfl
              omega
      · right
        refine ⟨fun x lo hi page => absurd page (by omega), ?_⟩
        rw [bind_error (getType_outside inside), if_neg (by omega)]

theorem firstFit_run {nrPages : Int} {fuel idx : Nat} (start : idx ≤ s.nrPages)
    (budget : s.nrPages < idx + fuel) :
    (firstFit nrPages fuel idx).run s = .error .outOfBounds ∨
    ∃ r, (firstFit nrPages fuel idx).run s = .ok (r, s) ∧
      ∀ p, r = some p → ∀ x, p ≤ x → x < toUInt64 (p + nrPages) → s.types x = .available := by
  induction fuel generalizing idx with
  | zero => omega
  | succ fuel ih =>
      unfold firstFit
      rw [bind_ok (run_get_eq s)]
      split_ifs with more
      · rcases firstTaken_run (s := s) idx (toUInt64 (idx + nrPages) - idx) with
          ⟨taken, le, lt, inside, -, -, run⟩ | ⟨free, run⟩
        · rw [bind_ok run]
          exact ih inside (by omega)
        · split_ifs at run with enough
          · rw [bind_ok run]
            refine .inr ⟨some idx, rfl, ?_⟩
            intro p found x lo hi
            cases found
            exact free x lo (by omega) (by omega)
          · exact .inl (bind_error run)
      · exact .inr ⟨none, rfl, nofun⟩

theorem simplePageAllocator_run (order : Nat) :
    (simplePageAllocator.allocPages order).run s = .error .outOfBounds ∨
    ∃ r, (simplePageAllocator.allocPages order).run s = .ok (r, s) ∧
      ∀ p, r = some p → ∀ x, p ≤ x →
        x < toUInt64 (p + toInt32 ((1 <<< order : Nat) : Int)) → s.types x = .available := by
  unfold simplePageAllocator
  dsimp only
  rw [bind_ok (run_get_eq s)]
  exact firstFit_run (Nat.zero_le _) (by omega)

end Simple

/-! ### The front end -/

/-- The loop of `alloc_pages` on an unchecked pointer. -/
def retypeUnchecked (old new : PageDescriptorType) : Option Nat → Nat → Exec State Unit
  | _, 0 => pure ()
  | none, _ + 1 => throw .nullDeref
  | some pgd, count + 1 => retype old new pgd (count + 1)

/-- `alloc_pages` with any algorithm, or none, installed; `1u << order` is an `unsigned int`. -/
def allocPagesBy (installed : Option PageAllocatorAlgorithm) (order : Nat) :
    Exec State (Option Nat) := do
  match installed with
  | none => pure none
  | some algorithm => do
      let pgd ← algorithm.allocPages order
      retypeUnchecked .available .allocated pgd ((1 <<< order) % 2 ^ 32)
      pure pgd

theorem pages_of_order {order : Nat} (small : order < 32) :
    ∃ count, (1 <<< order) % 2 ^ 32 = count + 1 ∧ 1 <<< order = count + 1 := by
  have pos := Nat.two_pow_pos order
  have lt : 2 ^ order < 2 ^ 32 := Nat.pow_lt_pow_right (by decide) small
  refine ⟨2 ^ order - 1, ?_, ?_⟩
  · rw [Nat.one_shiftLeft, Nat.mod_eq_of_lt lt]
    omega
  · rw [Nat.one_shiftLeft]
    omega

theorem allocPagesBy_buddy (fuel : Nat) {order : Nat} (small : order < 32) :
    allocPagesBy (some (buddyPageAllocator fuel)) order = allocPages fuel order := by
  obtain ⟨count, word, pages⟩ := pages_of_order small
  unfold allocPagesBy allocPages buddyPageAllocator
  rw [word, pages]
  dsimp only
  apply bind_congr
  intro pgd
  cases pgd with
  | none => rfl
  | some p => rfl

theorem allocPagesBy_null {algorithm : PageAllocatorAlgorithm} {order : Nat} {s s' : State}
    (small : order < 32) (failed : (algorithm.allocPages order).run s = .ok (none, s')) :
    (allocPagesBy (some algorithm) order).run s = .error .nullDeref := by
  obtain ⟨count, word, -⟩ := pages_of_order small
  unfold allocPagesBy
  rw [word]
  dsimp only
  rw [bind_ok failed]
  rfl

theorem allocPagesBy_ne_null {algorithm : PageAllocatorAlgorithm} {order : Nat} {s s' : State}
    (small : order < 32) :
    (allocPagesBy (some algorithm) order).run s ≠ .ok (none, s') := by
  intro run
  have returned := run
  unfold allocPagesBy at returned
  dsimp only at returned
  obtain ⟨pgd, s₁, called, loop⟩ := of_bind_ok returned
  obtain ⟨_, s₂, _, result⟩ := of_bind_ok loop
  cases result
  rw [allocPagesBy_null small called] at run
  cases run

end Infos.Mm.PageAllocator
