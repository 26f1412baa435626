import Infos.Mm.PageAllocatorRuns

/-!
# What marking writes

The loops that set type tags, as functions of the tags before, and the range of
descriptors that they index.
-/
namespace Infos.Mm.PageAllocator
open Infos.Lib Function Set

section Loops
variable {s s' : State} {type : PageDescriptorType} {pfn count : Nat}

theorem setTypes_eq (type : PageDescriptorType) (pfn count : Nat) (s : State) :
    (setTypes type pfn count).run s =
      if count = 0 ∨ pfn + count ≤ s.nrPages then
        .ok ((), { s with types := retyped s.types type pfn count })
      else .error .outOfBounds := by
  induction count generalizing s pfn with
  | zero =>
      have same : retyped s.types type pfn 0 = s.types := by
        funext x
        exact if_neg (by omega)
      rw [if_pos (.inl rfl), same]
      rfl
  | succ count ih =>
      rw [setTypes]
      by_cases here : pfn < s.nrPages
      · have write : (setType pfn type).run s =
            .ok ((), { s with types := update s.types pfn type }) := by
          unfold setType
          rw [bind_ok (run_get_eq s), if_pos here]
          rfl
        have shift : retyped (update s.types pfn type) type (pfn + 1) count =
            retyped s.types type pfn (count + 1) := by
          funext x
          simp only [retyped, update_apply]
          split_ifs <;> first | rfl | omega
        have size : ({ s with types := update s.types pfn type } : State).nrPages = s.nrPages := rfl
        rw [bind_ok write, ih, size, shift]
        have bound : (count = 0 ∨ pfn + 1 + count ≤ s.nrPages) ↔
            (count + 1 = 0 ∨ pfn + (count + 1) ≤ s.nrPages) := by omega
        simp only [bound]
      · have write : (setType pfn type).run s = .error .outOfBounds := by
          unfold setType
          rw [bind_ok (run_get_eq s), if_neg here]
          rfl
        rw [bind_error write, if_neg (by omega)]

theorem of_setTypes_ok (run : (setTypes type pfn count).run s = .ok ((), s')) :
    s' = { s with types := retyped s.types type pfn count } := by
  rw [setTypes_eq] at run
  split_ifs at run
  cases run
  rfl

/-- The pages of the NORMAL blocks of a table. -/
def normalPages (blocks : List PhysicalMemoryBlock) : Set Nat :=
  {p | ∃ b ∈ blocks, b.type = .normal ∧ b.basePfn ≤ p ∧ p < b.basePfn + b.nrPages}

/-- The loop over the blocks runs exactly when the pages of all NORMAL ones have descriptors. -/
theorem markNormal_ok_iff (blocks : List PhysicalMemoryBlock) (s : State) :
    (∃ s', (markNormal blocks).run s = .ok ((), s')) ↔
      ∀ b ∈ blocks, b.type = .normal → b.nrPages = 0 ∨ b.basePfn + b.nrPages ≤ s.nrPages := by
  induction blocks generalizing s with
  | nil => exact iff_of_true ⟨s, rfl⟩ nofun
  | cons b rest ih =>
      rw [List.forall_mem_cons, markNormal]
      by_cases normal : b.type = .normal
      · rw [if_pos normal]
        by_cases fits : b.nrPages = 0 ∨ b.basePfn + b.nrPages ≤ s.nrPages
        · have write := setTypes_eq .available b.basePfn b.nrPages s
          rw [if_pos fits] at write
          rw [bind_ok write, ih]
          exact ⟨fun h => ⟨fun _ => fits, h⟩, fun h => h.2⟩
        · have write := setTypes_eq .available b.basePfn b.nrPages s
          rw [if_neg fits] at write
          rw [bind_error write]
          exact iff_of_false (fun ⟨_, e⟩ => nomatch e) fun h => fits (h.1 normal)
      · rw [if_neg normal]
        apply (ih s).trans
        exact ⟨fun h => ⟨fun e => absurd e normal, h⟩, fun h => h.2⟩

end Loops
end Infos.Mm.PageAllocator
