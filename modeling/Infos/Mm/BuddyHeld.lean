import Infos.Lib.Triple
import Infos.Mm.BuddyRuns

/-!
# Blocks held by clients

`Holding F₀ held s`: of the pages `F₀` that started free, those of the held
blocks are out and the others are free.
-/
namespace Infos.Mm.Buddy
open Infos.Lib Function Set

structure Holding (nr : Nat) (F₀ : Set Nat) (held : List (Nat × Nat)) (s : State) : Prop where
  size : s.nrPages = nr
  sound : ∃ L, Sound s L (freePagesOf s)
  split : freePagesOf s ∪ pagesOf held = F₀
  outstanding : Outstanding s held

section Holding
variable {nr fuel k p : Nat} {F₀ : Set Nat} {held held' : List (Nat × Nat)} {s : State}

theorem Sound.holding_nil {L : Lists} (h : Sound s L F₀) (size : s.nrPages = nr) :
    Holding nr F₀ [] s where
  size := size
  sound := ⟨L, h.freePagesOf_eq ▸ h⟩
  split := by
    rw [h.freePagesOf_eq]
    ext x
    simp [pagesOf]
  outstanding := ⟨fun b hb => absurd hb List.not_mem_nil, List.Pairwise.nil⟩

theorem Holding.sound_nil (h : Holding nr F₀ [] s) : ∃ L, Sound s L F₀ := by
  obtain ⟨L, sound⟩ := h.sound
  have all : freePagesOf s = F₀ := by
    rw [← h.split]
    ext x
    simp [pagesOf]
  exact ⟨L, all ▸ sound⟩

theorem Holding.perm (h : Holding nr F₀ held s) (e : held.Perm held') : Holding nr F₀ held' s where
  size := h.size
  sound := h.sound
  split := by
    rw [← h.split]
    congr 1
    ext x
    simp only [pagesOf, mem_ofPred_eq, e.mem_iff]
  outstanding := h.outstanding.perm e

/-- A block handed out joins the held ones. -/
theorem Holding.hold {s' : State} {L' : Lists} (h : Holding nr F₀ held s) (hk : k < maxOrder)
    (al : 2 ^ k ∣ p) (free : block k p ⊆ freePagesOf s) (size' : s'.nrPages = s.nrPages)
    (sound' : Sound s' L' (freePagesOf s \ block k p)) : Holding nr F₀ ((p, k) :: held) s' := by
  obtain ⟨L, sound⟩ := h.sound
  have pos := Nat.two_pow_pos k
  have last := sound.inside _ (free (mem_block.mpr ⟨show p ≤ p + 2 ^ k - 1 by omega, by omega⟩))
  have pages := sound'.freePagesOf_eq
  refine ⟨size'.trans h.size, ⟨L', pages ▸ sound'⟩, ?_, ?_, ?_⟩
  · rw [pages, pagesOf_cons, ← union_assoc, sdiff_union_of_subset free, h.split]
  · intro b hb
    rcases List.mem_cons.mp hb with rfl | hb
    · refine ⟨hk, al, by rw [size']; dsimp only; omega, ?_⟩
      rw [pages]
      exact disjoint_sdiff_right
    · obtain ⟨hk', al', hb', apart⟩ := h.outstanding.1 b hb
      refine ⟨hk', al', size' ▸ hb', ?_⟩
      rw [pages]
      exact apart.mono_right sdiff_subset
  · refine List.pairwise_cons.mpr ⟨fun b hb => ?_, h.outstanding.2⟩
    exact (h.outstanding.1 b hb).2.2.2.symm.mono_left free

theorem Holding.alloc (h : Holding nr F₀ held s) (budget : nr + maxOrder < fuel) :
    (allocPages fuel k).run s = .ok (none, s) ∨
    ∃ p s', (allocPages fuel k).run s = .ok (some p, s') ∧ block k p ⊆ freePagesOf s ∧
      freePagesOf s' = freePagesOf s \ block k p ∧ Holding nr F₀ ((p, k) :: held) s' := by
  obtain ⟨L, sound⟩ := h.sound
  rcases sound.allocPages k (h.size ▸ budget) with
    ⟨run, _⟩ | ⟨j, p, ps, s', L', le, hj, head, _, run, size', sound'⟩
  · exact .inl run
  · obtain ⟨al, free, -⟩ := sound.front head le
    have pages := sound'.freePagesOf_eq
    exact .inr ⟨p, s', run, free, pages, h.hold (by omega) al free size' sound'⟩

theorem Holding.reserve (h : Holding nr F₀ held s) (budget : nr < fuel) :
    (reservePage fuel p).run s = .ok (false, s) ∨
    ∃ s', (reservePage fuel p).run s = .ok (true, s') ∧ Holding nr F₀ ((p, 0) :: held) s' := by
  obtain ⟨L, sound⟩ := h.sound
  rcases sound.reservePage p (h.size ▸ budget) with ⟨free, s', L', run, size', sound'⟩ | ⟨_, run⟩
  · have single : block 0 p = {p} := by ext y; rw [mem_block_zero]; rfl
    refine .inr ⟨s', run, h.hold (by decide) (by simp) ?_ size' (single ▸ sound')⟩
    rw [single]
    exact singleton_subset_iff.mpr free
  · exact .inl run

/-- A held block can be freed, and its pages are free again. -/
theorem Holding.free (h : Holding nr F₀ ((p, k) :: held) s) (budget : nr + maxOrder < fuel) :
    ∃ s', (freePages fuel p k).run s = .ok ((), s') ∧
      freePagesOf s' = freePagesOf s ∪ block k p ∧ Holding nr F₀ held s' := by
  obtain ⟨L, sound⟩ := h.sound
  obtain ⟨s', L', run, size', sound', out'⟩ := sound.freeHeld (h.size ▸ budget) h.outstanding
  have pages := sound'.freePagesOf_eq
  refine ⟨s', run, pages, size'.trans h.size, ⟨L', pages ▸ sound'⟩, ?_, out'⟩
  rw [pages, union_assoc, ← pagesOf_cons (p, k), h.split]

end Holding
end Infos.Mm.Buddy
