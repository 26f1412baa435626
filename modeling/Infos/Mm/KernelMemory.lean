import Infos.Mm.AddressSpaces
import Infos.Mm.MemoryMap
import Infos.Mm.PageDraws

/-!
# The memory of the kernel

All address spaces over the page allocator that serves them, beside the other callers of the page
allocator. What the areas are promised of their pages is what the allocator keeps, so from the
marking of the descriptors on no hypothesis about it is left.
-/
namespace Infos.Mm
open Infos.Lib Function PageAllocator Set

/-! ### The kernel -/

/-- The page allocator, memory, the areas in the order in which they were made, and the blocks of
the other callers of the page allocator, such as the kernel's heap. -/
structure KernelMemory where
  pgalloc : PageAllocator.State
  mem : Nat → BitVec 64
  areas : List Vma.Area
  heap : List (Nat × Nat)

namespace KernelMemory

/-- What an operation on an area works on. The frames come from the page allocator. -/
def view (k : KernelMemory) (a : Vma.Area) : System where
  pgalloc := k.pgalloc
  vma :=
    { mem := k.mem
      frames := []
      pageAllocations := a.pageAllocations
      pgtPhysBase := a.pgtPhysBase
      pgtVirtBase := a.pgtVirtBase }

/-- What it leaves behind. -/
def put (k : KernelMemory) (i : Nat) (s : System) : KernelMemory :=
  { k with pgalloc := s.pgalloc, mem := s.vma.mem, areas := k.areas.set i s.vma.area }

def add (k : KernelMemory) (s : System) : KernelMemory :=
  { k with pgalloc := s.pgalloc, mem := s.vma.mem, areas := k.areas ++ [s.vma.area] }

/-- The blocks that were handed out and not freed. -/
def blocks (k : KernelMemory) : List (Nat × Nat) :=
  k.areas.flatMap (fun a => blocksOf a.pageAllocations) ++ k.heap

/-- The frames that the areas took. An area never gives one back. -/
def allocated (k : KernelMemory) : List Nat :=
  k.areas.flatMap fun a => a.pageAllocations.map Vma.PageAllocation.descriptorBase

/-- The areas over a list of answers of the page allocator. -/
def memory (k : KernelMemory) (frames : List Nat) : Vma.Memory where
  mem := k.mem
  frames := frames
  areas := fun i => k.areas[i]?

/-- A step of a process, or of the kernel for it or for itself. The pages `F₀` are those that
`init` left to the page allocator; the kernel writes to all others and to its heap. -/
inductive Step (fuel : Nat) (F₀ : Set Nat) (k : KernelMemory) : Option Nat → KernelMemory → Prop
  | create {template : Option (Nat → BitVec 64)} {s : System} :
      (System.create (some (buddyPageAllocator fuel)) template).run (k.view .empty) = .ok ((), s) →
      Step fuel F₀ k (some k.areas.length) (k.add s)
  | allocatePhys {i : Nat} {a : Vma.Area} {order : Nat} {r : Option Nat} {s : System} :
      k.areas[i]? = some a → order < 32 →
      (System.allocatePhys (some (buddyPageAllocator fuel)) order).run (k.view a) = .ok (r, s) →
      Step fuel F₀ k (some i) (k.put i s)
  | allocateVirt {i : Nat} {a : Vma.Area} {va : BitVec 64} {nrPages : Int} {r : Bool} {s : System} :
      k.areas[i]? = some a → 0 ≤ nrPages → nrPages < 2 ^ 31 →
      va.toNat / 4096 + 2 ^ Vma.log2ceil (toUInt64 nrPages) ≤ 2 ^ 35 →
      (System.allocateVirt (some (buddyPageAllocator fuel)) va nrPages).run (k.view a) =
        .ok (r, s) →
      Step fuel F₀ k (some i) (k.put i s)
  | copyTo {i : Nat} {a : Vma.Area} {va : BitVec 64} {src : List Byte} {r : Bool} {s : System} :
      k.areas[i]? = some a → va.toNat < 2 ^ 47 → va.toNat + src.length ≤ 2 ^ 47 →
      Vma.Consecutive (k.view a).vma va src.length →
      (System.onVma (Vma.copyTo va src)).run (k.view a) = .ok (r, s) →
      Step fuel F₀ k (some i) (k.put i s)
  | store {i : Nat} {a : Vma.Area} {P : Nat → Prop} {mem : Nat → BitVec 64} :
      k.areas[i]? = some a → (∀ x, (∀ f, P f → ¬ Vma.InPage f x) → mem x = k.mem x) →
      (∀ f, P f → Vma.Held (k.view a).vma f ∧ ¬ Vma.TableFrame (k.view a).vma f) →
      Step fuel F₀ k (some i) { k with mem := mem }
  | heapAlloc {order pgd : Nat} {p : PageAllocator.State} :
      (allocPages fuel order).run k.pgalloc = .ok (some pgd, p) →
      Step fuel F₀ k none { k with pgalloc := p, heap := (pgd, order) :: k.heap }
  | heapFree {b : Nat × Nat} {p : PageAllocator.State} : b ∈ k.heap →
      (freePages fuel b.1 b.2).run k.pgalloc = .ok ((), p) →
      Step fuel F₀ k none { k with pgalloc := p, heap := k.heap.erase b }
  | heapStore {P : Nat → Prop} {mem : Nat → BitVec 64} :
      (∀ x, (∀ f, P f → ¬ Vma.InPage f x) → mem x = k.mem x) →
      (∀ f, P f → f ∉ F₀ ∨ f ∈ Buddy.pagesOf k.heap) →
      Step fuel F₀ k none { k with mem := mem }

/-- Steps with those that they were made for, the last one first. -/
inductive Runs (fuel : Nat) (F₀ : Set Nat) (k : KernelMemory) :
    List (Option Nat) → KernelMemory → Prop
  | refl : Runs fuel F₀ k [] k
  | step {whose : List (Option Nat)} {k₁ k' : KernelMemory} {who : Option Nat} :
      Runs fuel F₀ k whose k₁ → Step fuel F₀ k₁ who k' → Runs fuel F₀ k (who :: whose) k'

/-- What `init` left, before the first process and the first allocation. -/
def booted (p : PageAllocator.State) (mem : Nat → BitVec 64) : KernelMemory := ⟨p, mem, [], []⟩

/-- The page allocator knows who holds what, and the areas have pages of the direct map. -/
structure Supplied (nr : Nat) (F₀ : Set Nat) (k : KernelMemory) : Prop where
  tagged : Tagged nr F₀ ⟨k.pgalloc, k.blocks⟩
  low : ∀ f ∈ k.allocated, f < 2 ^ 20

/-! ### Who has which page -/

section Owners
variable {nr fuel i j : Nat} {F₀ : Set Nat} {k : KernelMemory} {a b : Vma.Area}

theorem apart_of_disjoint {x y : Nat × Nat}
    (apart : Disjoint (block x.2 x.1) (block y.2 y.1)) :
    x.1 + 2 ^ x.2 ≤ y.1 ∨ y.1 + 2 ^ y.2 ≤ x.1 := by
  by_contra meet
  have pos := Nat.two_pow_pos x.2
  have pos' := Nat.two_pow_pos y.2
  have common : max x.1 y.1 ∈ block x.2 x.1 := mem_block.mpr (by omega)
  have common' : max x.1 y.1 ∈ block y.2 y.1 := mem_block.mpr (by omega)
  exact disjoint_left.mp apart common common'

theorem held_iff {allocations : List Vma.PageAllocation} {f : Nat} :
    (∃ x ∈ allocations, x.Has f) ↔ f ∈ Buddy.pagesOf (blocksOf allocations) := by
  simp only [Buddy.pagesOf, blocksOf, mem_ofPred_eq, List.mem_map, exists_exists_and_eq_and,
    mem_block, Vma.PageAllocation.Has]

theorem mem_areas (there : k.areas[i]? = some a) : a ∈ k.areas := List.mem_of_getElem? there

theorem blocks_subset (there : k.areas[i]? = some a) : blocksOf a.pageAllocations ⊆ k.blocks :=
  fun _ mem => List.mem_append_left _ (List.mem_flatMap.mpr ⟨a, mem_areas there, mem⟩)

theorem areas_split (there : k.areas[i]? = some a) :
    ∃ before after, k.areas = before ++ a :: after ∧
      ∀ b, k.areas.set i b = before ++ b :: after := by
  obtain ⟨inside, rfl⟩ := List.getElem?_eq_some_iff.mp there
  refine ⟨k.areas.take i, k.areas.drop (i + 1), ?_, fun b => ?_⟩
  · have same := List.set_eq_take_append_cons_drop (l := k.areas) (i := i) (a := k.areas[i])
    rwa [List.set_getElem_self, if_pos inside] at same
  · rw [List.set_eq_take_append_cons_drop, if_pos inside]

theorem Supplied.page (h : Supplied nr F₀ k) {f : Nat} (held : f ∈ Buddy.pagesOf k.blocks) :
    f ∈ F₀ ∧ f ∉ Buddy.freePagesOf k.pgalloc.algorithm := by
  refine ⟨h.tagged.holding.split ▸ .inr held, fun free => ?_⟩
  obtain ⟨x, mem, here⟩ := held
  obtain ⟨_, _, _, apart⟩ := h.tagged.holding.outstanding.1 x mem
  exact disjoint_left.mp apart here free

theorem pagesOf_mono {bs bs' : List (Nat × Nat)} (sub : bs ⊆ bs') :
    Buddy.pagesOf bs ⊆ Buddy.pagesOf bs' := fun _ ⟨x, mem, here⟩ => ⟨x, sub mem, here⟩

theorem Supplied.blocks_apart (h : Supplied nr F₀ k) :
    (∀ a ∈ k.areas, (blocksOf a.pageAllocations).Pairwise fun x y =>
        Disjoint (block x.2 x.1) (block y.2 y.1)) ∧
      (∀ (i j : Nat) (a b : Vma.Area), i ≠ j → k.areas[i]? = some a → k.areas[j]? = some b → ∀ f,
        f ∈ Buddy.pagesOf (blocksOf a.pageAllocations) →
          f ∉ Buddy.pagesOf (blocksOf b.pageAllocations)) ∧
      ∀ a ∈ k.areas, ∀ f, f ∈ Buddy.pagesOf (blocksOf a.pageAllocations) →
        f ∉ Buddy.pagesOf k.heap := by
  obtain ⟨areas, _, heap⟩ := List.pairwise_append.mp h.tagged.holding.outstanding.2
  obtain ⟨own, cross⟩ := List.pairwise_flatMap.mp areas
  refine ⟨own, ?_, ?_⟩
  · intro i j a b ne there there'
    obtain ⟨inside, rfl⟩ := List.getElem?_eq_some_iff.mp there
    obtain ⟨inside', rfl⟩ := List.getElem?_eq_some_iff.mp there'
    rintro f ⟨x, mem, here⟩ ⟨y, mem', here'⟩
    rcases Nat.lt_or_gt_of_ne ne with before | after
    · have apart := List.pairwise_iff_getElem.mp cross i j inside inside' before x mem y mem'
      exact disjoint_left.mp apart here here'
    · have apart := List.pairwise_iff_getElem.mp cross j i inside' inside after y mem' x mem
      exact disjoint_left.mp apart here' here
  · rintro a mem f ⟨x, own, here⟩ ⟨y, other, here'⟩
    exact disjoint_left.mp (heap x (List.mem_flatMap.mpr ⟨a, mem, own⟩) y other) here here'

theorem Supplied.promise (h : Supplied nr F₀ k) (noZero : 0 ∉ F₀) (frames : List Nat) :
    (k.memory frames).Promise := by
  obtain ⟨own, cross, _⟩ := h.blocks_apart
  refine ⟨fun i a there => ⟨?_, fun x mem => ⟨?_, ?_⟩⟩, fun i j a b ne there there' f held => ?_⟩
  · exact (List.pairwise_map.mp (own a (mem_areas there))).imp apart_of_disjoint
  · have here : x.descriptorBase ∈ Buddy.pagesOf (blocksOf a.pageAllocations) :=
      held_iff.mp ⟨x, mem, le_rfl, Nat.lt_add_of_pos_right (Nat.two_pow_pos _)⟩
    have page := (h.page (pagesOf_mono (blocks_subset there) here)).1
    exact Nat.pos_of_ne_zero fun zero => noZero (zero ▸ page)
  · have mem' : (x.descriptorBase, x.allocationOrder) ∈ k.blocks :=
      blocks_subset there (List.mem_map_of_mem mem)
    exact h.tagged.below mem' (h.low _ (List.mem_flatMap.mpr
      ⟨a, mem_areas there, List.mem_map_of_mem mem⟩))
  · exact fun held' => cross i j a b ne there there' f (held_iff.mp held) (held_iff.mp held')

end Owners

section Simulation
variable {nr fuel i : Nat} {F₀ : Set Nat} {k k' : KernelMemory} {a : Vma.Area} {s : System}
  {who : Option Nat}

theorem memory_put (there : k.areas[i]? = some a) (s : System) (frames rest : List Nat) :
    (k.put i s).memory rest = (k.memory frames).put i { s.vma with frames := rest } := by
  have inside := (List.getElem?_eq_some_iff.mp there).1
  have areas : (fun j => (k.areas.set i s.vma.area)[j]?) =
      update (fun j => k.areas[j]?) i (some s.vma.area) := by
    funext j
    rw [List.getElem?_set, update_apply]
    by_cases here : j = i
    · rw [if_pos here.symm, if_pos inside, if_pos here]
    · rw [if_neg (Ne.symm here), if_neg here]
  exact congrArg (Vma.Memory.mk s.vma.mem rest) areas

theorem memory_add (k : KernelMemory) (s : System) (frames rest : List Nat) :
    (k.add s).memory rest =
      (k.memory frames).put k.areas.length { s.vma with frames := rest } := by
  have areas : (fun j => (k.areas ++ [s.vma.area])[j]?) =
      update (fun j => k.areas[j]?) k.areas.length (some s.vma.area) := by
    funext j
    rw [update_apply]
    split_ifs with here
    · rw [here, List.getElem?_concat_length]
    · rcases Nat.lt_or_gt_of_ne here with before | after
      · exact List.getElem?_append_left before
      · rw [List.getElem?_eq_none (Nat.le_of_lt after), List.getElem?_eq_none]
        rw [List.length_append, List.length_singleton]
        exact after
  exact congrArg (Vma.Memory.mk s.vma.mem rest) areas

theorem put_perm (there : k.areas[i]? = some a) :
    ∃ others frames, k.blocks.Perm (blocksOf a.pageAllocations ++ others) ∧
      k.allocated.Perm (a.pageAllocations.map Vma.PageAllocation.descriptorBase ++ frames) ∧
      ∀ s : System, (k.put i s).blocks.Perm (blocksOf s.vma.pageAllocations ++ others) ∧
        (k.put i s).allocated.Perm (Vma.allocated s.vma ++ frames) := by
  obtain ⟨before, after, areas, put⟩ := areas_split there
  refine ⟨before.flatMap (fun a => blocksOf a.pageAllocations) ++
      (after.flatMap (fun a => blocksOf a.pageAllocations) ++ k.heap),
    before.flatMap (fun a => a.pageAllocations.map Vma.PageAllocation.descriptorBase) ++
      after.flatMap (fun a => a.pageAllocations.map Vma.PageAllocation.descriptorBase),
    ?_, ?_, fun s => ⟨?_, ?_⟩⟩
  · rw [blocks, areas, List.flatMap_append, List.flatMap_cons, List.append_assoc, List.append_assoc]
    exact List.perm_append_comm_assoc ..
  · rw [allocated, areas, List.flatMap_append, List.flatMap_cons]
    exact List.perm_append_comm_assoc ..
  · rw [blocks, KernelMemory.put, put, List.flatMap_append, List.flatMap_cons, List.append_assoc,
      List.append_assoc]
    exact List.perm_append_comm_assoc ..
  · rw [allocated, KernelMemory.put, put, List.flatMap_append, List.flatMap_cons]
    exact List.perm_append_comm_assoc ..

theorem add_perm (k : KernelMemory) (s : System) :
    (k.add s).blocks.Perm (blocksOf s.vma.pageAllocations ++ k.blocks) ∧
      (k.add s).allocated.Perm (k.allocated ++ Vma.allocated s.vma) := by
  refine ⟨?_, ?_⟩
  · rw [blocks, add, List.flatMap_append, List.flatMap_singleton, List.append_assoc]
    exact List.perm_append_comm_assoc ..
  · rw [allocated, add, List.flatMap_append, List.flatMap_singleton]
    rfl

/-- An operation on an area keeps what the kernel relies on, and is one on the area alone. -/
theorem Supplied.draw (h : Supplied nr F₀ k) (there : k.areas[i]? = some a) {α : Type} {r : α}
    {x : Exec System α} {y : Exec Vma.State α} (draws : System.Draws nr F₀ x y)
    (run : x.run (k.view a) = .ok (r, s)) :
    ∃ handed, Supplied nr F₀ (k.put i s) ∧
      (k.put i s).allocated.Perm (k.allocated ++ handed) ∧
      ∀ rest, y.run ((k.memory (handed ++ rest)).view a) =
        .ok (r, { s.vma with frames := rest }) := by
  obtain ⟨others, frames, blocks, allocated, put⟩ := put_perm there
  obtain ⟨blocks', allocated'⟩ := put s
  obtain ⟨handed, drawn⟩ := draws _ _ _ others run (h.tagged.perm blocks)
  have all : (k.put i s).allocated.Perm (k.allocated ++ handed) := by
    have moved : (Vma.allocated s.vma ++ frames).Perm
        (a.pageAllocations.map Vma.PageAllocation.descriptorBase ++ frames ++ handed) := by
      rw [drawn.taken, List.append_assoc, List.append_assoc]
      exact List.perm_append_comm.append_left _
    exact (allocated'.trans moved).trans (allocated.append_right handed).symm
  refine ⟨handed, ⟨drawn.tagged.perm blocks'.symm, fun f mem => ?_⟩, all, drawn.run⟩
  exact (List.mem_append.mp (all.subset mem)).elim (h.low f) (drawn.low f)

theorem Supplied.drawNew (h : Supplied nr F₀ k) {α : Type} {r : α}
    {x : Exec System α} {y : Exec Vma.State α} (draws : System.Draws nr F₀ x y)
    (run : x.run (k.view .empty) = .ok (r, s)) :
    ∃ handed, Supplied nr F₀ (k.add s) ∧
      (k.add s).allocated.Perm (k.allocated ++ handed) ∧
      ∀ rest, y.run ((k.memory (handed ++ rest)).view .empty) =
        .ok (r, { s.vma with frames := rest }) := by
  obtain ⟨blocks, allocated⟩ := add_perm k s
  obtain ⟨handed, drawn⟩ := draws _ _ _ k.blocks run h.tagged
  have taken : Vma.allocated s.vma = handed := drawn.taken
  rw [taken] at allocated
  refine ⟨handed, ⟨drawn.tagged.perm blocks.symm, fun f mem => ?_⟩, allocated, drawn.run⟩
  exact (List.mem_append.mp (allocated.subset mem)).elim (h.low f) (drawn.low f)

theorem shows_frames {v : Vma.State} {va pa : BitVec 64} (fs : List Nat)
    (shows : Vma.Shows v va pa) : Vma.Shows { v with frames := fs } va pa :=
  System.getMapping_unread va _ _ _ fs shows

theorem Supplied.step (h : Supplied nr F₀ k) (budget : nr + Buddy.maxOrder < fuel)
    (small : nr < 2 ^ 31) (step : Step fuel F₀ k who k') :
    ∃ handed, Supplied nr F₀ k' ∧ k'.allocated.Perm (k.allocated ++ handed) ∧
      ∀ rest, (k.memory (handed ++ rest)).Step who (k'.memory rest) := by
  have nothing : ∀ {m : KernelMemory}, m.areas = k.areas →
      m.allocated.Perm (k.allocated ++ []) := fun areas => by
    rw [List.append_nil, allocated, allocated, areas]
  cases step with
  | @create template s run =>
      obtain ⟨handed, supplied, taken, runs⟩ :=
        h.drawNew (System.create_draws budget small template) run
      refine ⟨handed, supplied, taken, fun rest => ?_⟩
      rw [memory_add k s (handed ++ rest) rest]
      exact .create (List.getElem?_eq_none le_rfl) (runs rest)
  | @allocatePhys i a order r s there word run =>
      obtain ⟨handed, supplied, taken, runs⟩ :=
        h.draw there (System.allocatePhys_draws budget small word) run
      refine ⟨handed, supplied, taken, fun rest => ?_⟩
      rw [memory_put there s (handed ++ rest) rest]
      exact .allocatePhys there (runs rest)
  | @allocateVirt i a va nrPages r s there some int user run =>
      obtain ⟨handed, supplied, taken, runs⟩ :=
        h.draw there (System.allocateVirt_draws budget small va some int) run
      refine ⟨handed, supplied, taken, fun rest => ?_⟩
      rw [memory_put there s (handed ++ rest) rest]
      exact .allocateVirt there user (runs rest)
  | @copyTo i a va src r s there user low consecutive run =>
      have draws : System.Draws nr F₀ _ _ :=
        .onVma (System.copyTo_unread va src) (System.copyTo_same va src)
      obtain ⟨handed, supplied, taken, runs⟩ := h.draw there draws run
      refine ⟨handed, supplied, taken, fun rest => ?_⟩
      rw [memory_put there s (handed ++ rest) rest]
      refine .copyTo there user low (fun pa shows j inside => ?_) (runs rest)
      obtain ⟨q, shows', next⟩ := consecutive pa (shows_frames [] shows) j inside
      exact ⟨q, shows_frames _ shows', next⟩
  | store there writes own =>
      exact ⟨[], ⟨h.tagged, h.low⟩, nothing rfl, fun rest => .store there writes own⟩
  | heapAlloc run =>
      have joined := h.tagged.allocPages budget run
      refine ⟨[], ⟨joined.perm List.perm_middle.symm, h.low⟩, nothing rfl, fun rest => ?_⟩
      exact .other (P := fun _ => False) (fun _ _ => rfl) fun _ _ _ _ => False.elim
  | @heapFree b p mem run =>
      have back := h.tagged.freePages budget (List.mem_append_right _ mem) run
      have left : (k.blocks.erase b).Perm
          (k.areas.flatMap (fun a => blocksOf a.pageAllocations) ++ k.heap.erase b) := by
        have inside : b ∈ k.blocks := List.mem_append_right _ mem
        have first := (List.perm_cons_erase mem).append_left
          (k.areas.flatMap fun a => blocksOf a.pageAllocations)
        exact ((List.perm_cons_erase inside).symm.trans (first.trans List.perm_middle)).cons_inv
      refine ⟨[], ⟨back.perm left, h.low⟩, nothing rfl, fun rest => ?_⟩
      exact .other (P := fun _ => False) (fun _ _ => rfl) fun _ _ _ _ => False.elim
  | heapStore writes whose =>
      refine ⟨[], ⟨h.tagged, h.low⟩, nothing rfl, fun rest => .other writes ?_⟩
      intro j a there f written held
      have mine := held_iff.mp held
      obtain outside | heap := whose f written
      · exact outside (h.page (pagesOf_mono (blocks_subset there) mine)).1
      · exact h.blocks_apart.2.2 a (mem_areas there) f mine heap

end Simulation

section Runs
variable {nr fuel : Nat} {F₀ : Set Nat} {k k' : KernelMemory} {whose : List (Option Nat)}

theorem Supplied.run (h : Supplied nr F₀ k) (budget : nr + Buddy.maxOrder < fuel)
    (small : nr < 2 ^ 31) (noZero : 0 ∉ F₀) (runs : Runs fuel F₀ k whose k') :
    ∃ handed, Supplied nr F₀ k' ∧ k'.allocated.Perm (k.allocated ++ handed) ∧
      ∀ rest, (k.memory (handed ++ rest)).Runs whose (k'.memory rest) := by
  induction runs with
  | refl => exact ⟨[], h, (List.append_nil k.allocated).symm ▸ .refl _, fun rest => .refl⟩
  | step _ step ih =>
      obtain ⟨handed, supplied, taken, past⟩ := ih
      obtain ⟨handed', supplied', taken', last⟩ := supplied.step budget small step
      refine ⟨handed ++ handed', supplied', ?_, fun rest => ?_⟩
      · rw [← List.append_assoc]
        exact taken'.trans (taken.append_right handed')
      · rw [List.append_assoc]
        exact .step (past (handed' ++ rest)) (last rest) (supplied'.promise noZero rest)

theorem Supplied.fresh (h : Supplied nr F₀ k) (noZero : 0 ∉ F₀) :
    Vma.FreshFrames k.allocated := by
  have bases : k.allocated =
      (k.areas.flatMap fun a => blocksOf a.pageAllocations).map Prod.fst := by
    rw [allocated, List.map_flatMap]
    simp only [blocksOf, List.map_map]
    rfl
  refine ⟨?_, fun f mem => ⟨?_, h.low f mem⟩⟩
  · have apart := (List.pairwise_append.mp h.tagged.holding.outstanding.2).1
    rw [bases]
    refine List.pairwise_map.mpr (apart.imp fun {x y} disjoint same => ?_)
    have pos := Nat.two_pow_pos x.2
    have pos' := Nat.two_pow_pos y.2
    have := apart_of_disjoint disjoint
    omega
  · rw [bases] at mem
    obtain ⟨x, held, rfl⟩ := List.mem_map.mp mem
    have here : x.1 ∈ Buddy.pagesOf k.blocks :=
      ⟨x, List.mem_append_left _ held, mem_block.mpr
        ⟨le_rfl, Nat.lt_add_of_pos_right (Nat.two_pow_pos _)⟩⟩
    exact Nat.pos_of_ne_zero fun zero => noZero (zero ▸ (h.page here).1)

end Runs

section Boot
variable {fuel : Nat} {added : List AddedMemory} {layout : KernelLayout} {doSelfTest : Bool}
  {s s₀ : PageAllocator.State}

theorem initAlgorithm_small {nr : Nat} (fresh : s.algorithm = Buddy.State.fresh nr)
    (hnr : nr < 2 ^ 63) (run : (initAlgorithm fuel doSelfTest).run s = .ok (true, s₀)) :
    nr < 2 ^ 31 := by
  have size : s.nrPages = nr := by
    rw [State.nrPages, fresh]
    rfl
  unfold initAlgorithm at run
  rw [bind_ok (run_get_eq s), size] at run
  obtain ⟨ready, s₁, call, run⟩ := of_bind_ok run
  obtain ⟨a, filled, rfl⟩ := of_algorithm_ok call
  cases ready with
  | false => cases run
  | true => exact Buddy.init_true_small filled hnr

theorem booted_supplied (budget : nrPagesOf (.ofBlocks added) + Buddy.maxOrder < fuel)
    (success : (init fuel (.ofBlocks added) layout doSelfTest).run s = .ok (true, s₀))
    (mem : Nat → BitVec 64) :
    Supplied (nrPagesOf (.ofBlocks added)) (availablePages s₀) (booted s₀ mem) ∧
      nrPagesOf (.ofBlocks added) < 2 ^ 31 ∧ 0 ∉ availablePages s₀ ∧
      ∀ f ∈ availablePages s₀, f ∉ keptBack layout (nrPagesOf (.ofBlocks added)) := by
  obtain ⟨m, mark, types, size, L, sound⟩ := init_sound added budget success
  unfold init at success
  obtain ⟨found, s₁, setup, run⟩ := of_bind_ok success
  cases found with
  | false => cases run
  | true =>
      rw [if_pos rfl] at run
      obtain ⟨_, m', mark', run⟩ := of_bind_ok run
      cases mark.symm.trans ((bind_ok setup).trans mark')
      have fresh := of_setup_ok setup
      have hnr : nrPagesOf (.ofBlocks added) < 2 ^ 63 := by
        have last := lastPfn_ofBlocks added
        rw [nrPagesOf]
        omega
      have nrPages : s₁.nrPages = nrPagesOf (.ofBlocks added) := by
        rw [State.nrPages, fresh]
        rfl
      obtain ⟨_, marks, _⟩ := of_markAll_ok mark'
      have kept : ∀ f ∈ availablePages s₀, f ∉ keptBack layout (nrPagesOf (.ofBlocks added)) := by
        intro f available
        rw [← nrPages]
        exact ((marks f).mp (types ▸ available.2)).2
      refine ⟨⟨Tagged.initial size sound, fun _ none => (List.not_mem_nil none).elim⟩,
        initAlgorithm_small (keeps_markAll _ _ _ s₁ () m fresh mark') hnr run, fun zero => ?_, kept⟩
      exact kept 0 zero (.inl (.inl (.inl (show 0 < 7 by decide))))

end Boot

/-! ### Results -/

/-- Every page that `init` left to the page allocator is free or in one block of one holder, and
the type tags say which. -/
structure Accounted (available : Set Nat) (k : KernelMemory) : Prop where
  all : Buddy.freePagesOf k.pgalloc.algorithm ∪ Buddy.pagesOf k.blocks = available
  notFree : Disjoint (Buddy.freePagesOf k.pgalloc.algorithm) (Buddy.pagesOf k.blocks)
  apart : k.blocks.Pairwise fun x y => Disjoint (block x.2 x.1) (block y.2 y.1)
  free : ∀ f < k.pgalloc.nrPages,
    k.pgalloc.types f = .available ↔ f ∈ Buddy.freePagesOf k.pgalloc.algorithm
  allocated : ∀ f ∈ Buddy.pagesOf k.blocks, k.pgalloc.types f = .allocated

/-- What a process shows is its own: no page that the kernel kept back, that is free, in the heap
or a table of anyone, or that another process shows. -/
structure Isolated (back : Set Nat) (k : KernelMemory) : Prop where
  own : ∀ (i : Nat) (a : Vma.Area) (va pa : BitVec 64), k.areas[i]? = some a →
    va.toNat < 2 ^ 47 → Vma.Shows (k.view a).vma va pa →
    pa.toNat / 4096 ∉ back ∧ pa.toNat / 4096 ∉ Buddy.freePagesOf k.pgalloc.algorithm ∧
      pa.toNat / 4096 ∉ Buddy.pagesOf k.heap ∧
      ∀ b ∈ k.areas, ¬ Vma.TableFrame (k.view b).vma (pa.toNat / 4096)
  unshared : ∀ (i j : Nat) (a b : Vma.Area) (va va' pa pa' : BitVec 64), i ≠ j →
    k.areas[i]? = some a → k.areas[j]? = some b → va.toNat < 2 ^ 47 → va'.toNat < 2 ^ 47 →
    Vma.Shows (k.view a).vma va pa → Vma.Shows (k.view b).vma va' pa' →
    pa.toNat / 4096 ≠ pa'.toNat / 4096

section Results
variable {fuel : Nat} {added : List AddedMemory} {layout : KernelLayout} {doSelfTest : Bool}
  {s s₀ : PageAllocator.State} {k k' : KernelMemory} {whose : List (Option Nat)} {nr : Nat}
  {F₀ : Set Nat}

theorem Supplied.accounted (h : Supplied nr F₀ k) : Accounted F₀ k where
  all := h.tagged.holding.split
  notFree := disjoint_left.mpr fun _ free held => (h.page held).2 free
  apart := h.tagged.holding.outstanding.2
  free f inside := h.tagged.free f (h.tagged.holding.size ▸ inside)
  allocated f held := by
    obtain ⟨x, mem, here⟩ := held
    exact h.tagged.held x mem f here

theorem freshFrames_perm {fs fs' : List Nat} (e : fs.Perm fs') (h : Vma.FreshFrames fs) :
    Vma.FreshFrames fs' := ⟨e.nodup_iff.mp h.1, fun f mem => h.2 f (e.mem_iff.mpr mem)⟩

theorem readsSame_frames {j : Nat} {w' : Vma.Memory} {fs : List Nat} (fs' : List Nat)
    (h : Vma.Memory.ReadsSame j (k.memory fs) w') : Vma.Memory.ReadsSame j (k.memory fs') w' := by
  intro b there
  obtain ⟨there', same⟩ := h b there
  refine ⟨there', fun va low pa => ?_⟩
  obtain ⟨shows, bytes⟩ := same va low pa
  exact ⟨shows.trans ⟨shows_frames fs', shows_frames fs⟩, fun now => bytes (shows_frames fs now)⟩

/-- What the areas show is what they took from the page allocator. -/
theorem Supplied.isolated (h : Supplied nr F₀ k) {back : Set Nat} {w : Vma.Memory}
    (kept : ∀ f ∈ F₀, f ∉ back) (started : w.Started) (runs : w.Runs whose (k.memory [])) :
    Isolated back k := by
  have sound := (started.sound.run runs).1
  have isolated := (Vma.Memory.spaces_isolated started runs).1
  refine ⟨fun i a va pa there low shows => ?_, fun i j a b va va' pa pa' ne there there' low low'
    shows shows' => (isolated i j a b there there' va va' pa pa' low shows).2 ne low' shows'⟩
  obtain ⟨held, _⟩ := (sound.sound i a there).place (sound.promise.apart i a there) low shows
  have mine := held_iff.mp held
  obtain ⟨left, notFree⟩ := h.page (pagesOf_mono (blocks_subset there) mine)
  refine ⟨kept _ left, notFree, h.blocks_apart.2.2 a (mem_areas there) _ mine, fun b mem => ?_⟩
  obtain ⟨j, there'⟩ := List.getElem?_of_mem mem
  exact (isolated i j a b there there' va va pa pa low shows).1

/-- Over every run of the kernel from the initialised page allocator no two processes share a page,
none shows what belongs to the kernel, and what a process reads changes by its own steps alone. -/
theorem kernel_spaces_isolated
    (budget : nrPagesOf (.ofBlocks added) + Buddy.maxOrder < fuel)
    (success : (init fuel (.ofBlocks added) layout doSelfTest).run s = .ok (true, s₀))
    (mem : Nat → BitVec 64) (runs : Runs fuel (availablePages s₀) (booted s₀ mem) whose k) :
    Isolated (keptBack layout (nrPagesOf (.ofBlocks added))) k ∧
      ∀ more k', Runs fuel (availablePages s₀) k more k' → ∀ j, some j ∉ more →
        Vma.Memory.ReadsSame j (k.memory []) (k'.memory []) := by
  obtain ⟨start, small, noZero, kept⟩ := booted_supplied budget success mem
  obtain ⟨handed, supplied, taken, past⟩ := start.run budget small noZero runs
  have started : ∀ {fs}, Vma.FreshFrames fs → ((booted s₀ mem).memory fs).Started :=
    fun fresh => ⟨fresh, fun _ => rfl⟩
  refine ⟨?_, fun more k' runs' j away => ?_⟩
  · have fresh := freshFrames_perm taken (supplied.fresh noZero)
    have runs₀ := past []
    rw [List.append_nil] at runs₀
    exact supplied.isolated kept (started fresh) runs₀
  · obtain ⟨handed', supplied', taken', later⟩ := supplied.run budget small noZero runs'
    have fresh := freshFrames_perm (taken'.trans (taken.append_right handed'))
      (supplied'.fresh noZero)
    have later₀ := later []
    rw [List.append_nil] at later₀
    exact readsSame_frames [] ((Vma.Memory.spaces_isolated (started fresh) (past handed')).2
      more _ later₀ j away)

/-- No page is lost or held twice, and an area keeps what it has. -/
theorem pages_accounted
    (budget : nrPagesOf (.ofBlocks added) + Buddy.maxOrder < fuel)
    (success : (init fuel (.ofBlocks added) layout doSelfTest).run s = .ok (true, s₀))
    (mem : Nat → BitVec 64) (runs : Runs fuel (availablePages s₀) (booted s₀ mem) whose k) :
    Accounted (availablePages s₀) k ∧
      ∀ more k', Runs fuel (availablePages s₀) k more k' → ∀ (i : Nat) (a : Vma.Area),
        k.areas[i]? = some a → ∃ a', k'.areas[i]? = some a' ∧
          a.pageAllocations <+: a'.pageAllocations := by
  obtain ⟨start, small, noZero, _⟩ := booted_supplied budget success mem
  obtain ⟨_, supplied, _, _⟩ := start.run budget small noZero runs
  refine ⟨supplied.accounted, fun more k' runs' i a there => ?_⟩
  obtain ⟨handed, _, _, later⟩ := supplied.run budget small noZero runs'
  exact (later []).keeps i a there

end Results

/-! ### A small machine -/

/-- For eighteen pages, of which ten are kept back. -/
def sampleLayout : KernelLayout :=
  ⟨0x7000, 0x7fff, 0xFFFFFFFF80008000, 0xFFFFFFFF80008fff, 0xFFFFFFFF80009000⟩

def sampleInit : Exec PageAllocator.State Bool :=
  init 40 (.ofBlocks [⟨0, 18, .normal⟩]) sampleLayout false

def sampleTemplate : Option (Nat → BitVec 64) := some fun _ => 0

theorem sample_runs : ∃ (s₀ : PageAllocator.State) (k k' : KernelMemory) (a : Vma.Area),
    sampleInit.run ⟨Buddy.State.fresh 0, fun _ => .invalid⟩ = .ok (true, s₀) ∧
      Runs 40 (availablePages s₀) (booted s₀ fun _ => 0) [some 0, some 0] k ∧
      Runs 40 (availablePages s₀) k [some 1] k' ∧ k.areas[0]? = some a ∧
      Vma.Shows (k.view a).vma 0x400000 0xb000 := by
  have ran : endsWith sampleInit ⟨Buddy.State.fresh 0, fun _ => .invalid⟩ (fun answer s₀ =>
      answer && endsWith (System.create (some (buddyPageAllocator 40)) sampleTemplate)
        ((booted s₀ fun _ => 0).view .empty) (fun _ s₁ =>
          endsWith (System.allocateVirt (some (buddyPageAllocator 40)) 0x400000 1)
            (((booted s₀ fun _ => 0).add s₁).view s₁.vma.area) (fun _ s₂ =>
              returns (Vma.getMapping 0x400000) s₂.vma (some 0xb000) &&
                endsWith (System.create (some (buddyPageAllocator 40)) sampleTemplate)
                  ((((booted s₀ fun _ => 0).add s₁).put 0 s₂).view .empty) fun _ _ => true))) =
      true := by
    decide +kernel
  obtain ⟨answer, s₀, start, ran⟩ := of_endsWith ran
  obtain ⟨answer, ran⟩ := Bool.and_eq_true_iff.mp ran
  obtain ⟨_, s₁, made, ran⟩ := of_endsWith ran
  obtain ⟨r, s₂, mapped, ran⟩ := of_endsWith ran
  obtain ⟨lookup, ran⟩ := Bool.and_eq_true_iff.mp ran
  obtain ⟨_, s₃, next, _⟩ := of_endsWith ran
  obtain ⟨t, shows⟩ := of_returns lookup
  cases answer
  cases Vma.getMapping_same _ _ _ _ shows
  have first : ((booted s₀ fun _ => 0).add s₁).areas[0]? = some s₁.vma.area := rfl
  have int : (1 : Int) < 2 ^ 31 := by decide
  refine ⟨s₀, _, _, s₂.vma.area, start, .step (.step .refl (.create made))
    (.allocateVirt first (by decide) int (by decide) mapped), .step .refl (.create next), rfl, ?_⟩
  exact shows_frames [] shows

/-- The first process keeps its page when the second one is made. -/
theorem kernel_spaces_isolated_second : ∃ (k k' : KernelMemory) (a : Vma.Area),
    k.areas[0]? = some a ∧ Vma.Shows (k.view a).vma 0x400000 0xb000 ∧
      Isolated (keptBack sampleLayout 18) k ∧
      Vma.Memory.ReadsSame 0 (k.memory []) (k'.memory []) := by
  obtain ⟨s₀, k, k', a, start, runs, later, there, shows⟩ := sample_runs
  obtain ⟨isolated, same⟩ := @kernel_spaces_isolated 40 [⟨0, 18, .normal⟩] sampleLayout false
    _ s₀ k _ (by decide) start (fun _ => 0) runs
  exact ⟨k, k', a, there, shows, isolated, same _ k' later 0 (by decide)⟩

theorem pages_accounted_second : ∃ (s₀ : PageAllocator.State) (k k' : KernelMemory)
    (a a' : Vma.Area), k.areas[0]? = some a ∧ Accounted (availablePages s₀) k ∧
      k'.areas[0]? = some a' ∧ a.pageAllocations <+: a'.pageAllocations := by
  obtain ⟨s₀, k, k', a, start, runs, later, there, shows⟩ := sample_runs
  obtain ⟨accounted, keeps⟩ := @pages_accounted 40 [⟨0, 18, .normal⟩] sampleLayout false
    _ s₀ k _ (by decide) start (fun _ => 0) runs
  obtain ⟨a', there', kept⟩ := keeps _ k' later 0 a there
  exact ⟨s₀, k, k', a, a', there, accounted, there', kept⟩

end KernelMemory
end Infos.Mm
