import Infos.Mm.PageWalk

/-!
# The kernel's page tables

`reinitialise_pgt` builds them in a block of sixteen pages: the top-level table, the tables of
the kernel's own mapping and those of the direct map, both with pages of 2 MiB.
-/
namespace Infos.Mm.Vma
open Infos.Lib Function

/-! ### The kernel's own mapping -/

def kernelVmemStart : Nat := 0xFFFFFFFF80000000

def kernelVmemEnd : Nat := 0xFFFFFFFFFFFFFFFF

def kernelVmemSize : Nat := kernelVmemEnd - kernelVmemStart + 1

def paToKva (pa : BitVec 64) : Exec State Nat := do
  assertThat (pa.toNat < kernelVmemSize)
  pure (kernelVmemStart + pa.toNat)

def kvaToPa (va : Nat) : Exec State (BitVec 64) := do
  assertThat (kernelVmemStart ≤ va && va ≤ kernelVmemEnd)
  pure (BitVec.ofNat 64 (va - kernelVmemStart))

def pgdToKva (pgd : Nat) : Exec State Nat := paToKva (pgdToPa pgd)

/-- The direct map's address for what the kernel's mapping shows at `va`. -/
def shownAt (va : Nat) : Nat := pmemVaStart + (va - kernelVmemStart)

def storeEntry (table i : Nat) (w : BitVec 64) : Exec State Unit :=
  modifyEntry (shownAt (table + 8 * i)) fun _ => w

def bzero (dest n : Nat) : Exec State Unit :=
  modify fun s => { s with
    mem := fun a => if shownAt dest ≤ a ∧ a < shownAt dest + n then 0 else s.mem a }

/-! ### `reinitialise_pgt` -/

/-- `table[i] = (kva_to_pa((virt_addr_t)next) & ~0xfff) | 0x003` -/
def linkTable (table i next : Nat) : Exec State Unit := do
  storeEntry table i (baseAddress (← kvaToPa next) ||| 0x003#64)

/-- An entry for the 2 MiB at `addr`. -/
def pageEntry (addr : BitVec 64) : BitVec 64 := baseAddress addr ||| 0x083#64

/-- The loop that fills both tables of the kernel's mapping, with `n` rounds to go. -/
def fillKernelPds (pd0 pd1 : Nat) : Nat → Nat → BitVec 64 → Exec State Unit
  | 0, _, _ => pure ()
  | n + 1, i, addr => do
      storeEntry pd0 i (pageEntry addr)
      storeEntry pd1 i (pageEntry (addr + 0x40000000))
      fillKernelPds pd0 pd1 n (i + 1) (addr + 0x200000)

/-- One of the loops that fill the tables of the direct map; `addr` goes on from one to the
next. -/
def fillPhysmemPd (pd : Nat) : Nat → Nat → BitVec 64 → Exec State (BitVec 64)
  | 0, _, addr => pure addr
  | n + 1, i, addr => do
      storeEntry pd i (pageEntry addr)
      fillPhysmemPd pd n (i + 1) (addr + 0x200000)

/-- What is done with the sixteen pages; the result is the template table. -/
def buildTables (pages : Nat) : Exec State Nat := do
  let pml4 ← pgdToKva (pages + 0)
  bzero pml4 ((1 <<< 4) * 0x1000)
  let pdp0 ← pgdToKva (pages + 1)
  let pdp1 ← pgdToKva (pages + 2)
  let pdp0Pd0 ← pgdToKva (pages + 3)
  let pdp0Pd1 ← pgdToKva (pages + 4)
  let pdp1Pd0 ← pgdToKva (pages + 5)
  let pdp1Pd1 ← pgdToKva (pages + 6)
  let pdp1Pd2 ← pgdToKva (pages + 7)
  let pdp1Pd3 ← pgdToKva (pages + 8)
  linkTable pml4 0x1ff pdp0
  linkTable pml4 0x100 pdp1
  linkTable pdp0 0x1fe pdp0Pd0
  linkTable pdp0 0x1ff pdp0Pd1
  linkTable pdp1 0x000 pdp1Pd0
  linkTable pdp1 0x001 pdp1Pd1
  linkTable pdp1 0x002 pdp1Pd2
  linkTable pdp1 0x003 pdp1Pd3
  fillKernelPds pdp0Pd0 pdp0Pd1 0x200 0 0
  let addr ← fillPhysmemPd pdp1Pd0 0x200 0 0
  let addr ← fillPhysmemPd pdp1Pd1 0x200 0 addr
  let addr ← fillPhysmemPd pdp1Pd2 0x200 0 addr
  let _ ← fillPhysmemPd pdp1Pd3 0x200 0 addr
  pgdToVpa pages

/-- The new `__template_pml4`, or `none` where the source returns false. -/
def reinitialisePgt : Exec State (Option Nat) := do
  match ← allocPages 4 with
  | none => pure none
  | some pages => do
      let template ← buildTables pages
      pure (some template)

/-! ### The words of a block of pages -/

abbrev PageWords := Nat → Nat → BitVec 64

/-- Word `i` of page `k` is `words k i`. -/
def Holds (mem : Nat → BitVec 64) (F : Nat) (words : PageWords) : Prop :=
  ∀ k < 16, ∀ i < 512, mem (slot (tableAt (F + k)) i) = words k i

def put (words : PageWords) (k i : Nat) (w : BitVec 64) : PageWords :=
  fun k' i' => if k' = k ∧ i' = i then w else words k' i'

/-- `x` returns `a`, and turns the words `before` of the block into `after`; nothing else
changes. -/
def Builds {α : Type} (F : Nat) (x : Exec State α) (a : α) (before after : PageWords) : Prop :=
  ∀ s : State, Holds s.mem F before → ∃ mem,
    x.run s = .ok (a, { s with mem := mem }) ∧ Holds mem F after ∧
      Writes (fun f => F ≤ f ∧ f < F + 16) s { s with mem := mem }

section Builds
variable {α β : Type} {F k i : Nat} {before middle after : PageWords}

theorem Builds.bind {x : Exec State α} {f : α → Exec State β} {a : α} {b : β}
    (first : Builds F x a before middle) (second : Builds F (f a) b middle after) :
    Builds F (x >>= f) b before after := by
  intro s h
  obtain ⟨mem₁, run₁, h₁, writes₁⟩ := first s h
  obtain ⟨mem₂, run₂, h₂, writes₂⟩ := second { s with mem := mem₁ } h₁
  exact ⟨mem₂, (bind_ok run₁).trans run₂, h₂, writes₁.trans writes₂⟩

theorem Builds.read {x : Exec State α} {a : α} (run : ∀ s, x.run s = .ok (a, s)) :
    Builds F x a before before :=
  fun s h => ⟨s.mem, run s, h, .refl _ s⟩

/-- Where the kernel's mapping shows page `k` of the block. -/
def kva (F k : Nat) : Nat := kernelVmemStart + 4096 * (F + k)

theorem toNat_pgdToPa_window {f : Nat} (window : f < 2 ^ 19) :
    (pgdToPa f).toNat = 4096 * f ∧ 4096 * f < kernelVmemSize := by
  refine ⟨toNat_pgdToPa (by omega), ?_⟩
  rw [kernelVmemSize, kernelVmemEnd, kernelVmemStart]
  omega

theorem Builds.pgdToKva (window : F + k < 2 ^ 19) :
    Builds F (pgdToKva (F + k)) (kva F k) before before := by
  obtain ⟨value, inside⟩ := toNat_pgdToPa_window window
  refine .read fun s => ?_
  unfold Vma.pgdToKva paToKva
  rw [bind_ok (assertThat_run (decide_eq_true (by rw [value]; exact inside))), value]
  rfl

theorem Builds.storeEntry (hk : k < 16) (hi : i < 512) (w : BitVec 64) :
    Builds F (storeEntry (kva F k) i w) () before (put before k i w) := by
  intro s h
  have here : shownAt (kva F k + 8 * i) = slot (tableAt (F + k)) i := by
    unfold shownAt kva slot tableAt
    omega
  refine ⟨_, modifyEntry_run _ _, ?_, ?_⟩
  · intro k' hk' i' hi'
    rw [here]
    unfold put
    by_cases same : k' = k ∧ i' = i
    · rw [if_pos same, same.1, same.2, update_self]
    · rw [if_neg same, update_of_ne, h k' hk' i' hi']
      intro e
      have := slot_inj hi' hi e
      exact same ⟨by omega, this.2⟩
  · rw [here]
    exact .setWord (f := F + k) ⟨Nat.le_add_right F k, by omega⟩ (inPage_slot hi) w

theorem Builds.linkTable {next : Nat} (hk : k < 16) (hi : i < 512) (window : F + next < 2 ^ 19) :
    Builds F (linkTable (kva F k) i (kva F next)) () before
      (put before k i (pgdToPa (F + next) ||| 0x003#64)) := by
  obtain ⟨value, inside⟩ := toNat_pgdToPa_window window
  have pa : ∀ s : State, (kvaToPa (kva F next)).run s = .ok (pgdToPa (F + next), s) := by
    intro s
    have checked : (decide (kernelVmemStart ≤ kva F next) && decide (kva F next ≤ kernelVmemEnd)) =
        true := by
      rw [Bool.and_eq_true, decide_eq_true_iff, decide_eq_true_iff, kva]
      rw [kernelVmemSize, kernelVmemEnd, kernelVmemStart] at inside
      rw [kernelVmemEnd, kernelVmemStart]
      omega
    have back : kva F next - kernelVmemStart = (pgdToPa (F + next)).toNat := by
      rw [kva, value]
      omega
    unfold kvaToPa
    rw [bind_ok (assertThat_run checked), back, BitVec.ofNat_toNat, BitVec.setWidth_eq]
    rfl
  refine .bind (.read pa) ?_
  rw [baseAddress_pgdToPa]
  exact .storeEntry hk hi _

/-- Entries from `i` on, for consecutive pages of 2 MiB. -/
def fill (words : PageWords) (k i n : Nat) (addr : BitVec 64) : PageWords :=
  fun k' i' => if k' = k ∧ i ≤ i' ∧ i' < i + n
    then pageEntry (addr + BitVec.ofNat 64 (0x200000 * (i' - i))) else words k' i'

theorem ofNat_step (addr : BitVec 64) (n : Nat) :
    addr + 0x200000 + BitVec.ofNat 64 (0x200000 * n) =
      addr + BitVec.ofNat 64 (0x200000 * (n + 1)) := by
  have sum : BitVec.ofNat 64 0x200000 + BitVec.ofNat 64 (0x200000 * n) =
      BitVec.ofNat 64 (0x200000 * (n + 1)) := by
    rw [← BitVec.ofNat_add, Nat.mul_succ, Nat.add_comm]
  rw [BitVec.add_assoc, ← sum]
  rfl

theorem fill_succ (words : PageWords) (k i n : Nat) (addr : BitVec 64) :
    fill (put words k i (pageEntry addr)) k (i + 1) n (addr + 0x200000) =
      fill words k i (n + 1) addr := by
  funext k' i'
  unfold fill put
  by_cases page : k' = k
  · subst page
    rcases Nat.lt_trichotomy i' i with before | rfl | after
    · rw [if_neg (by omega), if_neg (by omega), if_neg (by omega)]
    · rw [if_neg (by omega), if_pos ⟨rfl, rfl⟩, if_pos (by omega), Nat.sub_self, Nat.mul_zero]
      exact congrArg pageEntry (BitVec.add_zero addr).symm
    · obtain ⟨d, rfl⟩ := Nat.exists_eq_add_of_lt after
      have first : i + d + 1 - (i + 1) = d := by omega
      have second : i + d + 1 - i = d + 1 := by omega
      rw [first, second, ofNat_step]
      by_cases inside : d < n
      · rw [if_pos (by omega), if_pos (by omega)]
      · rw [if_neg (by omega), if_neg (by omega), if_neg (by omega)]
  · rw [if_neg (fun h => page h.1), if_neg (fun h => page h.1), if_neg (fun h => page h.1)]

theorem fill_zero (words : PageWords) (k i : Nat) (addr : BitVec 64) :
    fill words k i 0 addr = words := by
  funext k' i'
  exact if_neg (by omega)

theorem Builds.fillPhysmemPd {n : Nat} (addr : BitVec 64) (hk : k < 16) (room : i + n ≤ 512) :
    Builds F (fillPhysmemPd (kva F k) n i addr) (addr + BitVec.ofNat 64 (0x200000 * n)) before
      (fill before k i n addr) := by
  induction n generalizing i addr before with
  | zero =>
      rw [fill_zero]
      exact .read fun s => by rw [Nat.mul_zero, BitVec.add_zero]; rfl
  | succ n ih =>
      unfold Vma.fillPhysmemPd
      refine .bind (.storeEntry hk (by omega) _) ?_
      rw [← fill_succ, ← ofNat_step]
      exact ih (addr + 0x200000) (by omega)

theorem put_fill (words : PageWords) {k k' i j n : Nat} (ne : k ≠ k') (w addr : BitVec 64) :
    put (fill words k i n addr) k' j w = fill (put words k' j w) k i n addr := by
  funext a b
  unfold put fill
  dsimp only
  by_cases here : a = k'
  · rw [if_neg (c := a = k ∧ _) (fun h => ne (h.1.symm.trans here)),
      if_neg (c := a = k ∧ _) (fun h => ne (h.1.symm.trans here))]
  · rw [if_neg (c := a = k' ∧ _) (fun h => here h.1), if_neg (c := a = k' ∧ _) (fun h => here h.1)]

theorem Builds.fillKernelPds {k' n : Nat} (addr : BitVec 64) (hk : k < 16) (hk' : k' < 16)
    (ne : k ≠ k') (room : i + n ≤ 512) :
    Builds F (fillKernelPds (kva F k) (kva F k') n i addr) () before
      (fill (fill before k i n addr) k' i n (addr + 0x40000000)) := by
  induction n generalizing i addr before with
  | zero =>
      rw [fill_zero, fill_zero]
      exact .read fun _ => rfl
  | succ n ih =>
      unfold Vma.fillKernelPds
      refine .bind (.storeEntry hk (by omega) _) (.bind (.storeEntry hk' (by omega) _) ?_)
      have rest : Builds F (Vma.fillKernelPds (kva F k) (kva F k') n (i + 1) (addr + 0x200000)) ()
          (put (put before k i (pageEntry addr)) k' i (pageEntry (addr + 0x40000000))) _ :=
        ih (addr + 0x200000) (by omega)
      have later : addr + 0x200000 + 0x40000000 = addr + 0x40000000 + 0x200000 := by
        rw [BitVec.add_assoc, BitVec.add_assoc, BitVec.add_comm 0x200000]
      rw [later, ← put_fill _ ne, fill_succ, fill_succ] at rest
      exact rest

end Builds

/-! ### The tables as built -/

/-- An entry for the table in frame `f`. -/
def linkEntry (f : Nat) : BitVec 64 := pgdToPa f ||| 0x003#64

/-- The words of the nine tables from frame `F` on. -/
structure KernelTables (mem : Nat → BitVec 64) (F : Nat) : Prop where
  pml4Kernel : mem (slot (tableAt F) 0x1ff) = linkEntry (F + 1)
  pml4Direct : mem (slot (tableAt F) 0x100) = linkEntry (F + 2)
  pdp0 : ∀ j < 2, mem (slot (tableAt (F + 1)) (0x1fe + j)) = linkEntry (F + 3 + j)
  pdp1 : ∀ j < 4, mem (slot (tableAt (F + 2)) j) = linkEntry (F + 5 + j)
  kernelPds : ∀ j < 2, ∀ i < 512, mem (slot (tableAt (F + 3 + j)) i) =
    pageEntry (BitVec.ofNat 64 (0x200000 * (512 * j + i)))
  directPds : ∀ j < 4, ∀ i < 512, mem (slot (tableAt (F + 5 + j)) i) =
    pageEntry (BitVec.ofNat 64 (0x200000 * (512 * j + i)))

/-- What the stores of `reinitialise_pgt` make of sixteen cleared pages, one after the other. -/
def builtWords (F : Nat) : PageWords :=
  let words : PageWords := fun _ _ => 0
  let words := put words 0 0x1ff (linkEntry (F + 1))
  let words := put words 0 0x100 (linkEntry (F + 2))
  let words := put words 1 0x1fe (linkEntry (F + 3))
  let words := put words 1 0x1ff (linkEntry (F + 4))
  let words := put words 2 0x000 (linkEntry (F + 5))
  let words := put words 2 0x001 (linkEntry (F + 6))
  let words := put words 2 0x002 (linkEntry (F + 7))
  let words := put words 2 0x003 (linkEntry (F + 8))
  let words := fill (fill words 3 0 512 0) 4 0 512 (0 + 0x40000000)
  let words := fill words 5 0 512 0
  let words := fill words 6 0 512 (0 + BitVec.ofNat 64 (0x200000 * 512))
  let words := fill words 7 0 512
    (0 + BitVec.ofNat 64 (0x200000 * 512) + BitVec.ofNat 64 (0x200000 * 512))
  fill words 8 0 512 (0 + BitVec.ofNat 64 (0x200000 * 512) + BitVec.ofNat 64 (0x200000 * 512) +
    BitVec.ofNat 64 (0x200000 * 512))

section Tables
variable {F : Nat}

theorem Builds.bzero {before : PageWords} (window : F < 2 ^ 19) :
    Builds F (bzero (kva F 0) ((1 <<< 4) * 0x1000)) () before fun _ _ => 0 := by
  intro s h
  have start : shownAt (kva F 0) = tableAt F := by
    unfold shownAt kva tableAt
    omega
  have size : (1 <<< 4) * 0x1000 = 4096 * 16 := by decide
  refine ⟨_, run_modify_eq _ _, ?_, ?_⟩
  · intro k hk i hi
    rw [start, size]
    apply if_pos
    unfold slot tableAt
    omega
  · rw [start, size]
    exact writes_pnzero

theorem Builds.buildTables {before : PageWords} (window : F + 8 < 2 ^ 19) :
    Builds F (buildTables F) (tableAt F) before (builtWords F) := by
  have page : ∀ k ≤ 8, F + k < 2 ^ 19 := fun k le => by omega
  unfold Vma.buildTables
  refine .bind (.pgdToKva (page 0 (by decide))) (.bind (.bzero (by omega)) ?_)
  refine .bind (.pgdToKva (page 1 (by decide))) (.bind (.pgdToKva (page 2 (by decide))) ?_)
  refine .bind (.pgdToKva (page 3 (by decide))) (.bind (.pgdToKva (page 4 (by decide))) ?_)
  refine .bind (.pgdToKva (page 5 (by decide))) (.bind (.pgdToKva (page 6 (by decide))) ?_)
  refine .bind (.pgdToKva (page 7 (by decide))) (.bind (.pgdToKva (page 8 (by decide))) ?_)
  refine .bind (.linkTable (by decide) (by decide) (page 1 (by decide))) ?_
  refine .bind (.linkTable (by decide) (by decide) (page 2 (by decide))) ?_
  refine .bind (.linkTable (by decide) (by decide) (page 3 (by decide))) ?_
  refine .bind (.linkTable (by decide) (by decide) (page 4 (by decide))) ?_
  refine .bind (.linkTable (by decide) (by decide) (page 5 (by decide))) ?_
  refine .bind (.linkTable (by decide) (by decide) (page 6 (by decide))) ?_
  refine .bind (.linkTable (by decide) (by decide) (page 7 (by decide))) ?_
  refine .bind (.linkTable (by decide) (by decide) (page 8 (by decide))) ?_
  refine .bind (.fillKernelPds 0 (by decide) (by decide) (by decide) (by decide)) ?_
  refine .bind (.fillPhysmemPd _ (by decide) (by decide)) ?_
  refine .bind (.fillPhysmemPd _ (by decide) (by decide)) ?_
  refine .bind (.fillPhysmemPd _ (by decide) (by decide)) ?_
  refine .bind (.fillPhysmemPd _ (by decide) (by decide)) ?_
  exact .read fun s => pgdToVpa_run (by omega)

theorem fill_inside {words : PageWords} {k i : Nat} {addr : BitVec 64} (hi : i < 512) :
    fill words k 0 512 addr k i = pageEntry (addr + BitVec.ofNat 64 (0x200000 * i)) :=
  if_pos ⟨rfl, Nat.zero_le i, by omega⟩

theorem fill_other {words : PageWords} {k k' i j n : Nat} {addr : BitVec 64} (ne : k' ≠ k) :
    fill words k j n addr k' i = words k' i :=
  if_neg fun h => ne h.1

theorem add_pages (m n : Nat) : BitVec.ofNat 64 (0x200000 * m) + BitVec.ofNat 64 (0x200000 * n) =
    BitVec.ofNat 64 (0x200000 * (m + n)) := by
  rw [← BitVec.ofNat_add, Nat.mul_add]

theorem from_zero (addr : BitVec 64) : 0 + addr = addr := BitVec.zero_add addr

theorem directWords {j i : Nat} (hj : j < 4) (hi : i < 512) :
    builtWords F (5 + j) i = pageEntry (BitVec.ofNat 64 (0x200000 * (512 * j + i))) := by
  unfold builtWords
  rcases (by omega : j = 0 ∨ j = 1 ∨ j = 2 ∨ j = 3) with rfl | rfl | rfl | rfl
  · rw [fill_other (by decide), fill_other (by decide), fill_other (by decide), fill_inside hi,
      from_zero, Nat.mul_zero, Nat.zero_add]
  · rw [fill_other (by decide), fill_other (by decide), fill_inside hi, from_zero, add_pages]
  · rw [fill_other (by decide), fill_inside hi, from_zero, add_pages, add_pages]
  · rw [fill_inside hi, from_zero, add_pages, add_pages, add_pages]

theorem kernelWords {j i : Nat} (hj : j < 2) (hi : i < 512) :
    builtWords F (3 + j) i = pageEntry (BitVec.ofNat 64 (0x200000 * (512 * j + i))) := by
  unfold builtWords
  rcases (by omega : j = 0 ∨ j = 1) with rfl | rfl
  · rw [fill_other (by decide), fill_other (by decide), fill_other (by decide),
      fill_other (by decide), fill_other (by decide), fill_inside hi, from_zero, Nat.mul_zero,
      Nat.zero_add]
  · have half : (0x40000000 : BitVec 64) = BitVec.ofNat 64 (0x200000 * 512) := by decide
    rw [fill_other (by decide), fill_other (by decide), fill_other (by decide),
      fill_other (by decide), fill_inside hi, from_zero, half, add_pages]

theorem kernelTables_of_holds {mem : Nat → BitVec 64} (h : Holds mem F (builtWords F)) :
    KernelTables mem F where
  pml4Kernel := h 0 (by decide) 0x1ff (by decide)
  pml4Direct := h 0 (by decide) 0x100 (by decide)
  pdp0 j hj := by
    rw [h 1 (by decide) _ (by omega)]
    rcases (by omega : j = 0 ∨ j = 1) with rfl | rfl <;> rfl
  pdp1 j hj := by
    rw [h 2 (by decide) _ (by omega)]
    rcases (by omega : j = 0 ∨ j = 1 ∨ j = 2 ∨ j = 3) with rfl | rfl | rfl | rfl <;> rfl
  kernelPds j hj i hi := by
    rw [Nat.add_assoc, h (3 + j) (by omega) i hi, kernelWords hj hi]
  directPds j hj i hi := by
    rw [Nat.add_assoc, h (5 + j) (by omega) i hi, directWords hj hi]

theorem KernelTables.congr {mem mem' : Nat → BitVec 64} (h : KernelTables mem F)
    (same : ∀ k < 16, ∀ i < 512, mem' (slot (tableAt (F + k)) i) = mem (slot (tableAt (F + k)) i)) :
    KernelTables mem' F where
  pml4Kernel := (same 0 (by decide) 0x1ff (by decide)).trans h.pml4Kernel
  pml4Direct := (same 0 (by decide) 0x100 (by decide)).trans h.pml4Direct
  pdp0 j hj := (same 1 (by decide) _ (by omega)).trans (h.pdp0 j hj)
  pdp1 j hj := (same 2 (by decide) _ (by omega)).trans (h.pdp1 j hj)
  kernelPds j hj i hi := by
    rw [← h.kernelPds j hj i hi, Nat.add_assoc]
    exact same (3 + j) (by omega) i hi
  directPds j hj i hi := by
    rw [← h.directPds j hj i hi, Nat.add_assoc]
    exact same (5 + j) (by omega) i hi

/-- The kernel's mapping shows only the first 2 GiB. -/
theorem buildTables_window {s s' : State} {template : Nat} (inside : F + 16 ≤ 2 ^ 20)
    (run : (buildTables F).run s = .ok (template, s')) : F + 8 < 2 ^ 19 := by
  unfold buildTables at run
  obtain ⟨_, _, -, run⟩ := of_bind_ok run
  obtain ⟨_, _, -, run⟩ := of_bind_ok run
  obtain ⟨_, _, -, run⟩ := of_bind_ok run
  obtain ⟨_, _, -, run⟩ := of_bind_ok run
  obtain ⟨_, _, -, run⟩ := of_bind_ok run
  obtain ⟨_, _, -, run⟩ := of_bind_ok run
  obtain ⟨_, _, -, run⟩ := of_bind_ok run
  obtain ⟨_, _, -, run⟩ := of_bind_ok run
  obtain ⟨_, _, -, run⟩ := of_bind_ok run
  obtain ⟨_, s₁, last, -⟩ := of_bind_ok run
  by_contra outside
  unfold pgdToKva paToKva at last
  have large : ¬ (pgdToPa (F + 8)).toNat < kernelVmemSize := by
    rw [toNat_pgdToPa (by omega), kernelVmemSize, kernelVmemEnd, kernelVmemStart]
    omega
  rw [decide_eq_false large] at last
  cases last

theorem reinitialisePgt_returns {s : State} {rest : List Nat} (frames : s.frames = F :: rest)
    (window : F + 8 < 2 ^ 19) :
    ∃ s', reinitialisePgt.run s = .ok (some (tableAt F), s') ∧ KernelTables s'.mem F ∧
      s'.frames = rest ∧ s'.pageAllocations = s.pageAllocations ∧
      Writes (fun f => F ≤ f ∧ f < F + 16) s s' := by
  let words : PageWords := fun k i => s.mem (slot (tableAt (F + k)) i)
  have before : Holds s.mem F words := fun _ _ _ _ => rfl
  obtain ⟨mem, built, holds, writes⟩ := Builds.buildTables window { s with frames := rest } before
  refine ⟨{ s with mem := mem, frames := rest }, ?_, kernelTables_of_holds holds, rfl, rfl, writes⟩
  unfold reinitialisePgt
  rw [bind_ok (allocPages_cons frames 4)]
  exact (bind_ok built).trans rfl

theorem reinitialisePgt_run {s s' : State} {template : Nat} {rest : List Nat}
    (frames : s.frames = F :: rest) (inside : F + 16 ≤ 2 ^ 20)
    (run : reinitialisePgt.run s = .ok (some template, s')) :
    template = tableAt F ∧ KernelTables s'.mem F := by
  have window : F + 8 < 2 ^ 19 := by
    unfold reinitialisePgt at run
    rw [bind_ok (allocPages_cons frames 4)] at run
    obtain ⟨table, s₁, run₁, -⟩ := of_bind_ok run
    exact buildTables_window inside run₁
  obtain ⟨s₁, returns, tables, -⟩ := reinitialisePgt_returns frames window
  rw [returns] at run
  cases run
  exact ⟨rfl, tables⟩

end Tables

/-! ### What the tables show -/

/-- The kernel's half of an address space. -/
structure KernelHalf (s : State) (F : Nat) : Prop where
  rooted : Rooted s
  kernel : entryAt s s.pgtPhysBase.toNat 0x1ff = linkEntry (F + 1)
  direct : entryAt s s.pgtPhysBase.toNat 0x100 = linkEntry (F + 2)
  tables : KernelTables s.mem F
  inside : F + 16 ≤ 2 ^ 20

section Entries
variable {s : State} {va addr low : BitVec 64} {F f n level table : Nat}

theorem baseAddress_or (flags : baseAddress low = 0) :
    baseAddress (baseAddress addr ||| low) = baseAddress addr := by
  apply BitVec.eq_of_getLsbD_eq
  intro i lt
  have none : (baseAddress low).getLsbD i = false := by
    rw [flags]
    exact BitVec.getLsbD_zero
  rw [getLsbD_baseAddress] at none
  rw [getLsbD_baseAddress, BitVec.getLsbD_or, getLsbD_baseAddress, Bool.and_or_distrib_left, none,
    Bool.or_false, ← Bool.and_assoc, Bool.and_self]

theorem getFlag_or (f : MMUTableEntryFlags) :
    getFlag (baseAddress addr ||| low) f = low.getLsbD f.idx := by
  have bit := idx_lt f
  rw [getFlag_eq, BitVec.getLsbD_or, getLsbD_baseAddress, decide_eq_false (by omega),
    Bool.false_and, Bool.false_or]

theorem linkEntry_eq (f : Nat) : linkEntry f = baseAddress (pgdToPa f) ||| 0x003#64 := by
  rw [linkEntry, baseAddress_pgdToPa]

theorem present_linkEntry : getFlag (linkEntry f) .present = true := by
  rw [linkEntry_eq, getFlag_or]
  rfl

theorem huge_linkEntry : getFlag (linkEntry f) .huge = false := by
  rw [linkEntry_eq, getFlag_or]
  rfl

theorem toNat_linkEntry (small : f < 2 ^ 20) : (baseAddress (linkEntry f)).toNat = 4096 * f := by
  rw [linkEntry_eq, baseAddress_or (by decide), baseAddress_pgdToPa, toNat_pgdToPa small]

theorem present_pageEntry : getFlag (pageEntry addr) .present = true := getFlag_or _

theorem huge_pageEntry : getFlag (pageEntry addr) .huge = true := getFlag_or _

theorem toNat_pageEntry (small : n < 2 ^ 11) :
    (baseAddress (pageEntry (BitVec.ofNat 64 (0x200000 * n)))).toNat = 0x200000 * n := by
  rw [pageEntry, baseAddress_or (by decide), toNat_baseAddress, BitVec.toNat_ofNat]
  omega

theorem addressField_aligned {entry : BitVec 64}
    (base : (baseAddress entry).toNat = 0x200000 * n) (small : n < 2 ^ 11) :
    addressField 21 entry = 0x200000 * n := by
  rw [toNat_baseAddress] at base
  have quotient : entry.toNat % 2 ^ 52 / 2 ^ 21 = n := by omega
  rw [addressField, quotient]
  exact Nat.mul_comm n 0x200000

theorem addressField_pageEntry (small : n < 2 ^ 11) :
    addressField 21 (pageEntry (BitVec.ofNat 64 (0x200000 * n))) = 0x200000 * n :=
  addressField_aligned (toNat_pageEntry small) small

/-! ### The walks through them -/

theorem walkFrom_link (entry : entryOf s va (level + 1) table = linkEntry f)
    (small : f < 2 ^ 20) : walkFrom s va (level + 1) table = walkFrom s va level (4096 * f) := by
  have base := toNat_linkEntry small
  rw [walkFrom, entry, present_bit, huge_bit, present_linkEntry, huge_linkEntry, if_pos rfl,
    if_neg (fun h => Bool.false_ne_true h.1), addressField_eq (by omega), base]

theorem plain_link (entry : entryOf s va (level + 1) table = linkEntry f) (small : f < 2 ^ 20) :
    Plain s va (level + 1) table ↔ Plain s va level (4096 * f) := by
  have base := toNat_linkEntry small
  have inside : 4096 * f < pmemVaSize := by
    rw [pmemVaSize]
    omega
  rw [Plain, entry, forall_prop_of_true present_linkEntry, huge_linkEntry,
    if_neg (fun h => Bool.false_ne_true h.1), base]
  exact and_iff_right inside

theorem walkFrom_page (entry : entryOf s va 1 table = pageEntry (BitVec.ofNat 64 (0x200000 * n)))
    (small : n < 2 ^ 11) : walkFrom s va 1 table = some (0x200000 * n + va.toNat % 0x200000) := by
  rw [walkFrom, entry, present_bit, huge_bit, present_pageEntry, huge_pageEntry, if_pos rfl,
    if_pos ⟨rfl, by decide⟩]
  change some (addressField 21 _ + va.toNat % 0x200000) = _
  rw [addressField_pageEntry small]

theorem plain_page (entry : entryOf s va 1 table = pageEntry (BitVec.ofNat 64 (0x200000 * n)))
    (small : n < 2 ^ 11) : Plain s va 1 table ↔
      LeadsTo s va (0x200000 * n + va.toNat % 0x200000) 0 (0x200000 * n) := by
  have base := toNat_pageEntry small
  have inside : 0x200000 * n < pmemVaSize := by
    rw [pmemVaSize]
    omega
  rw [Plain, entry, forall_prop_of_true present_pageEntry, huge_pageEntry,
    if_pos ⟨rfl, by decide⟩, base]
  change _ ∧ LeadsTo s va (addressField 21 _ + va.toNat % 2 ^ 21) 0 _ ↔ _
  rw [addressField_pageEntry small]
  exact and_iff_right inside

end Entries

/-- The direct map's address for physical address `x`. -/
def directMapped (x : Nat) : BitVec 64 := BitVec.ofNat 64 (pmemVaStart + x)

section DirectMap
variable {s : State} {F x : Nat}

theorem toNat_directMapped (low : x < 2 ^ 32) : (directMapped x).toNat = pmemVaStart + x := by
  rw [directMapped, BitVec.toNat_ofNat, pmemVaStart]
  omega

/-- The three entries that a walk to the 2 MiB page around `x` meets: two links to the tables in
frames `f` and `g`, and the page. -/
structure LeadsToPage (s : State) (va : BitVec 64) (f g x : Nat) : Prop where
  top : entryOf s va 3 s.pgtPhysBase.toNat = linkEntry f
  middle : entryOf s va 2 (4096 * f) = linkEntry g
  bottom : entryOf s va 1 (4096 * g) = pageEntry (BitVec.ofNat 64 (0x200000 * (x / 0x200000)))
  small : f < 2 ^ 20 ∧ g < 2 ^ 20
  low : x < 2 ^ 32
  offset : va.toNat % 0x200000 = x % 0x200000

theorem LeadsToPage.walk {va : BitVec 64} {f g : Nat} (h : LeadsToPage s va f g x)
    (rooted : Rooted s) : processorWalk s va = some x := by
  have low := h.low
  rw [processorWalk, rooted.addressField, walkFrom_link h.top h.small.1,
    walkFrom_link h.middle h.small.2, walkFrom_page h.bottom (by omega), h.offset,
    Nat.div_add_mod]

theorem LeadsToPage.plain_iff {va : BitVec 64} {f g : Nat} (h : LeadsToPage s va f g x) :
    Plain s va 3 s.pgtPhysBase.toNat ↔ LeadsTo s va x 0 (0x200000 * (x / 0x200000)) := by
  have low := h.low
  rw [plain_link h.top h.small.1, plain_link h.middle h.small.2,
    plain_page h.bottom (by omega), h.offset, Nat.div_add_mod]

theorem KernelHalf.direct_page (h : KernelHalf s F) (low : x < 2 ^ 32) :
    LeadsToPage s (directMapped x) (F + 2) (F + 5 + x / 2 ^ 30) x := by
  have inside := h.inside
  have value := toNat_directMapped low
  generalize directMapped x = va at value
  rw [pmemVaStart] at value
  have top : va.toNat / 2 ^ 39 % 512 = 0x100 := by omega
  have middle : va.toNat / 2 ^ 30 % 512 = x / 2 ^ 30 := by omega
  have bottom : va.toNat / 2 ^ 21 % 512 = x / 0x200000 % 512 := by omega
  constructor
  case top => exact (congrArg (entryAt s _) top).trans h.direct
  case middle => exact (congrArg (entryAt s _) middle).trans (h.tables.pdp1 _ (by omega))
  case bottom =>
    have entry := h.tables.directPds (x / 2 ^ 30) (by omega) (x / 0x200000 % 512) (by omega)
    rw [show 512 * (x / 2 ^ 30) + x / 0x200000 % 512 = x / 0x200000 by omega] at entry
    exact (congrArg (entryAt s _) bottom).trans entry
  case small => omega
  case low => exact low
  case offset => omega

theorem KernelHalf.kernel_page (h : KernelHalf s F) (low : x < 2 ^ 31) :
    LeadsToPage s (BitVec.ofNat 64 (kernelVmemStart + x)) (F + 1) (F + 3 + x / 2 ^ 30) x := by
  have inside := h.inside
  have value : (BitVec.ofNat 64 (kernelVmemStart + x)).toNat = kernelVmemStart + x := by
    rw [BitVec.toNat_ofNat, kernelVmemStart]
    omega
  generalize BitVec.ofNat 64 (kernelVmemStart + x) = va at value
  rw [kernelVmemStart] at value
  have top : va.toNat / 2 ^ 39 % 512 = 0x1ff := by omega
  have middle : va.toNat / 2 ^ 30 % 512 = 0x1fe + x / 2 ^ 30 := by omega
  have bottom : va.toNat / 2 ^ 21 % 512 = x / 0x200000 % 512 := by omega
  constructor
  case top => exact (congrArg (entryAt s _) top).trans h.kernel
  case middle => exact (congrArg (entryAt s _) middle).trans (h.tables.pdp0 _ (by omega))
  case bottom =>
    have entry := h.tables.kernelPds (x / 2 ^ 30) (by omega) (x / 0x200000 % 512) (by omega)
    rw [show 512 * (x / 2 ^ 30) + x / 0x200000 % 512 = x / 0x200000 by omega] at entry
    exact (congrArg (entryAt s _) bottom).trans entry
  case small => omega
  case low => omega
  case offset => omega

theorem KernelHalf.walk (h : KernelHalf s F) (low : x < 2 ^ 32) :
    processorWalk s (directMapped x) = some x := (h.direct_page low).walk h.rooted

theorem KernelHalf.walk_kernel (h : KernelHalf s F) (low : x < 2 ^ 31) :
    processorWalk s (BitVec.ofNat 64 (kernelVmemStart + x)) = some x :=
  (h.kernel_page low).walk h.rooted

theorem KernelHalf.getMapping_iff (h : KernelHalf s F) (low : x < 2 ^ 32) :
    (∃ pa, (getMapping (directMapped x)).run s = .ok (some pa, s) ∧ pa.toNat = x) ↔
      LeadsTo s (directMapped x) x 0 (0x200000 * (x / 0x200000)) := by
  have plain := agrees_iff_plain h.rooted (directMapped x)
  rw [(h.direct_page low).plain_iff] at plain
  rw [← plain, Agrees, h.walk low]
  constructor
  · rintro ⟨pa, run, rfl⟩
    exact ⟨some pa, run, rfl⟩
  · rintro ⟨r, run, found⟩
    obtain ⟨pa, rfl, rfl⟩ := Option.map_eq_some_iff.mp found
    exact ⟨pa, run, rfl⟩

end DirectMap

theorem kernelHalf_created {s₀ s₁ s : State} {F template : Nat} {rest : List Nat}
    (frames : s₀.frames = F :: rest) (booted : reinitialisePgt.run s₀ = .ok (some template, s₁))
    (run : (create (some fun i => s₁.mem (template + 8 * i))).run s₁ = .ok ((), s))
    (apart : Apart (⟨F, 4⟩ :: s.pageAllocations)) : KernelHalf s F := by
  have inside : F + 16 ≤ 2 ^ 20 := (apart.inside ⟨F, 4⟩ List.mem_cons_self).2
  obtain ⟨rfl, tables⟩ := reinitialisePgt_run frames inside booted
  obtain ⟨disjoint, apart'⟩ := List.pairwise_cons.mp apart.disjoint
  obtain ⟨R, frames₁, blocks, writes⟩ := create_writes run
    ⟨apart', fun a mem => apart.inside a (List.mem_cons_of_mem _ mem)⟩
  have mine : ⟨R, 0⟩ ∈ s.pageAllocations := by
    rw [blocks]
    exact List.mem_concat_self
  have small : R < 2 ^ 20 := Nat.lt_of_succ_le (apart.inside _ (List.mem_cons_of_mem _ mine)).2
  have other : F + 16 ≤ R ∨ R + 1 ≤ F := disjoint _ mine
  generalize s.frames = rest' at frames₁
  have same := (Prod.mk.inj (Except.ok.inj (run.symm.trans (create_run _ frames₁ small)))).2
  have phys : s.pgtPhysBase.toNat = 4096 * R := by
    rw [same]
    exact toNat_pgdToPa small
  have root : ∀ i, entryAt s (4096 * R) i = s.mem (slot (tableAt R) i) := fun _ => rfl
  constructor
  case rooted =>
    refine ⟨?_, ?_, ?_⟩
    · rw [phys, same]
      rfl
    · rw [phys]
      omega
    · rw [phys, pmemVaSize]
      omega
  case kernel =>
    rw [phys, root, same, created_kernel]
    exact tables.pml4Kernel
  case direct =>
    rw [phys, root, same, created_direct]
    exact tables.pml4Direct
  case tables =>
    refine tables.congr fun k hk i hi => ?_
    refine writes.page (f := F + k) ?_ (inPage_slot hi)
    omega
  case inside => exact inside

/-- `get_mapping` reports what the processor finds exactly if no entry on the way is huge, or
what is in the huge page leads to it; and so for the direct map, all of which the processor
finds. -/
theorem getMapping_agrees_iff (s : State) :
    (Rooted s → ∀ va, Agrees s va ↔ Plain s va 3 s.pgtPhysBase.toNat) ∧
    ∀ (s₀ s₁ : State) (F template : Nat) (rest : List Nat), s₀.frames = F :: rest →
      reinitialisePgt.run s₀ = .ok (some template, s₁) →
      (create (some fun i => s₁.mem (template + 8 * i))).run s₁ = .ok ((), s) →
      Apart (⟨F, 4⟩ :: s.pageAllocations) → ∀ x < 2 ^ 32,
        processorWalk s (directMapped x) = some x ∧
        ((∃ pa, (getMapping (directMapped x)).run s = .ok (some pa, s) ∧ pa.toNat = x) ↔
          LeadsTo s (directMapped x) x 0 (0x200000 * (x / 0x200000))) := by
  constructor
  · intro rooted va
    exact agrees_iff_plain rooted va
  · intro s₀ s₁ F template rest frames booted run apart x low
    have h := kernelHalf_created frames booted run apart
    exact ⟨h.walk low, h.getMapping_iff low⟩

/-- Memory for the kernel's tables and for one address space. -/
def bootStart : State := ⟨fun _ => 0, [16, 40], [], 0, 0⟩

theorem bootStart_boots :
    ∃ s₁ s, reinitialisePgt.run bootStart = .ok (some (tableAt 16), s₁) ∧
      (create (some fun i => s₁.mem (tableAt 16 + 8 * i))).run s₁ = .ok ((), s) ∧
      Apart (⟨16, 4⟩ :: s.pageAllocations) ∧ s.mem (pmemVaStart + 0x200000) = 0 := by
  obtain ⟨s₁, booted, -, frames, blocks, writes⟩ :=
    reinitialisePgt_returns (s := bootStart) (F := 16) rfl (by decide)
  have run := create_run (fun i => s₁.mem (tableAt 16 + 8 * i)) frames (by decide)
  have apart : Apart (s₁.pageAllocations ++ [⟨40, 0⟩]) := by
    rw [blocks]
    decide
  have grown : Apart (⟨16, 4⟩ :: (s₁.pageAllocations ++ [⟨40, 0⟩])) := by
    rw [blocks]
    decide
  obtain ⟨R, frames', -, writes'⟩ := create_writes run apart
  rw [frames] at frames'
  cases frames'
  have outside : ∀ f, f < 512 → ¬ InPage f (pmemVaStart + 0x200000) := by
    rintro f lt ⟨_, above⟩
    rw [tableAt] at above
    omega
  refine ⟨s₁, _, booted, run, grown, ?_⟩
  rw [writes' _ fun f same => outside f (by omega), writes _ fun f mine => outside f (by omega)]
  rfl

/-- The first physical address after 2 MiB. -/
theorem directMap_missed :
    ∃ s₁ s, reinitialisePgt.run bootStart = .ok (some (tableAt 16), s₁) ∧
      (create (some fun i => s₁.mem (tableAt 16 + 8 * i))).run s₁ = .ok ((), s) ∧ Rooted s ∧
      processorWalk s (directMapped 0x200000) = some 0x200000 ∧
      ¬ Agrees s (directMapped 0x200000) := by
  obtain ⟨s₁, s, booted, run, apart, zero⟩ := bootStart_boots
  have h := kernelHalf_created rfl booted run apart
  have walk := h.walk (x := 0x200000) (by decide)
  refine ⟨s₁, s, booted, run, h.rooted, walk, ?_⟩
  rintro ⟨r, lookup, found⟩
  rw [walk] at found
  obtain ⟨pa, rfl, value⟩ := Option.map_eq_some_iff.mp found
  obtain ⟨present, -⟩ := (h.getMapping_iff (by decide)).mp ⟨pa, lookup, value⟩
  have entry : entryOf s (directMapped 0x200000) 0 (0x200000 * (0x200000 / 0x200000)) = 0 := zero
  rw [entry, getFlag_zero] at present
  cases present

/-- A page that was mapped, and the direct map as it was built. -/
theorem getMapping_agrees_neighbour :
    (∃ r s, neighbour.run neighbourStart = .ok (r, s) ∧ Agrees s 0x403123) ∧
    ∃ s₁ s, reinitialisePgt.run bootStart = .ok (some (tableAt 16), s₁) ∧
      (create (some fun i => s₁.mem (tableAt 16 + 8 * i))).run s₁ = .ok ((), s) ∧
      processorWalk s (directMapped 0x123456) = some 0x123456 := by
  constructor
  · have ran : endsWith neighbour neighbourStart (fun _ s =>
        s.pgtVirtBase == pmemVaStart + 0x1000 && s.pgtPhysBase == 0x1000 &&
        decide (Plain s 0x403123 3 0x1000)) = true := by
      decide +kernel
    obtain ⟨r, s, run, facts⟩ := of_endsWith ran
    simp only [Bool.and_eq_true, beq_iff_eq, decide_eq_true_iff] at facts
    obtain ⟨⟨virt, phys⟩, plain⟩ := facts
    have base : s.pgtPhysBase.toNat = 0x1000 := by
      rw [phys]
      rfl
    have rooted : Rooted s := ⟨by rw [virt, base], by rw [base], by rw [base]; decide⟩
    refine ⟨r, s, run, ((getMapping_agrees_iff s).1 rooted 0x403123).mpr ?_⟩
    rw [base]
    exact plain
  · obtain ⟨s₁, s, booted, run, apart, -⟩ := bootStart_boots
    exact ⟨s₁, s, booted, run,
      ((getMapping_agrees_iff s).2 _ s₁ 16 _ _ rfl booted run apart 0x123456 (by decide)).1⟩

end Infos.Mm.Vma
