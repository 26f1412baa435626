import Infos.Arch.Irq
import Infos.Lib.BitFields

/-!
# Descriptor tables

The GDT, the IDT and the TSS as `dt.cpp` and `IRQManager::init` fill them in, and what the
processor reads in them.
-/
namespace Infos.Arch
open Infos.Lib.BitFields Function

/-- `DataSegmentDescriptor` -/
def dataSegmentDescriptor (dpl : Nat) : Nat :=
  pack
    [(16, 0), (16, 0), (8, 0),
      -- A, W, E and two reserved bits
      (1, 0), (1, 1), (1, 0), (1, 0), (1, 1),
      (2, dpl), (1, 1), (4, 0),
      -- AVL, reserved, B and G
      (1, 0), (1, 0), (1, 1), (1, 0), (8, 0)]

/-- `CodeSegmentDescriptor` -/
def codeSegmentDescriptor (dpl : Nat) : Nat :=
  pack
    [(32, 0), (8, 0),
      -- A, R, C and two reserved bits
      (1, 0), (1, 1), (1, 0), (1, 1), (1, 1),
      (2, dpl), (1, 1), (4, 0),
      -- AVL, L, D and G
      (1, 0), (1, 1), (1, 0), (1, 0), (8, 0)]

/-- `TSSDescriptor`; its last field is not written. -/
def tssDescriptor (ptr size reserved : Nat) : Nat × Nat :=
  (pack
    [(16, size), (16, ptr), (8, ptr / 2 ^ 16),
      (4, 9), (1, 0), (2, 0), (1, 1),
      (4, size / 2 ^ 16), (1, 0), (1, 0), (1, 1), (1, 0),
      (8, ptr / 2 ^ 24)],
    pack [(32, ptr / 2 ^ 32), (32, reserved)])

/-- `InterruptGateDescriptor`; its last field is not written. -/
def interruptGateDescriptor (offset seg dpl rest : Nat) : Nat × Nat :=
  (pack
    [(16, offset), (16, seg),
      -- ist, ra_1c0_0, DPL, P
      (3, 0), (10, 0x1c0), (2, dpl), (1, 1),
      (16, offset / 2 ^ 16)],
    pack [(32, offset / 2 ^ 32), (32, rest)])

/-! ### The GDT -/

/-- `current` is the number of slots in use. -/
structure Gdt where
  current : Nat
  slots : Nat → Nat

namespace Gdt

def maxEntries : Nat := 16

def erase (g : Gdt) : Gdt := { g with current := 0 }

def add (descriptor : Nat) (g : Gdt) : Option Gdt :=
  if maxEntries ≤ g.current then none
  else some { current := g.current + 1, slots := update g.slots g.current descriptor }

def addNull (g : Gdt) : Option Gdt := g.add 0

def addCodeSegment (dpl : Nat) (g : Gdt) : Option Gdt := g.add (codeSegmentDescriptor dpl)

def addDataSegment (dpl : Nat) (g : Gdt) : Option Gdt := g.add (dataSegmentDescriptor dpl)

/-- It takes two slots. -/
def addTss (ptr size reserved : Nat) (g : Gdt) : Option Gdt :=
  if maxEntries - 1 ≤ g.current then none
  else
    let (low, high) := tssDescriptor ptr size reserved
    some
      { current := g.current + 2
        slots := update (update g.slots g.current low) (g.current + 1) high }

/-- `sizeof(tss.__tss)` -/
def tssSize : Nat := 208

/-- `GDT::init`; `tss` is where `__tss` lies. -/
def init (tss reserved : Nat) (g : Gdt) : Option Gdt := do
  let g ← g.erase.addNull
  let g ← g.addCodeSegment 0
  let g ← g.addDataSegment 0
  let g ← g.addCodeSegment 3
  let g ← g.addDataSegment 3
  g.addTss tss tssSize reserved

/-- The limit that `reload` loads. -/
def limit (g : Gdt) : Nat := g.current * 8

end Gdt

/-! ### The IDT -/

structure Idt where
  maxIndex : Nat
  gates : Nat → Nat × Nat

namespace Idt

def maxEntries : Nat := 256

def empty : Idt := { maxIndex := 0, gates := fun _ => (0, 0) }

def registerInterruptGate (index addr seg dpl rest : Nat) (idt : Idt) : Idt :=
  if maxEntries ≤ index then idt
  else
    { maxIndex := if idt.maxIndex < index then index else idt.maxIndex
      gates := update idt.gates index (interruptGateDescriptor addr seg dpl rest) }

/-- The limit that `reload` loads. -/
def limit (idt : Idt) : Nat := (idt.maxIndex + 1) * 16 % 2 ^ 16

end Idt

/-- The gates of `IRQManager::init`; `rest` is what the stack holds where a descriptor is not
written. -/
def IrqManager.initGates (entryPoints : Nat → Nat) (rest : Nat → Nat) (idt : Idt) : Idt :=
  let idt := (List.range 256).foldl
    (fun idt i => idt.registerInterruptGate i (entryPoints i) 0x08 0 (rest i)) idt
  let idt := idt.registerInterruptGate irqTrap (entryPoints irqTrap) 0x08 3 (rest 256)
  idt.registerInterruptGate irqUserSyscall (entryPoints irqUserSyscall) 0x08 3 (rest 257)

/-! ### What the processor reads -/

inductive SegmentKind where
  | code64
  | data
  | tss
  deriving DecidableEq

/-- A present descriptor. -/
structure Segment where
  kind : SegmentKind
  dpl : Nat
  base : Nat
  limit : Nat
  deriving DecidableEq

/-- The base and the limit, which only a TSS uses in 64-bit mode. -/
def readBase (low high : Nat) : Nat :=
  slice low 16 24 + 2 ^ 24 * slice low 56 8 + 2 ^ 32 * slice high 0 32

def readLimit (low : Nat) : Nat := slice low 0 16 + 2 ^ 16 * slice low 48 4

/-- The segment that a selector stands for. Bit 44 tells code and data from system segments, bit
43 code from data, and 64-bit code has `L` set and `D` clear. -/
def readSegment (g : Gdt) (selector : Nat) : Option Segment :=
  let low := g.slots (selector / 8)
  let high := g.slots (selector / 8 + 1)
  let dpl := slice low 45 2
  if slice low 47 1 = 0 ∨ g.limit < selector / 8 * 8 + 7 then none
  else if slice low 44 1 = 1 then
    if slice low 43 1 = 1 then
      if slice low 53 1 = 1 ∧ slice low 54 1 = 0 then some ⟨.code64, dpl, 0, 0⟩ else none
    else if slice low 41 1 = 1 then some ⟨.data, dpl, 0, 0⟩ else none
  else if slice low 40 4 = 9 ∧ selector / 8 * 8 + 15 ≤ g.limit then
    some ⟨.tss, dpl, readBase low high, readLimit low⟩
  else none

structure Gate where
  offset : Nat
  selector : Nat
  ist : Nat
  dpl : Nat
  deriving DecidableEq

/-- The gate of a vector, if it is a present interrupt gate. -/
def readGate (idt : Idt) (vector : Nat) : Option Gate :=
  let (low, high) := idt.gates vector
  if slice low 47 1 = 0 ∨ idt.limit < vector * 16 + 15 ∨ slice low 40 5 ≠ 0xe then none
  else
    some
      { offset := slice low 0 16 + 2 ^ 16 * slice low 48 16 + 2 ^ 32 * slice high 0 32
        selector := slice low 16 16
        ist := slice low 32 3
        dpl := slice low 45 2 }

/-! ### Gates -/

section Gates
variable {offset seg dpl rest vector : Nat} {idt : Idt}

theorem gate_offset (small : offset < 2 ^ 64) :
    offset % 2 ^ 16 + 2 ^ 16 * (offset / 2 ^ 16 % 2 ^ 16) + 2 ^ 32 * (offset / 2 ^ 32 % 2 ^ 32) =
      offset := by
  omega

theorem readGate_eq (gate : idt.gates vector = interruptGateDescriptor offset seg dpl rest)
    (inside : vector * 16 + 15 ≤ idt.limit) (offset_lt : offset < 2 ^ 64) (seg_lt : seg < 2 ^ 16)
    (dpl_lt : dpl < 4) :
    readGate idt vector = some { offset := offset, selector := seg, ist := 0, dpl := dpl } := by
  obtain ⟨low, low_eq⟩ : ∃ low, low = pack [(16, offset), (16, seg), (3, 0), (10, 0x1c0), (2, dpl),
    (1, 1), (16, offset / 2 ^ 16)] := ⟨_, rfl⟩
  obtain ⟨high, high_eq⟩ : ∃ high, high = pack [(32, offset / 2 ^ 32), (32, rest)] := ⟨_, rfl⟩
  have words : idt.gates vector = (low, high) := by
    rw [gate, low_eq, high_eq]
    rfl
  have type : slice low 40 5 = 0xe := by
    have split := pack_split [(16, offset), (16, seg), (3, 0)]
      [(2, dpl), (1, 1), (16, offset / 2 ^ 16)] 5 5 0x1c0
    exact slice_at (low_eq.trans split) [(16, offset), (16, seg), (3, 0), (5, 0x1c0)] _ 5
      (0x1c0 / 2 ^ 5) rfl rfl
  have bottom : slice low 0 16 = offset % 2 ^ 16 := slice_at low_eq [] _ 16 offset rfl rfl
  have selector : slice low 16 16 = seg % 2 ^ 16 :=
    slice_at low_eq [(16, offset)] _ 16 seg rfl rfl
  have ist : slice low 32 3 = 0 := slice_at low_eq [(16, offset), (16, seg)] _ 3 0 rfl rfl
  have level : slice low 45 2 = dpl % 2 ^ 2 :=
    slice_at low_eq [(16, offset), (16, seg), (3, 0), (10, 0x1c0)] _ 2 dpl rfl rfl
  have present : slice low 47 1 = 1 :=
    slice_at low_eq [(16, offset), (16, seg), (3, 0), (10, 0x1c0), (2, dpl)] _ 1 1 rfl rfl
  have middle : slice low 48 16 = offset / 2 ^ 16 % 2 ^ 16 :=
    slice_at low_eq [(16, offset), (16, seg), (3, 0), (10, 0x1c0), (2, dpl), (1, 1)] [] 16 _ rfl rfl
  have top : slice high 0 32 = offset / 2 ^ 32 % 2 ^ 32 := slice_at high_eq [] _ 32 _ rfl rfl
  rw [readGate, words]
  dsimp only
  rw [if_neg (by omega), bottom, selector, ist, level, middle, top]
  simp only [Option.some.injEq, Gate.mk.injEq]
  exact ⟨gate_offset offset_lt, Nat.mod_eq_of_lt seg_lt, trivial, Nat.mod_eq_of_lt dpl_lt⟩

theorem registerInterruptGate_gates {index addr : Nat} (inside : index < 256) (v : Nat) :
    (idt.registerInterruptGate index addr seg dpl rest).gates v =
      if v = index then interruptGateDescriptor addr seg dpl rest else idt.gates v := by
  rw [Idt.registerInterruptGate, if_neg (by rw [Idt.maxEntries]; omega)]
  exact update_apply ..

theorem registerInterruptGate_maxIndex {index addr : Nat} (inside : index < 256) :
    (idt.registerInterruptGate index addr seg dpl rest).maxIndex = max idt.maxIndex index := by
  rw [Idt.registerInterruptGate, if_neg (by rw [Idt.maxEntries]; omega)]
  dsimp only
  split <;> omega

end Gates

/-- The privilege level that a gate asks for. -/
def gateLevel (vector : Nat) : Nat := if vector = irqTrap ∨ vector = irqUserSyscall then 3 else 0

section Init
variable {entryPoints rest : Nat → Nat}

theorem loop_gates (entryPoints rest : Nat → Nat) (idt : Idt) (n : Nat) (small : n ≤ 256) :
    let idt' := (List.range n).foldl
      (fun idt i => idt.registerInterruptGate i (entryPoints i) 0x08 0 (rest i)) idt
    (∀ v < n, idt'.gates v = interruptGateDescriptor (entryPoints v) 0x08 0 (rest v)) ∧
      idt'.maxIndex = max idt.maxIndex (n - 1) := by
  induction n with
  | zero => exact ⟨fun v below => absurd below (Nat.not_lt_zero v), (Nat.max_zero _).symm⟩
  | succ n ih =>
      obtain ⟨gates, maxIndex⟩ := ih (by omega)
      rw [List.range_succ, List.foldl_append]
      refine ⟨fun v below => ?_, ?_⟩
      · refine (registerInterruptGate_gates (by omega) v).trans ?_
        split
        next here => rw [here]
        next there => exact gates v (by omega)
      · refine (registerInterruptGate_maxIndex (by omega)).trans ?_
        rw [maxIndex]
        omega

theorem initGates_gates (idt : Idt) (vector : Nat) (inside : vector < 256) :
    ∃ r, (IrqManager.initGates entryPoints rest idt).gates vector =
      interruptGateDescriptor (entryPoints vector) 0x08 (gateLevel vector) r := by
  obtain ⟨gates, _⟩ := loop_gates entryPoints rest idt 256 (Nat.le_refl _)
  rw [IrqManager.initGates, registerInterruptGate_gates (by decide),
    registerInterruptGate_gates (by decide), gates vector inside, gateLevel]
  by_cases user : vector = irqUserSyscall
  · exact ⟨rest 257, by rw [if_pos user, if_pos (.inr user), user]⟩
  · by_cases trap : vector = irqTrap
    · exact ⟨rest 256, by rw [if_neg user, if_pos trap, if_pos (.inl trap), trap]⟩
    · exact ⟨rest vector, by rw [if_neg user, if_neg trap, if_neg (by omega)]⟩

theorem initGates_limit {idt : Idt} (small : idt.maxIndex < 256) :
    (IrqManager.initGates entryPoints rest idt).limit = 4096 := by
  obtain ⟨_, maxIndex⟩ := loop_gates entryPoints rest idt 256 (Nat.le_refl _)
  rw [Idt.limit, IrqManager.initGates, registerInterruptGate_maxIndex (by decide),
    registerInterruptGate_maxIndex (by decide), maxIndex, irqTrap, irqUserSyscall]
  omega

end Init

/-! ### Segments -/

section Segments
variable {g : Gdt} {selector dpl tss reserved : Nat}

theorem tss_base (small : tss < 2 ^ 64) :
    tss % 2 ^ 24 + 2 ^ 24 * (tss / 2 ^ 24 % 2 ^ 8) + 2 ^ 32 * (tss / 2 ^ 32 % 2 ^ 32) = tss := by
  omega

theorem readSegment_tss {l high : Nat} (low : g.slots (selector / 8) = l)
    (above : g.slots (selector / 8 + 1) = high)
    (l_eq : l = pack [(16, 208), (16, tss), (8, tss / 2 ^ 16), (4, 9), (1, 0), (2, 0), (1, 1),
      (4, 208 / 2 ^ 16), (1, 0), (1, 0), (1, 1), (1, 0), (8, tss / 2 ^ 24)])
    (high_eq : high = pack [(32, tss / 2 ^ 32), (32, reserved)])
    (inside : selector / 8 * 8 + 15 ≤ g.limit) (small : tss < 2 ^ 64) :
    readSegment g selector = some ⟨.tss, 0, tss, 208⟩ := by
  have base : slice l 16 24 = tss % 2 ^ 24 := by
    have split := pack_split [(16, 208)] [(4, 9), (1, 0), (2, 0), (1, 1), (4, 208 / 2 ^ 16), (1, 0),
      (1, 0), (1, 1), (1, 0), (8, tss / 2 ^ 24)] 16 8 tss
    exact slice_at (l_eq.trans split.symm) [(16, 208)] _ 24 tss rfl rfl
  have present : slice l 47 1 = 1 :=
    slice_at l_eq [(16, 208), (16, tss), (8, tss / 2 ^ 16), (4, 9), (1, 0), (2, 0)] _ 1 1 rfl rfl
  have system : slice l 44 1 = 0 :=
    slice_at l_eq [(16, 208), (16, tss), (8, tss / 2 ^ 16), (4, 9)] _ 1 0 rfl rfl
  have type : slice l 40 4 = 9 :=
    slice_at l_eq [(16, 208), (16, tss), (8, tss / 2 ^ 16)] _ 4 9 rfl rfl
  have level : slice l 45 2 = 0 :=
    slice_at l_eq [(16, 208), (16, tss), (8, tss / 2 ^ 16), (4, 9), (1, 0)] _ 2 0 rfl rfl
  have limit : slice l 0 16 = 208 := slice_at l_eq [] _ 16 208 rfl rfl
  have limit_high : slice l 48 4 = 0 :=
    slice_at l_eq [(16, 208), (16, tss), (8, tss / 2 ^ 16), (4, 9), (1, 0), (2, 0), (1, 1)] _ 4
      (208 / 2 ^ 16) rfl rfl
  have base_high : slice l 56 8 = tss / 2 ^ 24 % 2 ^ 8 :=
    slice_at l_eq [(16, 208), (16, tss), (8, tss / 2 ^ 16), (4, 9), (1, 0), (2, 0), (1, 1),
      (4, 208 / 2 ^ 16), (1, 0), (1, 0), (1, 1), (1, 0)] [] 8 _ rfl rfl
  have base_top : slice high 0 32 = tss / 2 ^ 32 % 2 ^ 32 := slice_at high_eq [] _ 32 _ rfl rfl
  rw [readSegment, low, above, if_neg (by omega), if_neg (by omega), if_pos ⟨type, inside⟩, level,
    readBase, readLimit, base, base_high, base_top, limit, limit_high, tss_base small, Nat.mul_zero]

theorem init_slots {g' : Gdt} (init : g.init tss reserved = some g') :
    g'.current = 7 ∧ g'.slots 1 = codeSegmentDescriptor 0 ∧ g'.slots 2 = dataSegmentDescriptor 0 ∧
      g'.slots 3 = codeSegmentDescriptor 3 ∧ g'.slots 4 = dataSegmentDescriptor 3 ∧
      g'.slots 5 = (tssDescriptor tss 208 reserved).1 ∧
      g'.slots 6 = (tssDescriptor tss 208 reserved).2 := by
  cases init
  exact ⟨rfl, rfl, rfl, rfl, rfl, rfl, rfl⟩

theorem readSegment_fixed (limit : g.limit = 56) :
    (g.slots 1 = codeSegmentDescriptor 0 → readSegment g 0x08 = some ⟨.code64, 0, 0, 0⟩) ∧
      (g.slots 2 = dataSegmentDescriptor 0 → readSegment g 0x10 = some ⟨.data, 0, 0, 0⟩) ∧
      (g.slots 3 = codeSegmentDescriptor 3 → readSegment g 0x1b = some ⟨.code64, 3, 0, 0⟩) ∧
      (g.slots 4 = dataSegmentDescriptor 3 → readSegment g 0x23 = some ⟨.data, 3, 0, 0⟩) := by
  refine ⟨?_, ?_, ?_, ?_⟩
  all_goals
    intro slot
    simp only [readSegment, Nat.reduceDiv, slot, limit]
    rfl

end Segments

/-- Every selector that the kernel loads stands for a present segment of its kind and ring, and
each vector for an interrupt gate to its own entry point in the kernel's code, that user code can
use for traps and system calls alone. -/
theorem tables_decode {g g' : Gdt} {idt : Idt} {tss reserved : Nat} {entryPoints rest : Nat → Nat}
    (init : g.init tss reserved = some g') (tss_lt : tss < 2 ^ 64)
    (entries : ∀ v < 256, entryPoints v < 2 ^ 64) (empty : idt.maxIndex < 256) :
    readSegment g' 0x08 = some ⟨.code64, 0, 0, 0⟩ ∧ readSegment g' 0x10 = some ⟨.data, 0, 0, 0⟩ ∧
      readSegment g' 0x1b = some ⟨.code64, 3, 0, 0⟩ ∧ readSegment g' 0x23 = some ⟨.data, 3, 0, 0⟩ ∧
      readSegment g' 0x28 = some ⟨.tss, 0, tss, 208⟩ ∧
      ∀ v < 256, readGate (IrqManager.initGates entryPoints rest idt) v =
        some { offset := entryPoints v, selector := 0x08, ist := 0, dpl := gateLevel v } := by
  obtain ⟨current, slot1, slot2, slot3, slot4, slot5, slot6⟩ := init_slots init
  have limit : g'.limit = 56 := by rw [Gdt.limit, current]
  obtain ⟨code, data, userCode, userData⟩ := readSegment_fixed limit
  refine ⟨code slot1, data slot2, userCode slot3, userData slot4, ?_, fun v inside => ?_⟩
  · exact readSegment_tss slot5 slot6 rfl rfl (by rw [limit]; decide) tss_lt
  · obtain ⟨r, gate⟩ := initGates_gates idt v inside
    refine readGate_eq gate ?_ (entries v inside) (by decide) ?_
    · rw [initGates_limit empty]
      omega
    · rw [gateLevel]
      split
      all_goals decide

/-- A kernel with its tables in the upper half. -/
theorem tables_decode_upper :
    ∃ g : Gdt, ({ current := 0, slots := fun _ => 0 } : Gdt).init 0xffffffff80200000 0 = some g ∧
      readSegment g 0x28 = some ⟨.tss, 0, 0xffffffff80200000, 208⟩ ∧
      readGate (IrqManager.initGates (fun v => 0xffffffff80100000 + 16 * v) (fun _ => 0) .empty)
        irqUserSyscall = some ⟨0xffffffff80100810, 0x08, 0, 3⟩ := by
  have entries : ∀ v < 256, 0xffffffff80100000 + 16 * v < 2 ^ 64 := fun v inside => by omega
  obtain ⟨_, _, _, _, tss, gates⟩ := @tables_decode { current := 0, slots := fun _ => 0 } _ .empty
    0xffffffff80200000 0 (fun v => 0xffffffff80100000 + 16 * v) (fun _ => 0) rfl (by decide) entries
    (by decide)
  exact ⟨_, rfl, tss, gates irqUserSyscall (by decide)⟩

end Infos.Arch
