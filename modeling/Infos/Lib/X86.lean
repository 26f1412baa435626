import Mathlib.Algebra.Group.Int.Defs
import Mathlib.Algebra.Group.Nat.Defs
import Mathlib.Logic.Function.Basic
import Mathlib.Tactic.SplitIfs

/-!
# String instructions of the x86-64

The registers that the string instructions use, the two flags they depend on and memory by
the byte. An instruction is a function on states.
-/
namespace Infos.Lib.X86
open Function

abbrev Memory := UInt64 → UInt8

/-- `zf` is the zero flag and `df` the direction flag. -/
structure Cpu where
  rax : UInt64
  rcx : UInt64
  rdx : UInt64
  rsi : UInt64
  rdi : UInt64
  zf : Bool
  df : Bool
  mem : Memory

inductive Reg where
  | rax
  | rcx
  | rdx
  | rsi
  | rdi

namespace Cpu

def read (s : Cpu) : Reg → UInt64
  | .rax => s.rax
  | .rcx => s.rcx
  | .rdx => s.rdx
  | .rsi => s.rsi
  | .rdi => s.rdi

def write (s : Cpu) (r : Reg) (v : UInt64) : Cpu :=
  match r with
  | .rax => { s with rax := v }
  | .rcx => { s with rcx := v }
  | .rdx => { s with rdx := v }
  | .rsi => { s with rsi := v }
  | .rdi => { s with rdi := v }

/-- The flags that a result leaves. -/
def flagged (s : Cpu) (result : UInt64) : Cpu := { s with zf := result == 0 }

def test (a b : Reg) (s : Cpu) : Cpu := s.flagged (s.read a &&& s.read b)

def cld (s : Cpu) : Cpu := { s with df := false }

def mov (src dst : Reg) (s : Cpu) : Cpu := s.write dst (s.read src)

/-- A move of the low halves clears the high half of the destination. -/
def movl (src dst : Reg) (s : Cpu) : Cpu := s.write dst (s.read src).toUInt32.toUInt64

def shr (count : UInt64) (r : Reg) (s : Cpu) : Cpu :=
  (s.write r (s.read r >>> count)).flagged (s.read r >>> count)

def and (mask : UInt64) (r : Reg) (s : Cpu) : Cpu :=
  (s.write r (s.read r &&& mask)).flagged (s.read r &&& mask)

def xorl (src dst : Reg) (s : Cpu) : Cpu :=
  let result := ((s.read src).toUInt32 ^^^ (s.read dst).toUInt32).toUInt64
  (s.write dst result).flagged result

/-- The destination of a string instruction moves with its width, down if `df` is set. -/
def advance (s : Cpu) (width : UInt64) : Cpu :=
  { s with rdi := if s.df then s.rdi - width else s.rdi + width }

def stosb (s : Cpu) : Cpu := { s with mem := update s.mem s.rdi s.rax.toUInt8 }.advance 1

/-- The eight bytes of `w` from `a` on, the lowest first. -/
def storeWord (mem : Memory) (a w : UInt64) : Memory := fun x =>
  if x - a < 8 then (w >>> (8 * (x - a))).toUInt8 else mem x

def stosq (s : Cpu) : Cpu := { s with mem := storeWord s.mem s.rdi s.rax }.advance 8

def repeated (op : Cpu → Cpu) : Nat → Cpu → Cpu
  | 0, s => s
  | n + 1, s => repeated op n { op s with rcx := s.rcx - 1 }

/-- `rep` counts `rcx` down to 0. -/
def rep (op : Cpu → Cpu) (s : Cpu) : Cpu := repeated op s.rcx.toNat s

end Cpu

/-! ### Blocks of memory -/

/-- The `n` bytes from `a` on are `c`; the addresses wrap around. -/
def fill (mem : Memory) (a : UInt64) (n : Nat) (c : UInt8) : Memory := fun x =>
  if (x - a).toNat < n then c else mem x

section Fill
variable {mem : Memory} {a : UInt64} {c : UInt8} {m n : Nat}

theorem toNat_distance (x a b : UInt64) :
    (x - (a + b)).toNat = ((x - a).toNat + (2 ^ 64 - b.toNat)) % 2 ^ 64 := by
  rw [show x - (a + b) = x - a - b by grind, UInt64.toNat_sub]
  congr 1
  omega

theorem fill_zero : fill mem a 0 c = mem := rfl

theorem fill_one : fill mem a 1 c = update mem a c := by
  funext x
  rw [fill, update_apply]
  congr 1
  rw [Nat.lt_one_iff, eq_iff_iff]
  constructor
  · intro none
    have same : x - a = 0 := UInt64.toNat_inj.mp none
    grind
  · rintro rfl
    rw [UInt64.sub_self]
    rfl

/-- Two blocks one behind the other are one block. -/
theorem fill_fill (fits : m + n ≤ 2 ^ 64) (small : m < 2 ^ 64) :
    fill (fill mem a m c) (a + UInt64.ofNat m) n c = fill mem a (m + n) c := by
  funext x
  have length : (UInt64.ofNat m).toNat = m := UInt64.toNat_ofNat_of_lt' small
  have bound : (x - a).toNat < 2 ^ 64 := (x - a).toNat_lt
  simp only [fill, toNat_distance, length]
  by_cases first : (x - a).toNat < m
  · rw [if_pos first, if_pos (Nat.lt_add_right n first), ite_self]
  · rw [if_neg first]
    congr 1
    rw [eq_iff_iff]
    omega

/-- `mem'` is `mem` with `n` bytes `c` from `a` on, and no other change. -/
structure Filled (mem mem' : Memory) (a : UInt64) (n : Nat) (c : UInt8) : Prop where
  inside : ∀ i < n, mem' (a + UInt64.ofNat i) = c
  outside : ∀ x, (∀ i < n, x ≠ a + UInt64.ofNat i) → mem' x = mem x

theorem address_eq (x a : UInt64) : x = a + UInt64.ofNat (x - a).toNat := by
  rw [UInt64.ofNat_toNat, UInt64.add_comm, UInt64.sub_add_cancel]

theorem distance_eq {i : Nat} (small : i < 2 ^ 64) : (a + UInt64.ofNat i - a).toNat = i := by
  rw [UInt64.add_comm, UInt64.add_sub_cancel]
  exact UInt64.toNat_ofNat_of_lt' small

theorem fill_inside {i : Nat} (small : i < 2 ^ 64) :
    fill mem a n c (a + UInt64.ofNat i) = if i < n then c else mem (a + UInt64.ofNat i) := by
  rw [fill, distance_eq small]

theorem filled_iff {mem' : Memory} (fits : n ≤ 2 ^ 64) :
    Filled mem mem' a n c ↔ mem' = fill mem a n c := by
  constructor
  · rintro ⟨inside, outside⟩
    funext x
    rw [fill]
    split_ifs with here
    · rw [address_eq x a]
      exact inside _ here
    · refine outside x fun i below same => here ?_
      rwa [same, distance_eq (Nat.lt_of_lt_of_le below fits)]
  · rintro rfl
    refine ⟨fun i below => ?_, fun x away => if_neg fun here => away _ here (address_eq x a)⟩
    rw [fill_inside (Nat.lt_of_lt_of_le below fits), if_pos below]

/-- A shorter block of zeroes does if the rest is 0 already. -/
theorem fill_eq_fill_iff {q : Nat} (le : q ≤ n) (fits : n ≤ 2 ^ 64) :
    fill mem a q c = fill mem a n c ↔ ∀ i, q ≤ i → i < n → mem (a + UInt64.ofNat i) = c := by
  constructor
  · intro same i from_q below
    have at_i := congrFun same (a + UInt64.ofNat i)
    rwa [fill_inside (Nat.lt_of_lt_of_le below fits), fill_inside (Nat.lt_of_lt_of_le below fits),
      if_neg (Nat.not_lt.mpr from_q), if_pos below] at at_i
  · intro rest
    refine (filled_iff fits).mp ⟨fun i below => ?_, fun x away => if_neg fun here => ?_⟩
    · rw [fill_inside (Nat.lt_of_lt_of_le below fits)]
      split_ifs with first
      · rfl
      · exact rest i (Nat.le_of_not_lt first) below
    · exact away _ (Nat.lt_of_lt_of_le here le) (address_eq x a)

end Fill

/-! ### Repeated stores -/

namespace Cpu
section Stores
variable {s : Cpu} {op : Cpu → Cpu} {value : UInt64} {width : Nat} {c : UInt8}

/-- With `value` in `rax`, the instruction stores `width` bytes `c` upwards. -/
def Stores (op : Cpu → Cpu) (value : UInt64) (width : Nat) (c : UInt8) : Prop :=
  ∀ s : Cpu, s.df = false → s.rax = value →
    op s = { s with mem := fill s.mem s.rdi width c, rdi := s.rdi + UInt64.ofNat width }

theorem stores_stosb (value : UInt64) : Stores stosb value 1 value.toUInt8 := by
  rintro s up rfl
  rw [stosb, advance, fill_one, up]
  rfl

theorem stores_stosq : Stores stosq 0 8 0 := by
  intro s up zero
  rw [stosq, advance, up, zero]
  have zeroes : storeWord s.mem s.rdi 0 = fill s.mem s.rdi 8 0 := by
    funext x
    rw [storeWord, fill, UInt64.zero_shiftRight]
    rfl
  rw [zeroes]
  rfl

theorem Stores.repeated (h : Stores op value width c) (n : Nat) (up : s.df = false)
    (rax : s.rax = value) (fits : n * width ≤ 2 ^ 64) (small : width < 2 ^ 64) :
    repeated op n s =
      { s with
        mem := fill s.mem s.rdi (n * width) c
        rdi := s.rdi + UInt64.ofNat (n * width)
        rcx := s.rcx - UInt64.ofNat n } := by
  induction n generalizing s with
  | zero =>
      rw [Nat.zero_mul, fill_zero]
      simp [Cpu.repeated]
  | succ n ih =>
      rw [Nat.succ_mul] at fits ⊢
      rw [Cpu.repeated, h s up rax]
      refine Eq.trans (ih ?_ ?_ ?_) ?_
      · exact up
      · exact rax
      · omega
      · simp only [Cpu.mk.injEq, true_and]
        rw [fill_fill (by omega) small, Nat.add_comm width, UInt64.ofNat_add, UInt64.ofNat_add]
        refine ⟨?_, ?_, rfl⟩
        · grind
        · grind

/-- `rep` of a store fills a block and leaves `rdi` behind it. -/
theorem Stores.rep (h : Stores op value width c) (up : s.df = false) (rax : s.rax = value)
    (fits : s.rcx.toNat * width ≤ 2 ^ 64) (small : width < 2 ^ 64) :
    rep op s =
      { s with
        mem := fill s.mem s.rdi (s.rcx.toNat * width) c
        rdi := s.rdi + UInt64.ofNat (s.rcx.toNat * width)
        rcx := 0 } := by
  rw [Cpu.rep, h.repeated _ up rax fits small, UInt64.ofNat_toNat, UInt64.sub_self]

end Stores
end Cpu
end Infos.Lib.X86
