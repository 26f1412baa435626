import Infos.Lib.X86

/-!
# memset and bzero

The two routines of `fast-string.S`. `memset` falls through into `bzero` for the value 0.
-/
namespace Infos.Arch.FastString
open Infos.Lib.X86

/-- Label 2, where the ways through the two routines meet. -/
def storeBytes (s : Cpu) : Cpu :=
  let s := s.rep Cpu.stosb
  s.mov .rdi .rax

def bzero (s : Cpu) : Cpu :=
  let s := s.cld
  let s := s.mov .rsi .rcx
  let s := s.shr 3 .rcx
  let s := s.xorl .rax .rax
  let s := s.rep Cpu.stosq
  let s := s.mov .rsi .rcx
  let s := s.and 3 .rcx
  storeBytes s

/-- `memset` where the jump to label 1 is not taken. -/
def bytePath (s : Cpu) : Cpu :=
  let s := s.cld
  let s := s.movl .rsi .rax
  let s := s.mov .rdx .rcx
  storeBytes s

def memset (s : Cpu) : Cpu :=
  let s := s.test .rsi .rsi
  if s.zf then bzero (s.mov .rdx .rsi) else bytePath s

/-! ### Calls from C -/

/-- `memset(dest, c, n)` for a byte `c`. As an `int` it is not negative, so that its upper bits
are 0. -/
def memsetArgs (s : Cpu) (dest : UInt64) (c : UInt8) (n : UInt64) : Cpu :=
  { s with rdi := dest, rsi := c.toUInt64, rdx := n }

/-- `bzero(dest, n)` -/
def bzeroArgs (s : Cpu) (dest n : UInt64) : Cpu := { s with rdi := dest, rsi := n }

/-- What a call with these arguments promises. -/
structure Meets (s : Cpu) (dest : UInt64) (c : UInt8) (n : UInt64) : Prop where
  filled : Filled s.mem (memset (memsetArgs s dest c n)).mem dest n.toNat c
  bzero : (bzero (bzeroArgs s dest n)).mem = (memset (memsetArgs s dest 0 n)).mem
  paths : (memset (memsetArgs s dest c n)).mem = (bytePath (memsetArgs s dest c n)).mem

/-- The four bytes that the remainder of the zero path leaves out are 0 already, or there are
none. -/
def RestZero (s : Cpu) (dest n : UInt64) : Prop :=
  n.toNat % 8 < 4 ∨ ∀ i, n.toNat - 4 ≤ i → i < n.toNat → s.mem (dest + UInt64.ofNat i) = 0

section Memory
variable {s : Cpu} {dest n : UInt64} {c : UInt8}

theorem storeBytes_mem (up : s.df = false) :
    (storeBytes s).mem = fill s.mem s.rdi s.rcx.toNat s.rax.toUInt8 := by
  have count : s.rcx.toNat * 1 ≤ 2 ^ 64 := by
    have := s.rcx.toNat_lt
    omega
  rw [storeBytes, (Cpu.stores_stosb s.rax).rep up rfl count (by decide), Nat.mul_one]
  rfl

theorem bytePath_mem (s : Cpu) :
    (bytePath s).mem = fill s.mem s.rdi s.rdx.toNat s.rsi.toUInt32.toUInt64.toUInt8 :=
  storeBytes_mem rfl

/-- The remainder is taken modulo 4. -/
theorem bzero_mem (s : Cpu) :
    (bzero s).mem = fill s.mem s.rdi (s.rsi.toNat / 8 * 8 + s.rsi.toNat % 4) 0 := by
  have bound := s.rsi.toNat_lt
  have words : (s.rsi >>> 3).toNat = s.rsi.toNat / 8 := by
    rw [UInt64.toNat_shiftRight, Nat.shiftRight_eq_div_pow]
    rfl
  have rest : (s.rsi &&& 3).toNat = s.rsi.toNat % 4 := by
    rw [UInt64.toNat_and]
    exact Nat.and_two_pow_sub_one_eq_mod s.rsi.toNat 2
  let cleared : Cpu := { s with df := false, rcx := s.rsi >>> 3, rax := 0, zf := true }
  have start : ((s.cld.mov .rsi .rcx).shr 3 .rcx).xorl .rax .rax = cleared := by
    simp [cleared, Cpu.xorl, Cpu.shr, Cpu.mov, Cpu.cld, Cpu.flagged, Cpu.read, Cpu.write]
  have count : cleared.rcx.toNat = s.rsi.toNat / 8 := words
  have stored := Cpu.stores_stosq.rep (s := cleared) rfl rfl (by omega) (by decide)
  rw [count] at stored
  have run : bzero s = storeBytes (((cleared.rep Cpu.stosq).mov .rsi .rcx).and 3 .rcx) := by
    rw [← start]
    rfl
  have whole : s.rsi.toNat / 8 * 8 < 2 ^ 64 := by omega
  rw [run, stored, storeBytes_mem rfl]
  change fill (fill s.mem s.rdi (s.rsi.toNat / 8 * 8) 0)
    (s.rdi + UInt64.ofNat (s.rsi.toNat / 8 * 8)) (s.rsi &&& 3).toNat 0 = _
  rw [rest, fill_fill (by omega) whole]

theorem bzero_eq_memset (s : Cpu) (dest n : UInt64) :
    (bzero (bzeroArgs s dest n)).mem = (memset (memsetArgs s dest 0 n)).mem := by
  have zero : memset (memsetArgs s dest 0 n) =
      bzero (((memsetArgs s dest 0 n).test .rsi .rsi).mov .rdx .rsi) := by
    have taken : ((memsetArgs s dest 0 n).test .rsi .rsi).zf = true := by
      simp [Cpu.test, Cpu.flagged, Cpu.read, memsetArgs]
    exact if_pos taken
  rw [zero, bzero_mem, bzero_mem]
  rfl

theorem memset_nonzero (some : c ≠ 0) :
    (memset (memsetArgs s dest c n)).mem = (bytePath (memsetArgs s dest c n)).mem := by
  have jump : memset (memsetArgs s dest c n) =
      bytePath ((memsetArgs s dest c n).test .rsi .rsi) := by
    refine if_neg fun zero => some ?_
    have none : c.toUInt64 &&& c.toUInt64 = 0 := beq_iff_eq.mp zero
    rw [UInt64.and_self] at none
    exact UInt8.toNat_inj.mp (congrArg UInt64.toNat none)
  rw [jump, bytePath_mem, bytePath_mem]
  rfl

theorem bytePath_fills (s : Cpu) (dest : UInt64) (c : UInt8) (n : UInt64) :
    (bytePath (memsetArgs s dest c n)).mem = fill s.mem dest n.toNat c := by
  rw [bytePath_mem]
  change fill s.mem dest n.toNat c.toUInt64.toUInt32.toUInt64.toUInt8 = _
  congr 1
  exact UInt8.toNat_inj.mp (by simp)

theorem zero_filled_iff (s : Cpu) (dest n : UInt64) :
    (bzero (bzeroArgs s dest n)).mem = fill s.mem dest n.toNat 0 ↔ RestZero s dest n := by
  have bound := n.toNat_lt
  rw [bzero_mem]
  change fill s.mem dest (n.toNat / 8 * 8 + n.toNat % 4) 0 = _ ↔ _
  rw [fill_eq_fill_iff (by omega) (by omega), RestZero]
  by_cases few : n.toNat % 8 < 4
  · refine iff_of_true (fun i from_q below => ?_) (.inl few)
    omega
  · have rest : n.toNat / 8 * 8 + n.toNat % 4 = n.toNat - 4 := by omega
    simp only [few, false_or, rest]

/-- `memset` and `bzero` fill exactly the bytes asked for if and only if the value is not 0 or
the part of the block that the zero path leaves out needs no store. -/
theorem meets_iff (s : Cpu) (dest : UInt64) (c : UInt8) (n : UInt64) :
    Meets s dest c n ↔ c ≠ 0 ∨ RestZero s dest n := by
  have whole : n.toNat ≤ 2 ^ 64 := Nat.le_of_lt n.toNat_lt
  by_cases zero : c = 0
  · subst zero
    have same := bzero_eq_memset s dest n
    have filled := zero_filled_iff s dest n
    simp only [ne_eq, not_true_eq_false, false_or]
    rw [← filled]
    constructor
    · rintro ⟨filled, _, _⟩
      rw [same]
      exact (filled_iff whole).mp filled
    · intro fills
      rw [same] at fills
      exact ⟨(filled_iff whole).mpr fills, same, fills.trans (bytePath_fills s dest 0 n).symm⟩
  · refine iff_of_true ⟨?_, bzero_eq_memset s dest n, ?_⟩ (.inl zero)
    · rw [filled_iff whole, memset_nonzero zero]
      exact bytePath_fills s dest c n
    · exact memset_nonzero zero

end Memory

/-- Four bytes of value 1, to be cleared. -/
def ones : Cpu :=
  { rax := 0, rcx := 0, rdx := 0, rsi := 0, rdi := 0, zf := false, df := false, mem := fun _ => 1 }

/-- A block of four bytes stays as it was. -/
theorem four_not_cleared : ¬ Meets ones 4096 0 4 := by
  intro meets
  have fills : (bzero (bzeroArgs ones 4096 4)).mem = fill ones.mem 4096 4 0 := by
    rw [meets.bzero]
    exact (filled_iff (by decide)).mp meets.filled
  rcases (zero_filled_iff ones 4096 4).mp fills with few | zeroes
  · exact absurd few (by decide)
  · exact absurd (zeroes 0 (by decide) (by decide)) (by decide)
end Infos.Arch.FastString
