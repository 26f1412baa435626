import Infos.Fs.Archive
import Mathlib.Data.Nat.Digits.Defs

/-!
# Size fields

`octal2ui` against the number that a string of octal digits stands for. The
loop counts from the last character, and its index never reaches the first.
-/
namespace Infos.Fs
open Infos.Lib Infos.Util

/-- Octal digits, no more of them than a size field has room for. -/
structure OctalString where
  data : List UInt8
  digits : ∀ c ∈ data, 48 ≤ c.toNat ∧ c.toNat < 56
  nonempty : data ≠ []
  short : data.length ≤ 11

def digit (c : UInt8) : Nat := c.toNat - 48

/-- The number in base 8, the first character the most significant. -/
def octalValue (data : List UInt8) : Nat := Nat.ofDigits 8 (data.map digit).reverse

section Digits
variable {data : List UInt8} {c : UInt8} {i : Nat}

theorem char_sub (range : 48 ≤ c.toNat ∧ c.toNat < 56) : c.toInt8.toInt - 48 = digit c := by
  have char := char_digit (c.toNat - 48) (by omega)
  rw [show 48 + (c.toNat - 48) = c.toNat by omega, UInt8.ofNat_toNat] at char
  rw [char, digit]
  omega

theorem octalValue_cons :
    octalValue (c :: data) = octalValue data + 8 ^ data.length * digit c := by
  unfold octalValue
  rw [List.map_cons, Nat.ofDigits_reverse_cons, List.length_map]

theorem octalValue_lt (digits : ∀ c ∈ data, 48 ≤ c.toNat ∧ c.toNat < 56) :
    octalValue data < 8 ^ data.length := by
  induction data with
  | nil => decide
  | cons c data ih =>
      have rest := ih fun d mem => digits d (List.mem_cons_of_mem c mem)
      have first : digit c ≤ 7 := by
        have := digits c List.mem_cons_self
        unfold digit
        omega
      rw [octalValue_cons, List.length_cons, Nat.pow_succ]
      nlinarith

/-- After `i` rounds the last `i` characters are in `value`. -/
theorem octalStep_digits (digits : ∀ c ∈ data, 48 ≤ c.toNat ∧ c.toNat < 56)
    (le : i ≤ data.length) (small : i ≤ 10) :
    (List.range' 1 i).foldl (octalStep data) (0, 1) =
      (octalValue (data.drop (data.length - i)), (8 ^ i : Int)) := by
  induction i with
  | zero =>
      rw [Nat.sub_zero, List.drop_length]
      rfl
  | succ i ih =>
      have inside : data.length - (i + 1) < data.length := by omega
      obtain ⟨c, eq⟩ : ∃ c, data[data.length - (i + 1)] = c := ⟨_, rfl⟩
      have range := digits c (by rw [← eq]; exact List.getElem_mem inside)
      have split : data.drop (data.length - (i + 1)) = c :: data.drop (data.length - i) := by
        have next : data.length - (i + 1) + 1 = data.length - i := by omega
        rw [List.drop_eq_getElem_cons inside, eq, next]
      have length : (data.drop (data.length - i)).length = i := by
        rw [List.length_drop]
        omega
      have here : data.getD (data.length - (1 + i)) 0 = c := by
        rw [Nat.add_comm 1 i, List.getD_eq_getElem _ _ inside, eq]
      have bound : octalValue (data.drop (data.length - (i + 1))) < 8 ^ (i + 1) := by
        have := octalValue_lt fun d mem =>
          digits d (List.mem_of_mem_drop (i := data.length - (i + 1)) mem)
        rwa [split, List.length_cons, length, ← split] at this
      have top : 8 ^ (i + 1) ≤ 8 ^ 10 := Nat.pow_le_pow_right (by decide) small
      have sum : (octalValue (data.drop (data.length - i)) : Int) + 8 ^ i * (digit c : Int) =
          (octalValue (data.drop (data.length - (i + 1))) : Nat) := by
        rw [split, octalValue_cons, length]
        push_cast
        ring
      have factor : (8 ^ i * 8 : Int) = ((8 ^ (i + 1) : Nat) : Int) := by
        push_cast
        ring
      rw [List.range'_1_concat, List.foldl_append, ih (by omega) (by omega), List.foldl_cons,
        List.foldl_nil, octalStep, here, char_sub range]
      dsimp only
      rw [sum, factor, toUInt32_natCast (by omega), toInt32_natCast (by omega), Nat.cast_pow,
        Nat.cast_ofNat]

theorem octal2ui_cons (digits : ∀ d ∈ c :: data, 48 ≤ d.toNat ∧ d.toNat < 56)
    (short : data.length ≤ 10) : octal2ui (c :: data) = octalValue data := by
  rw [octal2ui, octalStep_digits digits (by simp) (by simpa using short)]
  simp

end Digits

/-! ### Which sizes are decoded -/

theorem OctalString.not_mem_zero (o : OctalString) : 0 ∉ o.data := by
  intro mem
  exact absurd (o.digits 0 mem).1 (by decide)

theorem headerSize_octal {head : Block} {o : OctalString} {rest : List UInt8}
    (field : head.1.drop 124 = o.data ++ 0 :: rest) :
    headerSize head = .ok (octal2ui o.data) := by
  rw [headerSize, field, cString_append o.not_mem_zero]
  rfl

theorem OctalString.decodes_iff (o : OctalString) :
    octal2ui o.data = octalValue o.data ↔ o.data.head? = some 48 := by
  obtain ⟨data, digits, nonempty, short⟩ := o
  cases data with
  | nil => exact absurd rfl nonempty
  | cons c data =>
      dsimp only
      have range := digits c List.mem_cons_self
      have pos : 0 < 8 ^ data.length := Nat.pow_pos (by decide)
      rw [octal2ui_cons digits (Nat.le_of_lt_succ short), octalValue_cons, List.head?_cons,
        Option.some_inj]
      constructor
      · intro eq
        have zero : digit c = 0 := by
          rcases Nat.eq_zero_or_pos (digit c) with zero | positive
          · exact zero
          · have := Nat.mul_pos pos positive
            omega
        apply UInt8.toNat_inj.mp
        unfold digit at zero
        rw [show (48 : UInt8).toNat = 48 from rfl]
        omega
      · intro eq
        rw [eq, show digit 48 = 0 from rfl]
        omega

/-- `octal2ui` decodes exactly the strings that begin with a zero, and of the sizes written out
in eleven digits exactly those below `8 ^ 10`. -/
theorem octal2ui_decodes_iff (o : OctalString) (n : Nat) :
    (octal2ui o.data = octalValue o.data ↔ o.data.head? = some 48) ∧
    (∀ (head : Block) (rest : List UInt8), head.1.drop 124 = o.data ++ 0 :: rest →
      (headerSize head = .ok (octalValue o.data) ↔ o.data.head? = some 48)) ∧
    (octal2ui (octalDigits n) = n ↔ n < 8 ^ 10) := by
  refine ⟨o.decodes_iff, ?_, ?_⟩
  · intro head rest field
    rw [headerSize_octal field, Except.ok.injEq]
    exact o.decodes_iff
  · rw [octal2ui_octalDigits_mod]
    constructor
    · intro eq
      have := Nat.mod_lt n (by decide : 8 ^ 10 > 0)
      omega
    · exact Nat.mod_eq_of_lt

/-- A block with nothing but this in its size field. -/
def sizeBlock (o : OctalString) : Block :=
  ⟨List.replicate 124 0 ++ (o.data ++ 0 :: List.replicate (387 - o.data.length) 0), by
    have := o.short
    simp
    omega⟩

/-- "017" is fifteen. -/
def fifteen : OctalString := ⟨[48, 49, 55], by simp, by simp, by simp⟩

theorem fifteen_decoded : octal2ui fifteen.data = 15 ∧ headerSize (sizeBlock fifteen) = .ok 15 ∧
    octal2ui (octalDigits 15) = 15 :=
  have ⟨string, header, size⟩ := octal2ui_decodes_iff fifteen 15
  ⟨string.mpr rfl, (header (sizeBlock fifteen) (List.replicate 384 0) rfl).mpr rfl,
    size.mpr (by simp)⟩

/-- "7" is seven. -/
def seven : OctalString := ⟨[55], by simp, by simp, by simp⟩

/-- It is read as zero, and so is the size of a file of a gigabyte. -/
theorem seven_lost :
    (octalValue seven.data = 7 ∧ octal2ui seven.data = 0) ∧
    octal2ui (octalDigits (2 ^ 30)) = 0 ∧
    ¬ ((∀ o : OctalString, octalValue o.data < 2 ^ 32 → octal2ui o.data = octalValue o.data) ∧
      ∀ n, n < 2 ^ 32 → octal2ui (octalDigits n) = n) := by
  refine ⟨⟨by decide, by decide⟩, ?_, ?_⟩
  · rw [octal2ui_octalDigits_mod]
    simp
  rintro ⟨decodes, -⟩
  exact absurd (decodes seven (by decide)) (by decide)

end Infos.Fs
