import Infos.Util.PrintfText

/-!
# Printed numbers

`append_num` puts the sign into the array first and every digit in front of it.
-/
namespace Infos.Util.Printf
open Infos.Lib

/-- The characters that are returned. -/
def printed (b : Buffer) (size : Nat) (fmt : List UInt8) (args : List Arg) :
    Except Fault Buffer := do
  let (count, b) ← vsnprintf b size (fmt ++ [0]) args
  .ok (b.take count)

inductive Conversion where
  | d
  | u
  | x
  | b
  deriving DecidableEq, Repr

def Conversion.letter : Conversion → UInt8
  | .d => 100
  | .u => 117
  | .x => 120
  | .b => 98

def Conversion.base : Conversion → UInt64
  | .d => 10
  | .u => 10
  | .x => 16
  | .b => 2

/-- A number of 32 bits, or of 64 for the modifier `l`. -/
inductive Value where
  | word (v : UInt32)
  | long (v : UInt64)

def Value.arg : Value → Arg
  | .word v => .word v
  | .long v => .long v

def Value.signed : Value → Int
  | .word v => v.toInt32.toInt
  | .long v => v.toInt64.toInt

def Value.unsigned : Value → Nat
  | .word v => v.toNat
  | .long v => v.toNat

def Conversion.format (c : Conversion) : Value → List UInt8
  | .word _ => [37, c.letter]
  | .long _ => [37, 108, c.letter]

/-- The number that a conversion is about. -/
def Conversion.reads (c : Conversion) (v : Value) : Int :=
  if c = .d then v.signed else v.unsigned

def Conversion.number (c : Conversion) (v : Value) : Number :=
  match v with
  | .word v => Printf.number (extend (c = .d) v) c.base (c = .d) 0 32
  | .long v => Printf.number v c.base (c = .d) 0 32

section Numbers
variable {b : Buffer} {size : Nat} {fmt : List UInt8} {args : List Arg} {its : List Item}

theorem printed_eq (pos : 0 < size) (whole : b.length = size) (proper : 0 ∉ fmt)
    (found : items fmt args = some its) :
    printed b size fmt args = .ok ((emit (size - 1) its).map some) := by
  unfold printed
  rw [vsnprintf_eq pos whole proper found]
  simp [bind, Except.bind, Buffer.holding]

theorem items_format (c : Conversion) (v : Value) :
    items (c.format v) [v.arg] = some [.num (c.number v)] := by
  cases c <;> cases v <;> rfl

/-- A 64-bit number that is not negative is its own magnitude. -/
theorem toNat_of_nonneg {v : UInt64} (h : ¬ v.toInt64 < 0) : (v.toNat : Int) = v.toInt64.toInt := by
  have nonneg : ¬ v.toInt64.toInt < 0 := fun lt => h (Int64.lt_iff_toInt_lt.mpr lt)
  have split : v.toInt64.toInt =
      if 2 * v.toNat < 2 ^ 64 then (v.toNat : Int) else (v.toNat : Int) - ((2 ^ 64 : Nat) : Int) :=
    BitVec.toInt_eq_toNat_cond v.toBitVec
  have bound := v.toNat_lt
  split_ifs at split with low
  · exact split.symm
  · omega

theorem extend_signed (v : UInt32) : (extend true v).toInt64 = v.toInt32.toInt64 := rfl

theorem number_negative (c : Conversion) (v : Value) :
    (c.number v).negative = true ↔ c = .d ∧ v.signed < 0 := by
  by_cases decimal : c = .d
  · subst decimal
    cases v with
    | word v =>
        have sign : v.toInt32.toInt64 < 0 ↔ v.toInt32.toInt < 0 := by
          rw [Int64.lt_iff_toInt_lt, Int32.toInt_toInt64]
          rfl
        simp [Conversion.number, number, Value.signed, extend_signed, sign]
    | long v =>
        have sign : v.toInt64 < 0 ↔ v.toInt64.toInt < 0 := Int64.lt_iff_toInt_lt
        simp [Conversion.number, number, Value.signed, sign]
  · cases v <;> simp [Conversion.number, number, decimal]

theorem number_magnitude {c : Conversion} {v : Value} (h : ¬ (c = .d ∧ v.signed < 0)) :
    ((c.number v).magnitude : Int) = c.reads v := by
  have positive : (c.number v).negative ≠ true := fun neg => h ((number_negative c v).mp neg)
  by_cases decimal : c = .d
  · subst decimal
    cases v with
    | word v =>
        have below : ¬ (extend true v).toInt64 < 0 := by
          simpa [Conversion.number, number] using positive
        have value := toNat_of_nonneg below
        rw [extend_signed, Int32.toInt_toInt64] at value
        simpa [Conversion.number, number, Conversion.reads, Value.signed, below] using value
    | long v =>
        have below : ¬ v.toInt64 < 0 := by
          simpa [Conversion.number, number] using positive
        simpa [Conversion.number, number, Conversion.reads, Value.signed, below] using
          toNat_of_nonneg below
  · cases v <;> simp [Conversion.number, number, Conversion.reads, Value.unsigned, extend, decimal]

theorem number_base (c : Conversion) (v : Value) : (c.number v).base = c.base.toNat := by
  cases v <;> rfl

theorem number_pad (c : Conversion) (v : Value) : (c.number v).pad = 0 := by
  cases v <;> rfl

theorem base_bounds (c : Conversion) : 1 < c.base.toNat ∧ c.base.toNat ≤ 16 := by
  cases c <;> decide

theorem magnitude_lt (c : Conversion) (v : Value) : (c.number v).magnitude < 2 ^ 64 := by
  cases v <;> exact UInt64.toNat_lt _

/-- With enough room and no padding all the digits are there, and the sign behind them. -/
theorem number_text (c : Conversion) (v : Value) {room : Nat} (enough : 65 ≤ room) :
    (c.number v).text room = numeral c.base.toNat (c.number v).magnitude ++ (c.number v).sign := by
  have bits : (numeral c.base.toNat (c.number v).magnitude).length ≤ 64 := by
    refine numeral_length_le (base_bounds c).1 (by decide) ((magnitude_lt c v).trans_le ?_)
    exact Nat.pow_le_pow_left (base_bounds c).1 64
  have sign := sign_length (c.number v)
  have whole : (c.number v).body room =
      numeral c.base.toNat (c.number v).magnitude ++ (c.number v).sign := by
    have all : (numeral c.base.toNat (c.number v).magnitude).length -
        (room - (c.number v).sign.length) = 0 := by omega
    rw [Number.body, number_base, List.rtake, all, List.drop_zero]
  have none : (c.number v).padding room = 0 := by
    have short : ((c.number v).body room).length ≤ 65 := by
      rw [whole, List.length_append]
      omega
    rw [Number.padding, number_pad, wrap_eq (by omega) (by omega)]
    omega
  rw [Number.text, none, whole]
  rfl

/-- The output is the numeral, which reads back as the number, unless a sign is due. -/
theorem number_exact_iff (c : Conversion) (v : Value) (b : Buffer) (enough : 80 ≤ b.length) :
    (∃ text : List UInt8, printed b b.length (c.format v) [v.arg] = .ok (text.map some) ∧
      text = signedNumeral c.base.toNat (c.reads v) ∧
      ofSignedNumeral c.base.toNat text = some (c.reads v)) ↔
    ¬ (c = .d ∧ v.signed < 0) := by
  have proper : 0 ∉ c.format v := by
    cases c <;> cases v <;> simp [Conversion.format, Conversion.letter]
  have run := printed_eq (b := b) (by omega) rfl proper (items_format c v)
  rw [emit_cons (by omega), Item.text, emit_nil, List.append_nil, number_text c v (by omega)] at run
  rw [run]
  constructor
  · rintro ⟨text, same, rfl, _⟩ negative
    have sign : (c.number v).sign = [45] := if_pos ((number_negative c v).mpr negative)
    obtain ⟨d, rest, split, _, digit, _⟩ :=
      numeral_head (base_bounds c).1 (base_bounds c).2 (c.number v).magnitude
    have below : c.reads v < 0 := by
      rw [Conversion.reads, if_pos negative.1]
      exact negative.2
    rw [sign, split, signedNumeral, if_pos below] at same
    simp [digit] at same
  · intro positive
    have sign : (c.number v).sign = [] :=
      if_neg fun neg => positive ((number_negative c v).mp neg)
    have value := number_magnitude positive
    have text : numeral c.base.toNat (c.number v).magnitude ++ (c.number v).sign =
        signedNumeral c.base.toNat (c.reads v) := by
      rw [sign, signedNumeral, ← value, if_neg (by omega)]
      simp
    rw [text]
    exact ⟨_, rfl, rfl, ofSignedNumeral_signedNumeral (base_bounds c).1 (base_bounds c).2 _⟩

end Numbers

/-- The hexadecimal digits of -5 are those of 4294967291. -/
theorem number_exact_hex : ∃ text : List UInt8,
    printed (.new 80) 80 (Conversion.x.format (.word (-5))) [.word (-5)] = .ok (text.map some) ∧
      text = signedNumeral 16 4294967291 ∧ ofSignedNumeral 16 text = some 4294967291 :=
  (number_exact_iff .x (.word (-5)) (.new 80) (by decide)).mpr (by decide)

/-- -5 is printed as `5-`. -/
theorem number_minus :
    printed (.new 80) 80 (Conversion.d.format (.word (-5))) [.word (-5)] =
        .ok ([53, 45].map some) ∧
      signedNumeral Conversion.d.base.toNat (Conversion.d.reads (.word (-5))) = [45, 53] := by
  decide +kernel

end Infos.Util.Printf
