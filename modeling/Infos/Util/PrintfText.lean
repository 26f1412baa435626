import Infos.Lib.Numerals
import Infos.Util.Printf

/-!
# What formatted output says

A format is read as a list of directives and these, with the arguments, as a list of
items. An item has a text for each room that may be left for it.
-/
namespace Infos.Util.Printf
open Infos.Lib

/-- A number as it is printed, with `-` behind the digits. -/
structure Number where
  negative : Bool
  magnitude : Nat
  base : Nat
  pad : Int
  padChar : UInt8

namespace Number

def sign (n : Number) : List UInt8 := if n.negative then [45] else []

/-- The low digits for which there is room. -/
def body (n : Number) (room : Nat) : List UInt8 :=
  (numeral n.base n.magnitude).rtake (room - n.sign.length) ++ n.sign

/-- The pad width is cut to one less than the room. -/
def padding (n : Number) (room : Nat) : Nat :=
  min (room - (n.body room).length)
    (wrap (min n.pad ((room : Int) - 1) - (n.body room).length)).toNat

def text (n : Number) (room : Nat) : List UInt8 :=
  List.replicate (n.padding room) n.padChar ++ n.body room

end Number

/-- The number that `append_num` prints. -/
def number (value base : UInt64) (sgn : Bool) (pad : Int) (padChar : UInt8) : Number where
  negative := sgn && value.toInt64 < 0
  magnitude := (if sgn && value.toInt64 < 0 then -value else value).toNat
  base := base.toNat
  pad := pad
  padChar := padChar

inductive Item where
  | char (c : UInt8)
  | str (s : List UInt8) (pad : Int) (padChar : UInt8)
  | num (n : Number)

def strText (s : List UInt8) (pad : Int) (padChar : UInt8) (room : Nat) : List UInt8 :=
  s.take room ++ List.replicate (min pad room - (s.take room).length).toNat padChar

def Item.text : Item → Nat → List UInt8
  | .char c, _ => [c]
  | .str s pad padChar, room => strText s pad padChar room
  | .num n, room => n.text room

/-- The texts of items that have to share the room. -/
def emit : Nat → List Item → List UInt8
  | _, [] => []
  | 0, _ :: _ => []
  | room + 1, item :: items =>
      item.text (room + 1) ++ emit (room + 1 - (item.text (room + 1)).length) items

/-! ### Formats -/

inductive Directive where
  | literal (c : UInt8)
  | number (signed : Bool) (base : UInt64) (spec : Spec)
  | pointer (spec : Spec)
  | string (spec : Spec)
  | character

/-- The directives of a format, or of what is left of it inside a conversion. -/
def directives : Option Spec → List UInt8 → List Directive
  | _, [] => []
  | none, c :: fmt =>
      if c = 37 then directives (some {}) fmt else .literal c :: directives none fmt
  | some spec, c :: fmt =>
      if c = 48 then directives (some spec.zero) fmt
      else if 49 ≤ c ∧ c ≤ 57 then directives (some (spec.digit c)) fmt
      else if c = 100 ∨ c = 117 then .number (c = 100) 10 spec :: directives none fmt
      else if c = 98 then .number false 2 spec :: directives none fmt
      else if c = 120 then .number false 16 spec :: directives none fmt
      else if c = 112 then .pointer spec :: directives none fmt
      else if c = 108 then directives (some spec.long) fmt
      else if c = 115 then .string spec :: directives none fmt
      else if c = 99 then .character :: directives none fmt
      else .literal c :: directives none fmt

def extend (signed : Bool) (v : UInt32) : UInt64 :=
  if signed then v.toInt32.toInt64.toUInt64 else v.toUInt64

/-- What a directive prints, if it finds an argument of its type. -/
def Directive.items : Directive → List Arg → Option (List Item × List Arg)
  | .literal c, args => some ([.char c], args)
  | .number signed base spec, .word v :: args =>
      if spec.numberSize = 8 then none
      else
        some ([.num (Printf.number (extend signed v) base signed spec.padSize spec.padChar)], args)
  | .number signed base spec, .long v :: args =>
      if spec.numberSize = 8 then
        some ([.num (Printf.number v base signed spec.padSize spec.padChar)], args)
      else none
  | .pointer spec, .long v :: args =>
      some ([.str [48, 120] 0 32, .num (Printf.number v 16 false spec.padSize spec.padChar)], args)
  | .string spec, .str s :: args => some ([.str s.text spec.padSize spec.padChar], args)
  | .character, .word v :: args => some ([.char v.toUInt8], args)
  | _, _ => none

def instantiate : List Directive → List Arg → Option (List Item)
  | [], _ => some []
  | d :: ds, args => do
      let (items, args) ← d.items args
      let rest ← instantiate ds args
      some (items ++ rest)

/-- The items of a format, if the arguments match it. -/
def items (fmt : List UInt8) (args : List Arg) : Option (List Item) :=
  instantiate (directives none fmt) args

/-! ### Numbers in the array -/

section Append
variable {b : Buffer} {front t s : List UInt8} {value base : UInt64} {sgn : Bool} {pad : Int}
  {padChar c : UInt8} {room size n : Nat}

theorem shift_eq (pre : Buffer) (t : List UInt8) (x : Option UInt8) (rest : Buffer) :
    ∃ y, shift pre.length t.length (pre ++ t.map some ++ x :: rest) =
      .ok (pre ++ y :: t.map some ++ rest) := by
  induction t using List.reverseRecOn generalizing x rest with
  | nil => exact ⟨x, by simp [shift]⟩
  | append_singleton t d ih =>
      obtain ⟨y, shifted⟩ := ih (some d) (some d :: rest)
      refine ⟨y, ?_⟩
      have read : Buffer.read (pre ++ (t ++ [d]).map some ++ x :: rest) (pre.length + t.length) =
          .ok d := by
        have cell := Buffer.read_append (pre ++ t.map some) (x :: rest) d
        simpa using cell
      have write : Buffer.write (pre ++ (t ++ [d]).map some ++ x :: rest)
          (pre.length + t.length + 1) d = .ok (pre ++ t.map some ++ some d :: some d :: rest) := by
        have cell := Buffer.write_append (pre ++ (t ++ [d]).map some) rest d x
        simpa [Nat.add_assoc] using cell
      rw [List.length_append, List.length_singleton, shift, read]
      simp only [bind, Except.bind, write, shifted]
      simp

/-- A character goes in front of a text that is already there. -/
theorem prependToBuffer_eq (b : Buffer) (front t : List UInt8) (c : UInt8)
    (inside : front.length + t.length < b.length) :
    prependToBuffer c front.length t.length (b.holding (front ++ t)) =
      .ok (b.holding (front ++ c :: t)) := by
  have room : (front ++ t).length < b.length := by simpa using inside
  obtain ⟨x, split⟩ := Buffer.holding_cons room
  obtain ⟨y, shifted⟩ := shift_eq (front.map some) t x (b.drop ((front ++ t).length + 1))
  have write := Buffer.write_append (front.map some)
    (t.map some ++ b.drop ((front ++ t).length + 1)) c y
  rw [List.length_map] at shifted write
  unfold prependToBuffer
  rw [split, List.map_append, shifted]
  simp only [bind, Except.bind, List.append_assoc, List.cons_append]
  rw [write, Buffer.holding]
  simp [Nat.add_assoc]

theorem digitChar_eq {d : Nat} (small : d < 16) : digitChar d = digitByte d := by
  revert d
  decide

/-- The digits that are left, none of them for 0. -/
def digitsOf (base value : Nat) : List UInt8 := if value = 0 then [] else numeral base value

theorem digitsOf_pos {base value : Nat} (proper : 1 < base) (pos : 0 < value) :
    digitsOf base value = digitsOf base (value / base) ++ [digitByte (value % base)] := by
  rw [digitsOf, if_neg (by omega), numeral_eq_if proper, digitsOf]
  by_cases one : value < base
  · simp [one, Nat.div_eq_of_lt one, Nat.mod_eq_of_lt one]
  · have some : value / base ≠ 0 := (Nat.div_pos (Nat.le_of_not_lt one) (by omega)).ne'
    simp [one, some]

theorem appendDigits_eq (value : UInt64) (t : List UInt8) (proper : 1 < base.toNat)
    (small : base.toNat ≤ 16) (inside : front.length + t.length + room ≤ b.length) :
    appendDigits front.length base room value t.length (b.holding (front ++ t)) =
      let text := (digitsOf base.toNat value.toNat).rtake room ++ t
      .ok (text.length, b.holding (front ++ text)) := by
  induction room generalizing value t with
  | zero => simp [appendDigits]
  | succ room ih =>
      rw [appendDigits]
      by_cases pos : 0 < value
      · have pos' : 0 < value.toNat := UInt64.lt_iff_toNat_lt.mp pos
        have digit : (value % base).toNat < 16 := by
          rw [UInt64.toNat_mod]
          exact (Nat.mod_lt _ (by omega)).trans_le small
        have next := ih (value / base) (digitChar (value % base).toNat :: t) (by simp; omega)
        rw [if_pos pos, prependToBuffer_eq _ _ _ _ (by omega), digitsOf_pos proper pos',
          List.rtake_concat_succ]
        rw [List.length_cons, UInt64.toNat_div, digitChar_eq digit, UInt64.toNat_mod] at next
        simp only [bind, Except.bind]
        rw [digitChar_eq digit, UInt64.toNat_mod, next]
        simp
      · have none : value.toNat = 0 := by
          have := mt UInt64.lt_iff_toNat_lt.mpr pos
          simpa using this
        simp [pos, digitsOf, none]

theorem prependPad_eq (pad : Int) (t : List UInt8)
    (inside : front.length + t.length + room ≤ b.length) :
    prependPad front.length padChar room pad t.length (b.holding (front ++ t)) =
      let text := List.replicate (min room pad.toNat) padChar ++ t
      .ok (text.length, b.holding (front ++ text)) := by
  induction room generalizing pad t with
  | zero => simp [prependPad]
  | succ room ih =>
      rw [prependPad]
      by_cases pos : 0 < pad
      · have next := ih (pad - 1) (padChar :: t) (by simp; omega)
        have one : min (room + 1) pad.toNat = min room (pad - 1).toNat + 1 := by omega
        rw [if_pos pos, prependToBuffer_eq _ _ _ _ (by omega)]
        simp only [bind, Except.bind]
        rw [← List.length_cons (a := padChar), next, one, List.replicate_succ']
        simp
      · have none : pad.toNat = 0 := by omega
        simp [pos, none]

/-- The digits behind a sign, with the one digit of 0. -/
theorem appendBody_eq (b : Buffer) (front t : List UInt8) (value : UInt64) (size : Nat)
    (proper : 1 < base.toNat) (small : base.toNat ≤ 16) (sign : t.length ≤ size)
    (inside : front.length + size ≤ b.length) :
    appendBody front.length size value base t.length (b.holding (front ++ t)) =
      let text := (numeral base.toNat value.toNat).rtake (size - t.length) ++ t
      .ok (text.length, b.holding (front ++ text)) := by
  unfold appendBody
  by_cases pos : 0 < value
  · have some : value.toNat ≠ 0 := (UInt64.lt_iff_toNat_lt.mp pos).ne'
    rw [if_pos pos, appendDigits_eq value t proper small (by omega), digitsOf, if_neg some]
  · have none : value.toNat = 0 := by
      have := mt UInt64.lt_iff_toNat_lt.mpr pos
      simpa using this
    rw [if_neg pos, none, numeral_zero proper]
    by_cases room : t.length < size
    · have again : Buffer.write (b.holding (front ++ 48 :: t)) front.length 48 =
          .ok (b.holding (front ++ 48 :: t)) := by
        have cell := Buffer.write_append (front.map some)
          (t.map some ++ b.drop ((front ++ 48 :: t).length)) 48 (some 48)
        simpa [Buffer.holding] using cell
      have one : ([48] : List UInt8).rtake (size - t.length) = [48] := by
        obtain ⟨k, more⟩ : ∃ k, size - t.length = k + 1 := ⟨size - t.length - 1, by omega⟩
        rw [more]
        simpa using List.rtake_concat_succ [] k (48 : UInt8)
      rw [if_pos room, prependToBuffer_eq _ _ _ _ (by omega), one]
      simp only [bind, Except.bind, again]
      rfl
    · have full : size - t.length = 0 := by omega
      rw [if_neg room, full, List.rtake_zero]
      rfl

theorem body_length (n : Number) (room : Nat) (sign : n.sign.length ≤ room) :
    (n.body room).length ≤ room := by
  have digits : ((numeral n.base n.magnitude).rtake (room - n.sign.length)).length ≤
      room - n.sign.length := by
    rw [List.rtake_eq_reverse_take_reverse, List.length_reverse]
    exact List.length_take_le _ _
  rw [Number.body, List.length_append]
  omega

/-- The padding in front of the digits. -/
theorem appendPadding_eq (b : Buffer) (front : List UInt8) (size : Nat) (n : Number)
    (sign : n.sign.length ≤ size) (inside : front.length + size ≤ b.length) :
    prependPad front.length n.padChar (size - (n.body size).length)
        (wrap ((if n.pad ≥ size then (size : Int) - 1 else n.pad) - (n.body size).length))
        (n.body size).length (b.holding (front ++ n.body size)) =
      .ok ((n.text size).length, b.holding (front ++ n.text size)) := by
  have short := body_length n size sign
  have cut : (if n.pad ≥ size then (size : Int) - 1 else n.pad) = min n.pad ((size : Int) - 1) := by
    split_ifs <;> omega
  rw [cut]
  exact prependPad_eq _ _ (by omega)

/-- What `append_num` writes; for the sign it needs at least one place. -/
theorem appendNum_eq (b : Buffer) (front : List UInt8) (size : Nat) (value : UInt64) (sgn : Bool)
    (pad : Int) (padChar : UInt8) (proper : 1 < base.toNat) (small : base.toNat ≤ 16)
    (signed : sgn = true → 0 < size) (inside : front.length + size ≤ b.length) :
    appendNum front.length size value base sgn pad padChar (b.holding front) =
      let text := (number value base sgn pad padChar).text size
      .ok (text.length, b.holding (front ++ text)) := by
  unfold appendNum
  by_cases negative : sgn = true ∧ value.toInt64 < 0
  · obtain ⟨rfl, below⟩ := negative
    have room := signed rfl
    have sign := prependToBuffer_eq b front [] 45 (by simp; omega)
    have digits := appendBody_eq b front [45] (-value) size proper small room inside
    have padded := appendPadding_eq b front size
      (number value base true pad padChar) (by simp [number, Number.sign, below]; omega) inside
    have body : (number value base true pad padChar).body size =
        (numeral base.toNat (-value).toNat).rtake (size - [(45 : UInt8)].length) ++ [45] := by
      simp [number, Number.body, Number.sign, below]
    rw [body] at padded
    simp only [List.append_nil, List.length_nil, List.length_singleton] at sign digits padded
    simp only [below, and_self, if_true, bind, Except.bind, sign, digits]
    exact padded
  · have digits := appendBody_eq b front [] value size proper small (by simp) inside
    have padded := appendPadding_eq b front size
      (number value base sgn pad padChar) (by simp [number, Number.sign, negative]) inside
    have body : (number value base sgn pad padChar).body size =
        (numeral base.toNat value.toNat).rtake (size - ([] : List UInt8).length) ++ [] := by
      simp [number, Number.body, Number.sign, negative]
    rw [body] at padded
    simp only [List.append_nil, List.length_nil] at digits padded
    simp only [negative, if_false, bind, Except.bind, digits]
    exact padded

theorem copyText_eq (t : List UInt8) (room : Nat) (proper : 0 ∉ s)
    (inside : front.length + t.length + room ≤ b.length) :
    copyText front.length room (s ++ [0]) t.length (b.holding (front ++ t)) =
      .ok ((t ++ s.take room).length, b.holding (front ++ (t ++ s.take room))) := by
  induction s generalizing room t with
  | nil => simp [copyText]
  | cons c s ih =>
      have some : c ≠ 0 := fun e => proper (e ▸ List.mem_cons_self)
      rw [List.cons_append, copyText]
      cases room with
      | zero => simp
      | succ room =>
          have next := ih (t ++ [c]) room
            (fun mem => proper (List.mem_cons_of_mem c mem)) (by simp; omega)
          have write := Buffer.write_holding c (show (front ++ t).length < b.length by simp; omega)
          rw [List.length_append] at write
          rw [if_pos ⟨some, Nat.succ_pos room⟩]
          simp only [write, bind, Except.bind]
          simpa using next

theorem appendPad_eq (pad : Int) (padChar : UInt8) (room : Nat) (t : List UInt8)
    (inside : front.length + t.length + room ≤ b.length) :
    appendPad front.length pad padChar room t.length (b.holding (front ++ t)) =
      let text :=
        t ++ List.replicate (min pad ((t.length + room : Nat) : Int) - t.length).toNat padChar
      .ok (text.length, b.holding (front ++ text)) := by
  induction room generalizing t with
  | zero =>
      have none : (min pad ((t.length : Nat) : Int) - t.length).toNat = 0 := by omega
      simp [appendPad, none]
  | succ room ih =>
      rw [appendPad]
      by_cases more : t.length < pad
      · have next := ih (t ++ [padChar]) (by simp; omega)
        have write := Buffer.write_holding padChar
          (show (front ++ t).length < b.length by simp; omega)
        have one : (min pad ((t.length + (room + 1) : Nat) : Int) - t.length).toNat =
            (min pad ((t.length + 1 + room : Nat) : Int) - ((t.length + 1 : Nat) : Int)).toNat +
              1 := by
          omega
        rw [List.length_append] at write
        rw [List.length_append, List.length_singleton] at next
        rw [if_pos more, one, List.replicate_succ]
        simp only [write, bind, Except.bind]
        simpa using next
      · have none : (min pad ((t.length + (room + 1) : Nat) : Int) - t.length).toNat = 0 := by omega
        rw [if_neg more, none]
        simp

theorem appendStr_eq (b : Buffer) (front : List UInt8) (size : Nat) (pad : Int) (padChar : UInt8)
    (proper : 0 ∉ s) (inside : front.length + size ≤ b.length) :
    appendStr front.length size (s ++ [0]) pad padChar (b.holding front) =
      .ok ((strText s pad padChar size).length,
        b.holding (front ++ strText s pad padChar size)) := by
  have nothing : front.length + ([] : List UInt8).length + size ≤ b.length := by simpa using inside
  have copied := copyText_eq [] size proper nothing
  have short : (s.take size).length ≤ size := List.length_take_le _ _
  have room : front.length + (s.take size).length + (size - (s.take size).length) ≤ b.length := by
    omega
  have padded := appendPad_eq pad padChar (size - (s.take size).length) (s.take size) room
  have whole : (s.take size).length + (size - (s.take size).length) = size := by omega
  unfold appendStr
  simp only [List.append_nil, List.nil_append, List.length_nil] at copied
  simp only [copied, bind, Except.bind]
  rw [whole] at padded
  exact padded

end Append

/-! ### The whole output -/

section Emit
variable {its rest : List Item} {item : Item} {d : Directive} {ds : List Directive} {spec : Spec}
  {args args' : List Arg} {room : Nat} {signed : Bool} {base : UInt64}

@[simp] theorem emit_nil (room : Nat) : emit room [] = [] := by cases room <;> rfl

@[simp] theorem emit_zero (its : List Item) : emit 0 its = [] := by cases its <;> rfl

theorem emit_cons (pos : 0 < room) (item : Item) (its : List Item) :
    emit room (item :: its) = item.text room ++ emit (room - (item.text room).length) its := by
  cases room with
  | zero => cases pos
  | succ room => rfl

/-- Characters and strings without padding are cut off where the room ends. -/
theorem emit_chars (cs : List UInt8) (its : List Item) (room : Nat) :
    emit room (cs.map .char ++ its) = cs.take room ++ emit (room - cs.length) its := by
  induction cs generalizing room with
  | nil => rw [List.map_nil, List.nil_append, List.take_nil, List.nil_append]; rfl
  | cons c cs ih =>
      cases room with
      | zero => simp
      | succ room =>
          rw [List.map_cons, List.cons_append, emit_cons room.succ_pos]
          change [c] ++ emit room (cs.map .char ++ its) = _
          rw [ih, List.take_succ_cons, List.length_cons, Nat.add_sub_add_right]
          rfl

theorem emit_str (s : List UInt8) (padChar : UInt8) (its : List Item) (room : Nat) :
    emit room (.str s 0 padChar :: its) = s.take room ++ emit (room - s.length) its := by
  cases room with
  | zero => simp
  | succ room =>
      have bare : (Item.str s 0 padChar).text (room + 1) = s.take (room + 1) := by
        have none : (min 0 ((room + 1 : Nat) : Int) - (s.take (room + 1)).length).toNat = 0 := by
          omega
        rw [Item.text, strText, none, List.replicate_zero, List.append_nil]
      have left : room + 1 - (s.take (room + 1)).length = room + 1 - s.length := by
        rw [List.length_take]
        omega
      rw [emit_cons room.succ_pos, bare, left]

/-- A string among characters. -/
theorem emit_around (front s back : List UInt8) (padChar : UInt8) (room : Nat) :
    emit room (front.map .char ++ .str s 0 padChar :: back.map .char) =
      (front ++ s ++ back).take room := by
  have last := emit_chars back [] (room - front.length - s.length)
  rw [List.append_nil, emit_nil, List.append_nil] at last
  rw [emit_chars, emit_str, last, List.append_assoc, List.take_append, List.take_append]

theorem sign_length (n : Number) : n.sign.length ≤ 1 := by
  unfold Number.sign
  split_ifs <;> simp

theorem Number.text_length (n : Number) (sign : n.sign.length ≤ room) :
    (n.text room).length ≤ room := by
  have short := body_length n room sign
  simp only [Number.text, Number.padding, List.length_append, List.length_replicate]
  omega

theorem strText_length (s : List UInt8) (pad : Int) (padChar : UInt8) (room : Nat) :
    (strText s pad padChar room).length ≤ room := by
  have short : (s.take room).length ≤ room := List.length_take_le _ _
  simp only [strText, List.length_append, List.length_replicate]
  omega

theorem Item.text_length (item : Item) (pos : 0 < room) : (item.text room).length ≤ room := by
  cases item with
  | char c => exact pos
  | str s pad padChar => exact strText_length s pad padChar room
  | num n => exact n.text_length ((sign_length n).trans pos)

theorem emit_length (room : Nat) (its : List Item) : (emit room its).length ≤ room := by
  induction its generalizing room with
  | nil => simp
  | cons item its ih =>
      cases room with
      | zero => simp
      | succ room =>
          have first := item.text_length (Nat.succ_pos room)
          have rest := ih (room + 1 - (item.text (room + 1)).length)
          rw [emit_cons (Nat.succ_pos room), List.length_append]
          simp only [Nat.succ_eq_add_one] at first ⊢
          omega

theorem instantiate_cons (found : instantiate (d :: ds) args = some its) :
    ∃ first args' rest, d.items args = some (first, args') ∧ instantiate ds args' = some rest ∧
      its = first ++ rest := by
  rw [instantiate] at found
  obtain ⟨⟨first, args'⟩, printed, found⟩ := Option.bind_eq_some_iff.mp found
  obtain ⟨rest, behind, found⟩ := Option.bind_eq_some_iff.mp found
  exact ⟨first, args', rest, printed, behind, (Option.some.inj found).symm⟩

/-- The argument that `va_arg` takes for a number. -/
theorem items_number (found : (Directive.number signed base spec).items args = some (its, args')) :
    ∃ v, its = [.num (number v base signed spec.padSize spec.padChar)] ∧
      vaDecimal spec signed args = .ok (v, args') := by
  cases args with
  | nil => cases found
  | cons arg args =>
      cases arg with
      | word v =>
          rw [Directive.items] at found
          split_ifs at found with long
          cases found
          exact ⟨extend signed v, rfl, by simp [vaDecimal, long, vaWord, extend, bind, Except.bind]⟩
      | long v =>
          rw [Directive.items] at found
          split_ifs at found with long
          cases found
          exact ⟨v, rfl, by simp [vaDecimal, long, vaLong]⟩
      | str s => cases found

/-- `%b` and `%x` take it as `%u` does. -/
theorem vaUnsigned_eq (spec : Spec) (args : List Arg) :
    vaUnsigned spec false args = vaDecimal spec false args := by
  simp [vaUnsigned, vaDecimal]

theorem items_pointer (found : (Directive.pointer spec).items args = some (its, args')) :
    ∃ v, its = [.str [48, 120] 0 32, .num (number v 16 false spec.padSize spec.padChar)] ∧
      vaUnsigned spec true args = .ok (v, args') := by
  cases args with
  | nil => cases found
  | cons arg args =>
      cases arg with
      | word v => cases found
      | long v =>
          cases found
          exact ⟨v, rfl, by simp [vaUnsigned, vaLong]⟩
      | str s => cases found

theorem items_string (found : (Directive.string spec).items args = some (its, args')) :
    ∃ s : CString, its = [.str s.text spec.padSize spec.padChar] ∧
      vaString args = .ok (s.text ++ [0], args') := by
  cases args with
  | nil => cases found
  | cons arg args =>
      cases arg with
      | word v => cases found
      | long v => cases found
      | str s =>
          cases found
          exact ⟨s, rfl, rfl⟩

theorem items_character (found : Directive.character.items args = some (its, args')) :
    ∃ v, its = [.char v.toUInt8] ∧ vaWord args = .ok (v, args') := by
  cases args with
  | nil => cases found
  | cons arg args =>
      cases arg with
      | word v =>
          cases found
          exact ⟨v, rfl, rfl⟩
      | long v => cases found
      | str s => cases found

end Emit

section Output
variable {b : Buffer} {size : Nat} {fmt front : List UInt8} {mode : Option Spec} {spec : Spec}
  {args args' : List Arg} {its rest : List Item} {item : Item}

theorem emit_append (item : Item) (rest : List Item) (inside : front.length < size - 1) :
    front ++ item.text (size - 1 - front.length) ++
        emit (size - 1 - (front ++ item.text (size - 1 - front.length)).length) rest =
      front ++ emit (size - 1 - front.length) (item :: rest) := by
  have room : size - 1 - (front ++ item.text (size - 1 - front.length)).length =
      size - 1 - front.length - (item.text (size - 1 - front.length)).length := by
    rw [List.length_append, Nat.sub_add_eq]
  rw [emit_cons (by omega), room, List.append_assoc]

theorem finish_eq (inside : front.length < b.length) :
    finish front.length (b.holding front) = .ok (front.length, b.holding (front ++ [0])) := by
  simp only [finish, Buffer.write_holding 0 inside, bind, Except.bind]

/-- What is written from a place in the format on, with the NUL behind it. -/
def Writes (b : Buffer) (size : Nat) (fmt front : List UInt8) (mode : Option Spec)
    (args : List Arg) (its : List Item) : Prop :=
  vsnprintfLoop size (fmt ++ [0]) mode args front.length (b.holding front) =
    let text := front ++ emit (size - 1 - front.length) its
    .ok (text.length, b.holding (text ++ [0]))

/-- Outside of a conversion the rest of the format is written. -/
def WritesRest (b : Buffer) (size : Nat) (fmt : List UInt8) : Prop :=
  ∀ {front : List UInt8} {args : List Arg} {its : List Item}, front.length < size →
    instantiate (directives none fmt) args = some its → Writes b size fmt front none args its

/-- After the text of an item the loop goes on behind it. -/
theorem WritesRest.behind (h : WritesRest b size fmt) (inside : front.length < size - 1)
    (found : instantiate (directives none fmt) args = some rest) (item : Item) :
    vsnprintfLoop size (fmt ++ [0]) none args
        (front.length + (item.text (size - 1 - front.length)).length)
        (b.holding (front ++ item.text (size - 1 - front.length))) =
      let text := front ++ emit (size - 1 - front.length) (item :: rest)
      .ok (text.length, b.holding (text ++ [0])) := by
  have short := item.text_length (by omega : 0 < size - 1 - front.length)
  rw [← emit_append item rest inside, ← List.length_append]
  exact h (by rw [List.length_append]; omega) found

theorem WritesRest.literal (h : WritesRest b size fmt) (whole : size ≤ b.length)
    (inside : front.length < size - 1)
    (found : instantiate (directives none fmt) args = some rest) (c : UInt8) :
    (do vsnprintfLoop size (fmt ++ [0]) none args (front.length + 1)
          (← (b.holding front).write front.length c)) =
      let text := front ++ emit (size - 1 - front.length) (.char c :: rest)
      Except.ok (text.length, b.holding (text ++ [0])) := by
  have write := Buffer.write_holding c (by omega : front.length < b.length)
  simp only [write, bind, Except.bind]
  exact h.behind inside found (.char c)

section Numbers
variable {base : UInt64} {sgn : Bool} {pad : Int} {padChar : UInt8}

theorem WritesRest.number (h : WritesRest b size fmt) (whole : size ≤ b.length)
    (inside : front.length < size - 1)
    (found : instantiate (directives none fmt) args = some rest) (v : UInt64)
    (proper : 1 < base.toNat) (small : base.toNat ≤ 16) :
    (do let (rc, b) ← appendNum front.length (size - 1 - front.length) v base sgn pad padChar
          (b.holding front)
        vsnprintfLoop size (fmt ++ [0]) none args (front.length + rc) b) =
      let text := front ++ emit (size - 1 - front.length)
        (.num (Printf.number v base sgn pad padChar) :: rest)
      Except.ok (text.length, b.holding (text ++ [0])) := by
  have appended := appendNum_eq b front (size - 1 - front.length) v sgn pad padChar proper small
    (fun _ => by omega) (by omega)
  simp only [appended, bind, Except.bind]
  exact h.behind inside found (.num _)

/-- An unsigned number for which no room is left. -/
theorem WritesRest.full (h : WritesRest b size fmt) (whole : size ≤ b.length)
    (full : front.length + 1 = size)
    (found : instantiate (directives none fmt) args = some rest) (v : UInt64)
    (proper : 1 < base.toNat) (small : base.toNat ≤ 16) :
    (do let (rc, b) ← appendNum front.length (size - 1 - front.length) v base false pad padChar
          (b.holding front)
        vsnprintfLoop size (fmt ++ [0]) none args (front.length + rc) b) =
      Except.ok (front.length, b.holding (front ++ [0])) := by
  have none : size - 1 - front.length = 0 := by omega
  have appended := appendNum_eq b front 0 v false pad padChar proper small nofun (by omega)
  have empty : (Printf.number v base false pad padChar).text 0 = [] :=
    List.length_eq_zero_iff.mp (Nat.le_zero.mp (Number.text_length _ le_rfl))
  have rest := h (by omega : front.length < size) found
  rw [Writes, none, emit_zero, List.append_nil] at rest
  rw [empty] at appended
  rw [none]
  simp only [appended, bind, Except.bind, List.append_nil, List.length_nil, Nat.add_zero]
  exact rest

theorem WritesRest.pointer (h : WritesRest b size fmt) (whole : size ≤ b.length)
    (inside : front.length < size - 1)
    (found : instantiate (directives none fmt) args = some rest) (v : UInt64) :
    (do let (rc, b) ← appendStr front.length (size - 1 - front.length) [48, 120, 0] 0 32
          (b.holding front)
        let (rc', b) ← appendNum (front.length + rc) (size - 1 - (front.length + rc)) v 16 false
          pad padChar b
        vsnprintfLoop size (fmt ++ [0]) none args (front.length + rc + rc') b) =
      let text := front ++ emit (size - 1 - front.length)
        (.str [48, 120] 0 32 :: .num (Printf.number v 16 false pad padChar) :: rest)
      Except.ok (text.length, b.holding (text ++ [0])) := by
  have appended := appendStr_eq (s := [48, 120]) b front (size - 1 - front.length) 0 32 (by decide)
    (by omega)
  have short := strText_length [48, 120] 0 32 (size - 1 - front.length)
  have split := emit_append (.str [48, 120] 0 32)
    (.num (Printf.number v 16 false pad padChar) :: rest) inside
  rw [← split, Item.text]
  simp only [bind, Except.bind]
  rw [show [48, 120, 0] = [48, 120] ++ [(0 : UInt8)] from rfl, appended]
  simp only [← List.length_append]
  generalize strText [48, 120] 0 32 (size - 1 - front.length) = prefixed at short ⊢
  have bound : (front ++ prefixed).length < size := by
    rw [List.length_append]
    omega
  rcases Nat.lt_or_ge (front ++ prefixed).length (size - 1) with more | full
  · exact h.number whole more found v (by decide) (by decide)
  · have none : size - 1 - (front ++ prefixed).length = 0 := by omega
    rw [none, emit_zero, List.append_nil, ← none]
    exact h.full whole (by omega) found v (by decide) (by decide)

end Numbers

theorem vsnprintfLoop_eq (front : List UInt8) (whole : size ≤ b.length)
    (inside : front.length < size) (proper : 0 ∉ fmt)
    (room : mode ≠ none → front.length < size - 1)
    (found : instantiate (directives mode fmt) args = some its) :
    Writes b size fmt front mode args its := by
  induction fmt generalizing front mode args its with
  | nil =>
      have none : its = [] := by
        cases mode <;> cases found <;> rfl
      subst none
      have done := finish_eq (by omega : front.length < b.length)
      unfold Writes
      cases mode <;> simp [vsnprintfLoop, done]
  | cons c fmt ih =>
      have some : c ≠ 0 := fun e => proper (e ▸ List.mem_cons_self)
      have proper' : 0 ∉ fmt := fun mem => proper (List.mem_cons_of_mem c mem)
      have h : WritesRest b size fmt := fun inside found =>
        ih _ inside proper' (fun e => absurd rfl e) found
      unfold Writes
      cases mode with
      | none =>
          rw [List.cons_append, vsnprintfLoop]
          by_cases left : front.length < size - 1
          · rw [if_pos ⟨some, left⟩]
            rw [directives] at found
            by_cases conversion : c = 37
            · rw [if_pos conversion] at found ⊢
              exact ih front inside proper' (fun _ => left) found
            · rw [if_neg conversion] at found ⊢
              obtain ⟨first, args', rest, printed, later, rfl⟩ := instantiate_cons found
              cases printed
              exact h.literal whole left later c
          · have full : size - 1 - front.length = 0 := by omega
            rw [if_neg fun h => left h.2, full, emit_zero, finish_eq (by omega)]
            simp
      | some spec =>
          have left := room (by simp)
          rw [List.cons_append, vsnprintfLoop, if_neg some]
          rw [directives] at found
          by_cases zero : c = 48
          · rw [if_pos zero] at found ⊢
            exact ih front inside proper' (fun _ => left) found
          rw [if_neg zero] at found ⊢
          by_cases digit : 49 ≤ c ∧ c ≤ 57
          · rw [if_pos digit] at found ⊢
            exact ih front inside proper' (fun _ => left) found
          rw [if_neg digit] at found ⊢
          by_cases decimal : c = 100 ∨ c = 117
          · rw [if_pos decimal] at found ⊢
            obtain ⟨first, args', rest, printed, later, rfl⟩ := instantiate_cons found
            obtain ⟨v, rfl, va⟩ := items_number printed
            simp only [va, bind, Except.bind]
            exact h.number whole left later v (by decide) (by decide)
          rw [if_neg decimal] at found ⊢
          by_cases binary : c = 98
          · subst binary
            obtain ⟨first, args', rest, printed, later, rfl⟩ := instantiate_cons found
            obtain ⟨v, rfl, va⟩ := items_number printed
            rw [← vaUnsigned_eq] at va
            have other : ¬ (98 : UInt8) = 112 := by decide
            simp only [true_or, if_true, other, decide_false, if_false, va, bind, Except.bind]
            exact h.number whole left later v (by decide : 1 < (2 : UInt64).toNat) (by decide)
          rw [if_neg binary] at found
          by_cases hex : c = 120
          · subst hex
            obtain ⟨first, args', rest, printed, later, rfl⟩ := instantiate_cons found
            obtain ⟨v, rfl, va⟩ := items_number printed
            rw [← vaUnsigned_eq] at va
            have other : ¬ (120 : UInt8) = 112 := by decide
            simp only [true_or, or_true, if_true, other, binary, decide_false, if_false, va, bind,
              Except.bind]
            exact h.number whole left later v (by decide : 1 < (16 : UInt64).toNat) (by decide)
          rw [if_neg hex] at found
          by_cases pointer : c = 112
          · subst pointer
            obtain ⟨first, args', rest, printed, later, rfl⟩ := instantiate_cons found
            obtain ⟨v, rfl, va⟩ := items_pointer printed
            simp only [or_true, if_true, binary, decide_true, if_false, va, bind, Except.bind]
            exact h.pointer whole left later v
          rw [if_neg pointer] at found
          rw [if_neg (by simp [binary, hex, pointer])]
          by_cases long : c = 108
          · rw [if_pos long] at found ⊢
            exact ih front inside proper' (fun _ => left) found
          rw [if_neg long] at found ⊢
          by_cases string : c = 115
          · rw [if_pos string] at found ⊢
            obtain ⟨first, args', rest, printed, later, rfl⟩ := instantiate_cons found
            obtain ⟨s, rfl, va⟩ := items_string printed
            have appended := appendStr_eq b front (size - 1 - front.length) spec.padSize
              spec.padChar s.proper (by omega)
            simp only [va, appended, bind, Except.bind]
            exact h.behind left later (.str _ _ _)
          rw [if_neg string] at found ⊢
          by_cases character : c = 99
          · rw [if_pos character] at found ⊢
            obtain ⟨first, args', rest, printed, later, rfl⟩ := instantiate_cons found
            obtain ⟨v, rfl, va⟩ := items_character printed
            simp only [va, bind, Except.bind]
            exact h.literal whole left later v.toUInt8
          rw [if_neg character] at found ⊢
          obtain ⟨first, args', rest, printed, later, rfl⟩ := instantiate_cons found
          cases printed
          exact h.literal whole left later c

/-- An argument list matches a format if every conversion finds an argument of its type. -/
def Matches (fmt : List UInt8) (args : List Arg) : Prop := (items fmt args).isSome = true

instance (fmt : List UInt8) (args : List Arg) : Decidable (Matches fmt args) :=
  inferInstanceAs (Decidable (_ = true))

/-- The array may be longer than `size`. -/
theorem vsnprintf_run (pos : 0 < size) (whole : size ≤ b.length) (proper : 0 ∉ fmt)
    (found : items fmt args = some its) :
    vsnprintf b size (fmt ++ [0]) args =
      .ok ((emit (size - 1) its).length, b.holding (emit (size - 1) its ++ [0])) := by
  rw [vsnprintf, if_neg pos.ne']
  exact vsnprintfLoop_eq [] whole pos proper (fun e => absurd rfl e) found

theorem vsnprintf_eq (pos : 0 < size) (whole : b.length = size) (proper : 0 ∉ fmt)
    (found : items fmt args = some its) :
    vsnprintf b size (fmt ++ [0]) args =
      .ok ((emit (size - 1) its).length, b.holding (emit (size - 1) its ++ [0])) :=
  vsnprintf_run pos whole.ge proper found

/-- An array of `size` cells is enough, and the format and the strings are read up to their NUL. -/
theorem vsnprintf_inside (pos : 0 < size) (whole : b.length = size) (proper : 0 ∉ fmt)
    (matched : Matches fmt args) :
    ∃ c b', vsnprintf b size (fmt ++ [0]) args = .ok (c, b') ∧ c ≤ size - 1 ∧ b'.length = size ∧
      b'[c]? = some (some 0) := by
  obtain ⟨its, found⟩ := Option.isSome_iff_exists.mp matched
  have bound := emit_length (size - 1) its
  refine ⟨_, _, vsnprintf_eq pos whole proper found, bound, ?_, Buffer.getElem_holding⟩
  rw [Buffer.length_holding, whole]
  rw [List.length_append, List.length_singleton]
  omega

end Output

/-- Five places for `%5d` and a format that ends inside a conversion. -/
theorem vsnprintf_inside_cut :
    ∃ c b', vsnprintf (.new 5) 5 ([37, 53, 100, 37, 57] ++ [0]) [.word 12] = .ok (c, b') ∧
      c ≤ 5 - 1 ∧ b'.length = 5 ∧ b'[c]? = some (some 0) :=
  vsnprintf_inside (by decide) (by decide) (by decide) (by decide)
end Infos.Util.Printf
