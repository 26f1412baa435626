import Infos.Util.PrintfNumbers

/-!
# Output that is cut off

Two runs of one format with two sizes, item by item: as long as an item has the same
text in both, the same places are taken.
-/
namespace Infos.Util.Printf
open Infos.Lib

namespace Number

/-- All the digits, with the sign. -/
def whole (n : Number) : List UInt8 := numeral n.base n.magnitude ++ n.sign

/-- The pad width has wrapped around to such a small number that it does so again when the number
of the characters is taken from it. -/
def Wraps (n : Number) : Prop := n.pad < (n.whole.length : Int) - 2 ^ 31

instance (n : Number) : Decidable n.Wraps := inferInstanceAs (Decidable (_ < _))

/-- There is room for the digits, and for the padding if there is any. -/
structure Fits (n : Number) (room : Nat) : Prop where
  whole : n.whole.length ≤ room
  padded : n.pad < room ∨ n.pad ≤ n.whole.length
  wraps : ¬ n.Wraps

/-- The padding in a room; a wrapped one takes all that is left. -/
def blanks (n : Number) (room : Nat) : List UInt8 :=
  List.replicate ((if n.Wraps then room else min n.pad.toNat (room - 1)) - n.whole.length) n.padChar

/-- What `append_num` is called with. -/
structure Proper (n : Number) : Prop where
  base_gt : 1 < n.base
  base_le : n.base ≤ 16
  padChar : n.padChar = 32 ∨ n.padChar = 48
  pad : -2 ^ 31 ≤ n.pad ∧ n.pad < 2 ^ 31
  magnitude_lt : n.magnitude < 2 ^ 64
  negative : n.negative = true → n.magnitude ≠ 0

end Number

def Item.Proper : Item → Prop
  | .num n => n.Proper
  | _ => True

/-- With one place left, the items put a `0` there. -/
def StartsWithZero : List Item → Prop
  | [] => False
  | .char c :: _ => c = 48
  | .str (c :: _) _ _ :: _ => c = 48
  | .str [] pad padChar :: rest => if 0 < pad then padChar = 48 else StartsWithZero rest
  | .num n :: _ => n.negative = false ∧ n.base ∣ n.magnitude

/-- The first number that does not fit into the smaller room ends with the characters that it
begins with, or it is a 0 behind zeros that loses one place to a `0` or none at all. -/
def Coincides (n : Number) (r q : Nat) (rest : List Item) : Prop :=
  if r ≤ n.whole.length then n.whole.rtake r = (n.blanks q ++ n.whole.rtake q).take r
  else n.magnitude = 0 ∧ n.padChar = 48 ∧ (n.Wraps ∨ StartsWithZero rest)

/-- What is kept in the room `r` of the items is what stands there in the larger room `q`. -/
def Kept : Nat → Nat → List Item → Prop
  | _, _, [] => True
  | 0, _, _ :: _ => True
  | r + 1, q, .char _ :: rest => Kept r (q - 1) rest
  | r + 1, q, .str s pad _ :: rest =>
      let width := max s.length pad.toNat
      width ≤ r + 1 → Kept (r + 1 - width) (q - width) rest
  | r + 1, q, .num n :: rest =>
      let width := max n.whole.length n.pad.toNat
      n.Fits (r + 1) ∧ Kept (r + 1 - width) (q - width) rest ∨
        ¬ n.Fits (r + 1) ∧ Coincides n (r + 1) q rest

section Texts
variable {n : Number} {s : List UInt8} {pad : Int} {padChar : UInt8} {r q : Nat} {rest : List Item}

theorem strText_eq_take (s : List UInt8) (pad : Int) (padChar : UInt8) (room : Nat) :
    strText s pad padChar room =
      (s ++ List.replicate (pad.toNat - s.length) padChar).take room := by
  rw [strText, List.take_append, List.take_replicate, List.length_take]
  congr 2
  omega

theorem whole_pos (n : Number) : 0 < n.whole.length := by
  have some := List.length_pos_iff.mpr (numeral_ne_nil n.base n.magnitude)
  rw [Number.whole, List.length_append]
  omega

theorem body_whole (long : n.whole.length ≤ r) : n.body r = n.whole := by
  rw [Number.whole, List.length_append] at long
  have all : (numeral n.base n.magnitude).length - (r - n.sign.length) = 0 := by omega
  rw [Number.body, Number.whole, List.rtake, all, List.drop_zero]

theorem body_cut (pos : 0 < r) (short : r ≤ n.whole.length) : (n.body r).length = r := by
  have sign := sign_length n
  rw [Number.whole, List.length_append] at short
  rw [Number.body, List.length_append, List.rtake, List.length_drop]
  omega

theorem body_rtake (pos : 0 < r) : n.body r = n.whole.rtake r := by
  have sign := sign_length n
  have start : n.whole.length - r = (numeral n.base n.magnitude).length - (r - n.sign.length) := by
    rw [Number.whole, List.length_append]
    omega
  rw [Number.body, List.rtake, List.rtake, start, Number.whole,
    List.drop_append_of_le_length (Nat.sub_le _ _)]

theorem whole_le (proper : n.Proper) : n.whole.length ≤ 65 := by
  have bits : (numeral n.base n.magnitude).length ≤ 64 := by
    refine numeral_length_le proper.base_gt (by decide) (proper.magnitude_lt.trans_le ?_)
    exact Nat.pow_le_pow_left proper.base_gt 64
  have sign := sign_length n
  rw [Number.whole, List.length_append]
  omega

theorem text_eq (proper : n.Proper) (pos : 0 < q) (int : q < 2 ^ 31) :
    n.text q = n.blanks q ++ n.whole.rtake q := by
  obtain ⟨low, high⟩ := proper.pad
  have small := whole_le proper
  have width : n.padding q =
      (if n.Wraps then q else min n.pad.toNat (q - 1)) - n.whole.length := by
    rw [Number.padding]
    rcases Nat.le_total q n.whole.length with cut | all
    · rw [body_cut pos cut]
      split_ifs <;> omega
    · rw [body_whole all]
      split_ifs with wraps
      · rw [Number.Wraps] at wraps
        rw [wrap_below (by omega) (by omega)]
        omega
      · rw [Number.Wraps] at wraps
        rw [wrap_eq (by omega) (by omega)]
        omega
  rw [Number.text, width, body_rtake pos, Number.blanks]

theorem text_fits (proper : n.Proper) (fits : n.Fits r) (le : r ≤ q) :
    n.text q = List.replicate (n.pad.toNat - n.whole.length) n.padChar ++ n.whole := by
  have high := proper.pad.2
  have long := fits.whole
  have pad := fits.padded
  have wraps := fits.wraps
  rw [Number.Wraps] at wraps
  rw [Number.text, Number.padding, body_whole (long.trans le), wrap_eq (by omega) (by omega)]
  congr 2
  omega

theorem text_cut (pos : 0 < r) (short : r ≤ n.whole.length) : n.text r = n.body r := by
  have none : n.padding r = 0 := by
    rw [Number.padding, body_cut pos short]
    omega
  rw [Number.text, none]
  rfl

theorem le_text_length (lt : r < q) (short : r ≤ n.whole.length) : r ≤ (n.text q).length := by
  have body : r ≤ (n.body q).length := by
    rcases Nat.le_total q n.whole.length with cut | all
    · rw [body_cut (by omega) cut]
      omega
    · rw [body_whole all]
      exact short
  rw [Number.text, List.length_append]
  omega

theorem le_text_length_one (n : Number) : 0 < (n.text 1).length := by
  rw [text_cut Nat.one_pos (whole_pos n), body_cut Nat.one_pos (whole_pos n)]
  exact Nat.one_pos

theorem whole_zero (proper : n.Proper) (zero : n.magnitude = 0) : n.whole = [48] := by
  have sign : n.sign = [] := if_neg fun neg => proper.negative neg zero
  rw [Number.whole, sign, zero, numeral_zero proper.base_gt]
  rfl

theorem numeral_last (proper : n.Proper) :
    (numeral n.base n.magnitude).rtake 1 = [digitByte (n.magnitude % n.base)] := by
  rw [numeral_eq_if proper.base_gt]
  split_ifs with one
  · rw [Nat.mod_eq_of_lt one]
    rfl
  · simp

theorem text_one (proper : n.Proper) :
    n.text 1 = [48] ↔ n.negative = false ∧ n.base ∣ n.magnitude := by
  have last : n.magnitude % n.base < 16 :=
    (Nat.mod_lt _ (Nat.lt_trans Nat.one_pos proper.base_gt)).trans_le proper.base_le
  rw [text_cut Nat.one_pos (whole_pos n), Number.body, Nat.dvd_iff_mod_eq_zero]
  cases negative : n.negative with
  | true => simp [Number.sign, negative]
  | false =>
      have sign : n.sign = [] := if_neg (by simp [negative])
      rw [sign, List.length_nil, Nat.sub_zero, numeral_last proper]
      simpa using (digitByte_spec last).2.2.2

theorem emit_one_iff (proper : ∀ item ∈ rest, item.Proper) :
    emit 1 rest = [48] ↔ StartsWithZero rest := by
  induction rest with
  | nil => simp [StartsWithZero]
  | cons item rest ih =>
      have one := item.text_length Nat.one_pos
      rw [emit_cons Nat.one_pos]
      cases item with
      | char c => simp [Item.text, StartsWithZero]
      | num n =>
          have some : 0 < (n.text 1).length := le_text_length_one n
          have full : 1 - (n.text 1).length = 0 := by omega
          rw [Item.text, full, emit_zero, List.append_nil]
          exact text_one (proper (.num n) List.mem_cons_self)
      | str s pad padChar =>
          rw [Item.text, strText_eq_take]
          cases s with
          | cons c s => simp [StartsWithZero]
          | nil =>
              have later := ih fun item mem => proper item (List.mem_cons_of_mem _ mem)
              rw [StartsWithZero]
              split_ifs with padded
              · obtain ⟨k, more⟩ : ∃ k, pad.toNat = k + 1 := ⟨pad.toNat - 1, by omega⟩
                simp [more, List.replicate_succ]
              · have none : pad.toNat = 0 := by omega
                simpa [none] using later

theorem take_replicate_append {a k : Nat} (l : Nat) (c : UInt8) (le : a ≤ k) (x : List UInt8) :
    (List.replicate k c ++ x).take (a + l) =
      List.replicate a c ++ (List.replicate (k - a) c ++ x).take l := by
  have split : List.replicate k c = List.replicate a c ++ List.replicate (k - a) c := by
    rw [← List.replicate_add, Nat.add_sub_of_le le]
  rw [split, List.append_assoc, List.take_append]
  simp

/-- A number with less padding in front, and the `m` places behind it. -/
theorem padded_iff (proper : n.Proper) (later : ∀ item ∈ rest, item.Proper) {a k m : Nat}
    (less : a < k) (places : m = 0 ∨ m = 1) (x : List UInt8) :
    List.replicate a n.padChar ++ n.whole ++ emit m rest =
        (List.replicate k n.padChar ++ n.whole ++ x).take (a + (n.whole.length + m)) ↔
      n.magnitude = 0 ∧ n.padChar = 48 ∧ (m = 0 ∨ StartsWithZero rest) := by
  obtain ⟨l, more⟩ : ∃ l, k - a = l + 1 := ⟨k - a - 1, by omega⟩
  rw [List.append_assoc, List.append_assoc, take_replicate_append _ _ less.le,
    List.append_cancel_left_eq, more, List.replicate_succ, List.cons_append]
  have zero (none : n.magnitude = 0) (padded : n.padChar = 48) :
      (n.whole ++ emit m rest =
          (n.padChar :: (List.replicate l n.padChar ++ (n.whole ++ x))).take
            (n.whole.length + m)) ↔ m = 0 ∨ StartsWithZero rest := by
    rw [whole_zero proper none, padded]
    rcases places with rfl | rfl
    · simp [emit_zero]
    · have next : List.replicate l (48 : UInt8) ++ ([48] ++ x) =
          48 :: (List.replicate l 48 ++ x) := by
        rw [← List.append_assoc, ← List.replicate_succ']
        rfl
      rw [next, ← emit_one_iff later]
      simp
  constructor
  · intro same
    obtain ⟨d, digits, split, blank, _, zero_iff⟩ :=
      numeral_head proper.base_gt proper.base_le n.magnitude
    have head : d = n.padChar := by
      have first := congrArg List.head? same
      rw [List.head?_take, if_neg (by have := whole_pos n; omega), Number.whole, split] at first
      exact Option.some.inj first
    have padded : n.padChar = 48 := proper.padChar.resolve_left fun e => blank (head.trans e)
    have none : n.magnitude = 0 := zero_iff.mp (head.trans padded)
    exact ⟨none, padded, (zero none padded).mp same⟩
  · rintro ⟨none, padded, behind⟩
    exact (zero none padded).mpr behind

theorem numbers_iff (proper : n.Proper) (later : ∀ item ∈ rest, item.Proper) (lt : r < q)
    (int : q < 2 ^ 31) (pos : 0 < r) (large : ¬ n.Fits r) (x : List UInt8) :
    n.text r ++ emit (r - (n.text r).length) rest = (n.text q ++ x).take r ↔
      Coincides n r q rest := by
  unfold Coincides
  split_ifs with cut
  · have full : (n.text r).length = r := by rw [text_cut pos cut, body_cut pos cut]
    rw [full, Nat.sub_self, emit_zero, List.append_nil,
      List.take_append_of_le_length (le_text_length lt cut), text_cut pos cut, body_rtake pos,
      text_eq proper (pos.trans lt) int]
  · have room : n.whole.length < r := Nat.lt_of_not_le cut
    have text {p : Nat} (le : r ≤ p) (int' : p < 2 ^ 31) : n.text p = n.blanks p ++ n.whole := by
      have all : n.whole.length - p = 0 := by omega
      rw [text_eq proper (pos.trans_le le) int', List.rtake, all, List.drop_zero]
    rw [text le_rfl (lt.trans int), text lt.le int, Number.blanks, Number.blanks]
    by_cases wraps : n.Wraps
    · have iff := padded_iff proper later (a := r - n.whole.length) (k := q - n.whole.length)
        (by omega) (.inl rfl) x
      have place : r - n.whole.length + (n.whole.length + 0) = r := by omega
      rw [place] at iff
      simpa [wraps, room.le] using iff
    · have wide : r ≤ n.pad ∧ ¬ n.pad ≤ n.whole.length := by
        by_contra h
        exact large ⟨room.le, by omega, wraps⟩
      have width : min n.pad.toNat (r - 1) = r - 1 := by omega
      have iff := padded_iff proper later (a := r - 1 - n.whole.length)
        (k := min n.pad.toNat (q - 1) - n.whole.length) (by omega) (.inr rfl) x
      have place : r - 1 - n.whole.length + (n.whole.length + 1) = r := by omega
      have one : r - (r - 1 - n.whole.length + n.whole.length) = 1 := by omega
      rw [place] at iff
      simpa [wraps, width, one] using iff

end Texts

section Runs
variable {its : List Item} {r q : Nat}

theorem same_text {t x y : List UInt8} (short : t.length ≤ r) :
    t ++ x = (t ++ y).take r ↔ x = y.take (r - t.length) := by
  rw [List.take_append, List.take_of_length_le short, List.append_cancel_left_eq]

/-- What a smaller room keeps, item by item. -/
theorem emit_take_iff (proper : ∀ item ∈ its, item.Proper) (lt : r < q) (int : q < 2 ^ 31) :
    emit r its = (emit q its).take r ↔ Kept r q its := by
  induction its generalizing r q with
  | nil => simp [Kept]
  | cons item rest ih =>
      have later : ∀ item ∈ rest, item.Proper := fun item mem =>
        proper item (List.mem_cons_of_mem _ mem)
      cases r with
      | zero => simp [Kept]
      | succ r =>
          have pos : 0 < r + 1 := Nat.succ_pos r
          rw [emit_cons pos, emit_cons (by omega : 0 < q)]
          cases item with
          | char c =>
              have next := ih later (by omega : r < q - 1) (by omega)
              rw [Item.text, Item.text, same_text (by simp), Kept]
              exact next
          | str s pad padChar =>
              rw [Item.text, Item.text, Kept, strText_eq_take, strText_eq_take]
              have width : (s ++ List.replicate (pad.toNat - s.length) padChar).length =
                  max s.length pad.toNat := by
                rw [List.length_append, List.length_replicate]
                omega
              generalize s ++ List.replicate (pad.toNat - s.length) padChar = text at width ⊢
              rw [← width]
              by_cases fits : text.length ≤ r + 1
              · have fits' : text.take q = text := List.take_of_length_le (fits.trans lt.le)
                rw [List.take_of_length_le fits, fits', same_text fits]
                simpa [fits] using ih later (by omega : r + 1 - text.length < q - text.length)
                  (by omega)
              · have full : r + 1 - (text.take (r + 1)).length = 0 := by
                  rw [List.length_take]
                  omega
                have long : r + 1 ≤ (text.take q).length := by
                  rw [List.length_take]
                  omega
                rw [full, emit_zero, List.append_nil, List.take_append_of_le_length long,
                  List.take_take, Nat.min_eq_left lt.le]
                simp [fits]
          | num n =>
              rw [Item.text, Item.text, Kept]
              by_cases fits : n.Fits (r + 1)
              · have width : (List.replicate (n.pad.toNat - n.whole.length) n.padChar ++
                    n.whole).length = max n.whole.length n.pad.toNat := by
                  rw [List.length_append, List.length_replicate]
                  omega
                have short : max n.whole.length n.pad.toNat ≤ r + 1 := by
                  have long := fits.whole
                  have pad := fits.padded
                  omega
                have less : r + 1 - max n.whole.length n.pad.toNat <
                    q - max n.whole.length n.pad.toNat := by omega
                have next := ih later less (by omega)
                have number : n.Proper := proper (.num n) List.mem_cons_self
                rw [text_fits number fits le_rfl, text_fits number fits lt.le,
                  same_text (width ▸ short), width]
                simpa [fits] using next
              · rw [numbers_iff (proper (.num n) List.mem_cons_self) later lt int pos fits]
                simp [fits]

/-! ### The numbers of a format -/

structure Spec.Proper (spec : Spec) : Prop where
  padChar : spec.padChar = 32 ∨ spec.padChar = 48
  pad : -2 ^ 31 ≤ spec.padSize ∧ spec.padSize < 2 ^ 31

theorem Spec.Proper.start : Spec.Proper {} := ⟨.inl rfl, by decide⟩

def Directive.Proper : Directive → Prop
  | .number _ base spec => 1 < base.toNat ∧ base.toNat ≤ 16 ∧ spec.Proper
  | .pointer spec => spec.Proper
  | _ => True

theorem Spec.Proper.zero {spec : Spec} (h : spec.Proper) : spec.zero.Proper := by
  unfold Spec.zero
  split_ifs
  · exact ⟨h.padChar, wrap_bounds _⟩
  · exact ⟨.inr rfl, h.pad⟩

theorem ite_proper {c : Prop} [Decidable c] {ds ds' : List Directive} (h : ∀ d ∈ ds, d.Proper)
    (h' : ∀ d ∈ ds', d.Proper) : ∀ d ∈ if c then ds else ds', d.Proper := by
  split_ifs
  · exact h
  · exact h'

theorem directives_proper {mode : Option Spec} (fmt : List UInt8)
    (h : ∀ spec, mode = some spec → spec.Proper) : ∀ d ∈ directives mode fmt, d.Proper := by
  induction fmt generalizing mode with
  | nil => cases mode <;> nofun
  | cons c fmt ih =>
      have outside : ∀ d ∈ directives none fmt, d.Proper := ih nofun
      cases mode with
      | none =>
          rw [directives]
          apply ite_proper
          · refine ih fun spec same => ?_
            cases same
            exact .start
          · exact List.forall_mem_cons.mpr ⟨trivial, outside⟩
      | some spec =>
          have inside := h spec rfl
          have keeps {spec' : Spec} (same : spec'.Proper) :
              ∀ d ∈ directives (some spec') fmt, d.Proper :=
            ih fun _ eq => Option.some.inj eq ▸ same
          have ends (d : Directive) (proper : d.Proper) :
              ∀ e ∈ d :: directives none fmt, e.Proper :=
            List.forall_mem_cons.mpr ⟨proper, outside⟩
          have digit : (spec.digit c).Proper := ⟨inside.padChar, wrap_bounds _⟩
          have long : spec.long.Proper := ⟨inside.padChar, inside.pad⟩
          rw [directives]
          apply ite_proper (keeps inside.zero)
          apply ite_proper (keeps digit)
          apply ite_proper (ends (.number _ 10 spec) ⟨by decide, by decide, inside⟩)
          apply ite_proper (ends (.number _ 2 spec) ⟨by decide, by decide, inside⟩)
          apply ite_proper (ends (.number _ 16 spec) ⟨by decide, by decide, inside⟩)
          apply ite_proper (ends (.pointer spec) inside)
          apply ite_proper (keeps long)
          apply ite_proper (ends (.string spec) trivial)
          apply ite_proper (ends .character trivial)
          exact ends (.literal c) trivial

theorem number_proper {value base : UInt64} {sgn : Bool} {spec : Spec} (base_gt : 1 < base.toNat)
    (base_le : base.toNat ≤ 16) (proper : spec.Proper) :
    (number value base sgn spec.padSize spec.padChar).Proper where
  base_gt := base_gt
  base_le := base_le
  padChar := proper.padChar
  pad := proper.pad
  magnitude_lt := UInt64.toNat_lt _
  negative := by
    intro negative none
    have both : sgn = true ∧ value.toInt64 < 0 := by simpa [number] using negative
    have some : value.toNat ≠ 0 := by
      intro e
      rw [show value = 0 from UInt64.toNat_inj.mp e] at both
      exact absurd both.2 (by decide)
    have bound := value.toNat_lt
    have zero : (2 ^ 64 - value.toNat) % 2 ^ 64 = 0 := by
      simpa [number, both, UInt64.size] using none
    omega

theorem items_proper {d : Directive} {args args' : List Arg} (proper : d.Proper)
    (found : d.items args = some (its, args')) : ∀ item ∈ its, item.Proper := by
  cases d with
  | literal c =>
      cases found
      simp [Item.Proper]
  | number signed base spec =>
      obtain ⟨v, rfl, _⟩ := items_number found
      simpa [Item.Proper] using number_proper proper.1 proper.2.1 proper.2.2
  | pointer spec =>
      obtain ⟨v, rfl, _⟩ := items_pointer found
      simpa [Item.Proper] using
        number_proper (by decide : 1 < (16 : UInt64).toNat) (by decide) proper
  | string spec =>
      obtain ⟨s, rfl, _⟩ := items_string found
      simp [Item.Proper]
  | character =>
      obtain ⟨v, rfl, _⟩ := items_character found
      simp [Item.Proper]

theorem instantiate_proper {ds : List Directive} {args : List Arg} (proper : ∀ d ∈ ds, d.Proper)
    (found : instantiate ds args = some its) : ∀ item ∈ its, item.Proper := by
  induction ds generalizing args its with
  | nil =>
      cases found
      nofun
  | cons d ds ih =>
      obtain ⟨first, args', rest, printed, later, rfl⟩ := instantiate_cons found
      intro item mem
      rcases List.mem_append.mp mem with front | behind
      · exact items_proper (proper d List.mem_cons_self) printed item front
      · exact ih (fun d mem => proper d (List.mem_cons_of_mem _ mem)) later item behind

/-! ### Two sizes -/

/-- A shorter array loses only the tail exactly if the sizes are the same or every number that is
reached fits, or the first that does not is a coincidence. -/
theorem truncation_iff {fmt : List UInt8} {args : List Arg} (b b' : Buffer) (pos : 0 < b.length)
    (le : b.length ≤ b'.length) (int : b'.length < 2 ^ 31) (proper : 0 ∉ fmt)
    (found : items fmt args = some its) :
    (∃ text, printed b' b'.length fmt args = .ok text ∧
      printed b b.length fmt args = .ok (text.take (b.length - 1))) ↔
    b.length = b'.length ∨ Kept (b.length - 1) (b'.length - 1) its := by
  have outside (spec : Spec) (inside : none = some spec) : spec.Proper := nomatch inside
  have numbers : ∀ item ∈ its, item.Proper :=
    instantiate_proper (directives_proper fmt outside) found
  rw [printed_eq (pos.trans_le le) rfl proper found, printed_eq pos rfl proper found]
  have property : (∃ text,
      (.ok ((emit (b'.length - 1) its).map some) : Except Fault Buffer) = .ok text ∧
      (.ok ((emit (b.length - 1) its).map some) : Except Fault Buffer) =
        .ok (text.take (b.length - 1))) ↔
      emit (b.length - 1) its = (emit (b'.length - 1) its).take (b.length - 1) := by
    simp only [Except.ok.injEq, exists_eq_left', ← List.map_take]
    exact (List.map_injective_iff.mpr fun _ _ => Option.some.inj).eq_iff
  rw [property]
  rcases le.lt_or_eq with lt | same
  · rw [emit_take_iff numbers (by omega) (by omega)]
    simp [lt.ne]
  · rw [← same]
    simpa using (List.take_of_length_le (emit_length _ its)).symm

end Runs

/-- `ab` and 123 fit into six places, and what stands behind them is cut. -/
theorem truncation_iff_number : ∃ text,
    printed (.new 9) 9 [37, 115, 37, 117, 33, 33] [.str ⟨[97, 98], by decide⟩, .word 123] =
      .ok text ∧
    printed (.new 7) 7 [37, 115, 37, 117, 33, 33] [.str ⟨[97, 98], by decide⟩, .word 123] =
      .ok (text.take 6) := by
  refine (truncation_iff (.new 7) (.new 9) (by decide) (by decide) (by decide) (by decide) rfl).mpr
    (.inr ?_)
  refine fun _ => .inl ⟨⟨by decide, .inl (by decide), by decide⟩, ?_⟩
  trivial

/-- 123 in three places is `23`, and in four it is `123`. -/
theorem truncation_low_digits :
    printed (.new 3) 3 [37, 117] [.word 123] = .ok ([50, 51].map some) ∧
      printed (.new 4) 4 [37, 117] [.word 123] = .ok ([49, 50, 51].map some) := by
  decide +kernel

end Infos.Util.Printf
