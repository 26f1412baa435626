import Infos.Lib.Exec
import Infos.Util.List

/-!
# Splitting a string

The strings that `split` makes are copies, so that they are given by their bytes. Their sizes
go through an `unsigned int`.
-/
namespace Infos.Util.StringSplit
open Infos.Lib

/-- `operator+` with a character. The new string has `new_size + 1` bytes, both computed as
`unsigned int`, and every byte and the NUL is stored through its index. -/
def plusChar (l : List UInt8) (r : UInt8) : Except Fault (List UInt8) :=
  let newSize := (l.length + 1) % 2 ^ 32
  let bytes := (newSize + 1) % 2 ^ 32
  if l.length ≤ bytes ∧ newSize < bytes then .ok (l ++ [r]) else .error .outOfBounds

/-- The loop from `start` on; the `continue` leaves `start` where it is. -/
def splitLoop (delim : UInt8) (removeEmpty : Bool) :
    Nat → List UInt8 → CountedList (List UInt8) → List UInt8 →
      Except Fault (CountedList (List UInt8))
  | 0, _, _, _ => .error .outOfFuel
  | _ + 1, [], r, currentPart =>
      .ok (if 0 < currentPart.length ∨ removeEmpty = false then r.append currentPart else r)
  | fuel + 1, c :: start, r, currentPart =>
      if c = delim then
        if currentPart.length = 0 ∧ removeEmpty = true then
          splitLoop delim removeEmpty fuel (c :: start) r currentPart
        else splitLoop delim removeEmpty fuel start (r.append currentPart) []
      else do
        let currentPart ← plusChar currentPart c
        splitLoop delim removeEmpty fuel start r currentPart

def split (fuel : Nat) (s : List UInt8) (delim : UInt8) (removeEmpty : Bool) :
    Except Fault (CountedList (List UInt8)) :=
  splitLoop delim removeEmpty fuel s .nil []

/-- `split` terminates, with these parts. -/
def Returns (s : List UInt8) (delim : UInt8) (removeEmpty : Bool)
    (parts : List (List UInt8)) : Prop :=
  ∃ fuel r, split fuel s delim removeEmpty = .ok r ∧ r.elems = parts

/-- What splitting means: parts without the delimiter whose join is the string. -/
structure IsSplit (s : List UInt8) (delim : UInt8) (parts : List (List UInt8)) : Prop where
  some : parts ≠ []
  proper : ∀ part ∈ parts, delim ∉ part
  join : [delim].intercalate parts = s

/-- The parts that are returned. -/
def kept (removeEmpty : Bool) (parts : List (List UInt8)) : List (List UInt8) :=
  if removeEmpty then parts.filter (· ≠ []) else parts

/-- The parts that the loop can get over. -/
structure Passable (removeEmpty : Bool) (parts : List (List UInt8)) : Prop where
  short : ∀ part ∈ parts, part.length < 2 ^ 32 - 1
  nonempty : removeEmpty = true → ∀ part ∈ parts.dropLast, part ≠ []

section Split
variable {s start cur part : List UInt8} {delim c : UInt8} {removeEmpty : Bool}
  {parts : List (List UInt8)} {r r' : CountedList (List UInt8)} {fuel : Nat}

theorem notMem_splitOn (s : List UInt8) : ∀ part ∈ s.splitOn delim, delim ∉ part := by
  induction s with
  | nil => simp
  | cons c s ih =>
      obtain ⟨first, rest, split⟩ := List.exists_cons_of_ne_nil (List.splitOn_ne_nil delim s)
      rw [List.splitOn_cons_eq_if_modifyHead]
      split_ifs with same
      · exact List.forall_mem_cons.mpr ⟨List.not_mem_nil, ih⟩
      · rw [split] at ih ⊢
        obtain ⟨front, behind⟩ := List.forall_mem_cons.mp ih
        have other : delim ≠ c := fun e => same (beq_iff_eq.mpr e.symm)
        exact List.forall_mem_cons.mpr ⟨by simp [other, front], behind⟩

theorem isSplit_iff : IsSplit s delim parts ↔ parts = s.splitOn delim := by
  constructor
  · rintro ⟨some, proper, rfl⟩
    exact (List.splitOn_intercalate delim proper some).symm
  · rintro rfl
    exact ⟨List.splitOn_ne_nil _ _, notMem_splitOn s, List.intercalate_splitOn delim⟩

theorem plusChar_short (short : cur.length + 1 < 2 ^ 32 - 1) :
    plusChar cur c = .ok (cur ++ [c]) := by
  have small : (cur.length + 1) % 2 ^ 32 = cur.length + 1 := Nat.mod_eq_of_lt (by omega)
  have next : (cur.length + 1 + 1) % 2 ^ 32 = cur.length + 1 + 1 := Nat.mod_eq_of_lt (by omega)
  rw [plusChar]
  simp only [small, next]
  exact if_pos ⟨by omega, by omega⟩

theorem plusChar_long (long : 2 ^ 32 - 1 ≤ cur.length + 1) :
    plusChar cur c = .error .outOfBounds := by
  refine if_neg fun h => ?_
  omega

/-! ### One step of the loop -/

theorem splitLoop_stuck (fuel : Nat) (start : List UInt8) (r : CountedList (List UInt8)) :
    splitLoop delim true fuel (delim :: start) r [] = .error .outOfFuel := by
  induction fuel with
  | zero => rfl
  | succ fuel ih => simpa [splitLoop] using ih

/-- The parts, if the loop has a first piece of the first one already. -/
def partsFrom (delim : UInt8) (cur start : List UInt8) : List (List UInt8) :=
  (start.splitOn delim).modifyHead (cur ++ ·)

@[simp] theorem partsFrom_nil : partsFrom delim cur [] = [cur] := by simp [partsFrom]

theorem partsFrom_delim :
    partsFrom delim cur (delim :: start) = cur :: partsFrom delim [] start := by
  rw [partsFrom, partsFrom, List.splitOn_cons_eq_if_modifyHead]
  obtain ⟨first, rest, split⟩ := List.exists_cons_of_ne_nil (List.splitOn_ne_nil delim start)
  simp [split]

theorem partsFrom_char (other : c ≠ delim) :
    partsFrom delim cur (c :: start) = partsFrom delim (cur ++ [c]) start := by
  rw [partsFrom, partsFrom, List.splitOn_cons_eq_if_modifyHead, if_neg (by simpa using other)]
  obtain ⟨first, rest, split⟩ := List.exists_cons_of_ne_nil (List.splitOn_ne_nil delim start)
  simp [split]

theorem partsFrom_ne_nil : partsFrom delim cur start ≠ [] := by
  obtain ⟨first, rest, split⟩ := List.exists_cons_of_ne_nil (List.splitOn_ne_nil delim start)
  simp [partsFrom, split]

theorem passable_cons (some : parts ≠ []) :
    Passable removeEmpty (part :: parts) ↔
      part.length < 2 ^ 32 - 1 ∧ (removeEmpty = true → part ≠ []) ∧ Passable removeEmpty parts := by
  constructor
  · rintro ⟨short, nonempty⟩
    rw [List.dropLast_cons_of_ne_nil some] at nonempty
    exact ⟨short part List.mem_cons_self, fun remove => nonempty remove part List.mem_cons_self,
      fun p mem => short p (List.mem_cons_of_mem _ mem),
      fun remove p mem => nonempty remove p (List.mem_cons_of_mem _ mem)⟩
  · rintro ⟨first, filled, short, nonempty⟩
    refine ⟨List.forall_mem_cons.mpr ⟨first, short⟩, fun remove => ?_⟩
    rw [List.dropLast_cons_of_ne_nil some]
    exact List.forall_mem_cons.mpr ⟨filled remove, nonempty remove⟩

theorem partsFrom_short (passable : Passable removeEmpty (partsFrom delim cur start)) :
    cur.length < 2 ^ 32 - 1 := by
  obtain ⟨first, rest, split⟩ := List.exists_cons_of_ne_nil (List.splitOn_ne_nil delim start)
  have short := passable.short (cur ++ first) (by simp [partsFrom, split])
  rw [List.length_append] at short
  omega

theorem kept_cons (removeEmpty : Bool) (part : List UInt8) (parts : List (List UInt8)) :
    kept removeEmpty (part :: parts) =
      (if removeEmpty = true ∧ part = [] then [] else [part]) ++ kept removeEmpty parts := by
  cases removeEmpty with
  | false => simp [kept]
  | true => by_cases empty : part = [] <;> simp [kept, empty]

/-! ### The whole loop -/

theorem splitLoop_returns (passable : Passable removeEmpty (partsFrom delim cur start)) :
    ∃ fuel r', splitLoop delim removeEmpty fuel start r cur = .ok r' ∧
      r'.elems = r.elems ++ kept removeEmpty (partsFrom delim cur start) := by
  induction start generalizing cur r with
  | nil =>
      refine ⟨1, _, rfl, ?_⟩
      rw [partsFrom_nil, kept_cons]
      cases removeEmpty with
      | false => simp [CountedList.append, kept]
      | true =>
          by_cases empty : cur = [] <;>
            simp [CountedList.append, kept, empty, List.length_pos_iff]
  | cons c start ih =>
      by_cases same : c = delim
      · subst same
        rw [partsFrom_delim] at passable ⊢
        obtain ⟨_, filled, rest⟩ := (passable_cons partsFrom_ne_nil).mp passable
        obtain ⟨fuel, r', run, elems⟩ := ih (r := r.append cur) rest
        have moves : ¬ (cur.length = 0 ∧ removeEmpty = true) := fun h =>
          filled h.2 (List.length_eq_zero_iff.mp h.1)
        have added : ¬ (removeEmpty = true ∧ cur = []) := fun h => filled h.1 h.2
        refine ⟨fuel + 1, r', ?_, ?_⟩
        · rw [splitLoop, if_pos rfl, if_neg moves]
          exact run
        · rw [elems, kept_cons, if_neg added]
          simp [CountedList.append]
      · rw [partsFrom_char same] at passable ⊢
        have short := partsFrom_short passable
        rw [List.length_append, List.length_singleton] at short
        obtain ⟨fuel, r', run, elems⟩ := ih (r := r) passable
        refine ⟨fuel + 1, r', ?_, elems⟩
        rw [splitLoop, if_neg same, plusChar_short short]
        exact run

/-- If the loop ends, all the parts are passable. -/
theorem passable_of_ok (short : cur.length < 2 ^ 32 - 1)
    (run : splitLoop delim removeEmpty fuel start r cur = .ok r') :
    Passable removeEmpty (partsFrom delim cur start) := by
  induction start generalizing cur r fuel with
  | nil =>
      rw [partsFrom_nil]
      exact ⟨by simpa using short, fun _ => by simp⟩
  | cons c start ih =>
      cases fuel with
      | zero => cases run
      | succ fuel =>
          by_cases same : c = delim
          · subst same
            have filled : removeEmpty = true → cur ≠ [] := by
              rintro rfl rfl
              rw [splitLoop_stuck] at run
              cases run
            have moves : ¬ (cur.length = 0 ∧ removeEmpty = true) := fun h =>
              filled h.2 (List.length_eq_zero_iff.mp h.1)
            rw [splitLoop, if_pos rfl, if_neg moves] at run
            rw [partsFrom_delim]
            exact (passable_cons partsFrom_ne_nil).mpr ⟨short, filled, ih (by simp) run⟩
          · rw [splitLoop, if_neg same] at run
            rw [partsFrom_char same]
            rcases Nat.lt_or_ge (cur.length + 1) (2 ^ 32 - 1) with fits | long
            · rw [plusChar_short fits] at run
              exact ih (by simpa using fits) run
            · rw [plusChar_long long] at run
              cases run

theorem plusChar_ok {cur' : List UInt8} (run : plusChar cur c = .ok cur') :
    cur' = cur ++ [c] ∧ cur'.length < 2 ^ 32 := by
  rcases Nat.lt_or_ge (cur.length + 1) (2 ^ 32 - 1) with short | long
  · rw [plusChar_short short] at run
    cases run
    refine ⟨rfl, ?_⟩
    rw [List.length_append, List.length_singleton]
    omega
  · rw [plusChar_long long] at run
    cases run

/-- A short string of characters with `P`. -/
def Within (P : UInt8 → Prop) (part : List UInt8) : Prop := part.length < 2 ^ 32 ∧ ∀ c ∈ part, P c

theorem splitLoop_within {P : UInt8 → Prop} (coming : ∀ c ∈ start, P c) (current : Within P cur)
    (sofar : ∀ part ∈ r.elems, Within P part)
    (run : splitLoop delim removeEmpty fuel start r cur = .ok r') :
    ∀ part ∈ r'.elems, Within P part := by
  induction fuel generalizing start r cur with
  | zero => cases run
  | succ fuel ih =>
      have appended : ∀ part ∈ (r.append cur).elems, Within P part := by
        intro part mem
        rcases List.mem_append.mp mem with old | new
        · exact sofar part old
        · exact List.mem_singleton.mp new ▸ current
      cases start with
      | nil =>
          rw [splitLoop] at run
          split_ifs at run
          · cases run
            exact appended
          · cases run
            exact sofar
      | cons c start =>
          obtain ⟨first, behind⟩ := List.forall_mem_cons.mp coming
          rw [splitLoop] at run
          split_ifs at run
          · exact ih coming current sofar run
          · exact ih behind ⟨by simp, by simp⟩ appended run
          · cases grown : plusChar cur c with
            | error e =>
                rw [grown] at run
                cases run
            | ok cur' =>
                obtain ⟨rfl, short⟩ := plusChar_ok grown
                rw [grown] at run
                refine ih behind ⟨short, fun d mem => ?_⟩ sofar run
                rcases List.mem_append.mp mem with old | new
                · exact current.2 d old
                · exact List.mem_singleton.mp new ▸ first

/-- Splitting returns the parts exactly if they are shorter than an `unsigned int` can count to
and, where empty ones are removed, only the last may be empty. -/
theorem split_iff (s : List UInt8) (delim : UInt8) (removeEmpty : Bool) :
    (∃ parts, (∀ l, IsSplit s delim l ↔ l = parts) ∧
      Returns s delim removeEmpty (kept removeEmpty parts)) ↔
    Passable removeEmpty (s.splitOn delim) := by
  have whole : partsFrom delim [] s = s.splitOn delim := by
    obtain ⟨first, rest, split⟩ := List.exists_cons_of_ne_nil (List.splitOn_ne_nil delim s)
    simp [partsFrom, split]
  constructor
  · rintro ⟨_, _, fuel, r, run, _⟩
    exact whole ▸ passable_of_ok (by simp) run
  · intro passable
    rw [← whole] at passable
    obtain ⟨fuel, r, run, elems⟩ := splitLoop_returns (r := .nil) passable
    rw [whole] at elems
    exact ⟨s.splitOn delim, fun l => isSplit_iff, fuel, r, run, elems⟩

end Split

/-- `split` of `/a` at the slash without the empty parts never ends. -/
theorem split_leading :
    (47 :: [97] : List UInt8).splitOn 47 = [[], [97]] ∧
      ¬ ∃ parts, Returns [47, 97] 47 true parts := by
  refine ⟨by decide, ?_⟩
  rintro ⟨_, fuel, r, run, _⟩
  rw [split, splitLoop_stuck] at run
  cases run

end Infos.Util.StringSplit
