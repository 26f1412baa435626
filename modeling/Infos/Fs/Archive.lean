import Infos.Fs.TarfsTree
import Mathlib.Tactic.IntervalCases
import Mathlib.Tactic.Ring
import Mathlib.Data.List.GetD

/-!
# TAR archives

The format, apart from the driver: entries, their header blocks and how they
follow one another on a device. The second half reads a header back.
-/
namespace Infos.Fs
open Infos.Lib Infos.Util

inductive Kind where
  | file
  | directory
  deriving DecidableEq, Repr

/-- The path as the header has it; that of a directory ends with a slash. -/
def nameField (path : List Name) (kind : Kind) : List UInt8 :=
  [47].intercalate path ++ if kind = .directory then [47] else []

structure Entry where
  path : List Name
  kind : Kind
  data : List UInt8
  nonempty : path ≠ []
  components : ∀ c ∈ path, c ≠ [] ∧ 0 ∉ c ∧ 47 ∉ c
  short : (nameField path kind).length ≤ 99
  small : data.length < 8 ^ 10

/-- Eleven octal digits, padded with zeros. -/
def octalDigits (n : Nat) : List UInt8 :=
  (List.range 11).reverse.map fun k => UInt8.ofNat (48 + n / 8 ^ k % 8)

/-- The header of an entry: its name and its size end with a NUL. -/
structure Encodes (head : Block) (e : Entry) : Prop where
  name : ∃ rest, head.1 = nameField e.path e.kind ++ 0 :: rest
  size : ∃ rest, head.1.drop 124 = octalDigits e.data.length ++ 0 :: rest
  kind : head.1.getD 156 0 = 53 ↔ e.kind = .directory

def blocksFor (size : Nat) : Nat := (size + 511) / 512

/-- The data, padded with zeros to whole blocks. -/
def Stores (dev : BlockDevice) (first : Nat) (data : List UInt8) : Prop :=
  ∀ i < blocksFor data.length, ∃ b, dev.readBlock (first + i) = some b ∧
    ∀ j < 512, b.1.getD j 0 = data.getD (512 * i + j) 0

def ZeroAt (dev : BlockDevice) (o : Nat) : Prop :=
  o < dev.blockCount ∧ ∃ b, dev.readBlock o = some b ∧ ∀ c ∈ b.1, c = 0

/-- Room for a single zero block. -/
inductive Gap (dev : BlockDevice) (o : Nat) : Nat → Prop
  | none : Gap dev o o
  | zero : ZeroAt dev o → Gap dev o (o + 1)

/-- An entry and the block its header is in. -/
structure Placed where
  header : Nat
  entry : Entry

/-- The device holds these entries from block `o` on, then two zero blocks unless it ends. -/
inductive Layout (dev : BlockDevice) : Nat → List Placed → Prop
  | deviceEnd {o : Nat} : Gap dev o dev.blockCount → Layout dev o []
  | zeroBlocks {o : Nat} : ZeroAt dev o → ZeroAt dev (o + 1) → Layout dev o []
  | entry {o : Nat} {x : Placed} {head : Block} {xs : List Placed} :
      Gap dev o x.header → dev.readBlock x.header = some head → Encodes head x.entry →
      Stores dev (x.header + 1) x.entry.data →
      x.header + 1 + blocksFor x.entry.data.length ≤ dev.blockCount →
      Layout dev (x.header + 1 + blocksFor x.entry.data.length) xs → Layout dev o (x :: xs)

section Layout
variable {dev : BlockDevice} {o o' : Nat} {xs : List Placed} {x : Placed}

theorem Gap.le (h : Gap dev o o') : o ≤ o' := by
  cases h with
  | none => exact Nat.le_refl o
  | zero => exact Nat.le_succ o

theorem Gap.le_succ (h : Gap dev o o') : o' ≤ o + 1 := by
  cases h with
  | none => exact Nat.le_succ o
  | zero => exact Nat.le_refl _

theorem Layout.le_header (h : Layout dev o xs) (mem : x ∈ xs) : o ≤ x.header := by
  induction h with
  | deviceEnd => cases mem
  | zeroBlocks => cases mem
  | entry gap _ _ _ _ _ ih =>
      rcases List.mem_cons.mp mem with rfl | mem
      · exact gap.le
      · have := ih mem
        have := gap.le
        omega

/-- Headers come in the order of the entries. -/
theorem Layout.pairwise (h : Layout dev o xs) : xs.Pairwise fun x y => x.header < y.header := by
  induction h with
  | deviceEnd => exact List.Pairwise.nil
  | zeroBlocks => exact List.Pairwise.nil
  | entry _ _ _ _ _ rest ih =>
      refine List.pairwise_cons.mpr ⟨fun y mem => ?_, ih⟩
      have := rest.le_header mem
      omega

theorem Layout.read (h : Layout dev o xs) (mem : x ∈ xs) :
    ∃ head, dev.readBlock x.header = some head ∧ Encodes head x.entry := by
  induction h with
  | deviceEnd => cases mem
  | zeroBlocks => cases mem
  | entry _ read encodes _ _ _ ih =>
      rcases List.mem_cons.mp mem with rfl | mem
      · exact ⟨_, read, encodes⟩
      · exact ih mem

end Layout

/-! ### Reading a header -/

section Size
variable {n i : Nat}

theorem octalDigits_digit (h : i < 11) :
    (octalDigits n).getD (11 - (1 + i)) 0 = UInt8.ofNat (48 + n / 8 ^ i % 8) := by
  interval_cases i <;> rfl

@[simp] theorem octalDigits_length : (octalDigits n).length = 11 := rfl

theorem char_digit : ∀ d < 8, (UInt8.ofNat (48 + d)).toInt8.toInt = 48 + (d : Int) := by
  decide

/-- After `i` rounds the last `i` digits are in `value`. -/
theorem octalStep_rounds (h : i ≤ 10) :
    (List.range' 1 i).foldl (octalStep (octalDigits n)) (0, 1) = (n % 8 ^ i, (8 ^ i : Int)) := by
  induction i with
  | zero => simp [Nat.mod_one]
  | succ i ih =>
      have digit : n / 8 ^ i % 8 < 8 := Nat.mod_lt _ (by decide)
      have bound : 8 ^ (i + 1) ≤ 8 ^ 10 := Nat.pow_le_pow_right (by decide) h
      have value : n % 8 ^ (i + 1) < 8 ^ (i + 1) := Nat.mod_lt _ (Nat.pow_pos (by decide))
      rw [List.range'_1_concat, List.foldl_append, ih (by omega), List.foldl_cons, List.foldl_nil,
        octalStep, octalDigits_length, octalDigits_digit (by omega), char_digit _ digit]
      have sum : ((n % 8 ^ i : Nat) : Int) + 8 ^ i * (48 + ((n / 8 ^ i % 8 : Nat) : Int) - 48) =
          ((n % 8 ^ (i + 1) : Nat) : Int) := by
        rw [Nat.mod_pow_succ]
        push_cast
        ring
      have factor : (8 ^ i * 8 : Int) = ((8 ^ (i + 1) : Nat) : Int) := by
        push_cast
        ring
      dsimp only
      rw [sum, factor, toUInt32_natCast (by omega), toInt32_natCast (by omega), Nat.cast_pow,
        Nat.cast_ofNat]

theorem octal2ui_octalDigits_mod (n : Nat) : octal2ui (octalDigits n) = n % 8 ^ 10 := by
  rw [octal2ui, octalDigits_length, octalStep_rounds (by decide)]

theorem octal2ui_octalDigits (h : n < 8 ^ 10) : octal2ui (octalDigits n) = n := by
  rw [octal2ui_octalDigits_mod]
  exact Nat.mod_eq_of_lt h

theorem zero_notMem_octalDigits : 0 ∉ octalDigits n := by
  intro mem
  obtain ⟨k, -, zero⟩ := List.mem_map.mp mem
  have digit : n / 8 ^ k % 8 < 8 := Nat.mod_lt _ (by decide)
  have := char_digit _ digit
  rw [zero] at this
  have : (0 : UInt8).toInt8.toInt = 0 := by decide
  omega

end Size

section Name
variable {c rest : List UInt8} {t : UInt8} {cs : List Name} {kind : Kind}

theorem nextComponent_append (rest : List UInt8) (zero : 0 ∉ c) (slash : 47 ∉ c)
    (short : c.length < 256)
    (stop : t = 0 ∨ t = 47) :
    nextComponent (c ++ t :: rest) = .ok (c, if t = 47 then rest else t :: rest) := by
  have taken : (c ++ t :: rest).takeWhile (fun b => b ≠ 0 ∧ b ≠ 47) = c := by
    rw [List.takeWhile_append_of_pos, List.takeWhile_cons_of_neg, List.append_nil]
    · rcases stop with rfl | rfl <;> decide
    · intro b mem
      have notZero : b ≠ 0 := fun e => zero (e ▸ mem)
      have notSlash : b ≠ 47 := fun e => slash (e ▸ mem)
      exact decide_eq_true ⟨notZero, notSlash⟩
  rw [nextComponent, taken, if_neg (by omega), List.drop_left]

theorem nextComponent_shorter {path : List UInt8} (parsed : nextComponent path = .ok (c, rest))
    (nonempty : c ≠ []) : rest.length < path.length := by
  have some := List.length_pos_iff.mpr nonempty
  unfold nextComponent at parsed
  extract_lets component at parsed
  split_ifs at parsed
  split at parsed
  next => cases parsed
  next t tail dropped =>
    have total := congrArg List.length dropped
    rw [List.length_drop, List.length_cons] at total
    obtain ⟨same, rfl⟩ := Prod.mk.inj (Except.ok.inj parsed)
    rw [same] at total
    split_ifs
    · omega
    · rw [List.length_cons]
      omega

theorem Spells.length_le {path : List UInt8} (h : Spells path cs) : cs.length ≤ path.length := by
  induction h with
  | stop => exact Nat.zero_le _
  | next parsed nonempty _ ih => exact Nat.lt_of_le_of_lt ih (nextComponent_shorter parsed nonempty)

theorem spells_end : Spells (0 :: rest) [] :=
  .stop (nextComponent_append (c := []) rest List.not_mem_nil List.not_mem_nil
    (by decide) (.inl rfl))

/-- Bytes put together in this way are read back, whatever stops them. -/
theorem spells_intercalate (nonempty : cs ≠ [])
    (proper : ∀ c ∈ cs, (c ≠ [] ∧ 47 ∉ c) ∧ 0 ∉ c) (short : ([47].intercalate cs).length < 256)
    {more : List UInt8}
    (stops : rest = 0 :: more ∨ rest = 47 :: 0 :: more ∨ rest = 47 :: 47 :: more) :
    Spells ([47].intercalate cs ++ rest) cs := by
  induction cs with
  | nil => exact absurd rfl nonempty
  | cons c cs ih =>
      obtain ⟨⟨some, slash⟩, zero⟩ := proper c List.mem_cons_self
      cases cs with
      | nil =>
          rw [List.intercalate_singleton] at short ⊢
          have parse := fun t rest => nextComponent_append (t := t) rest zero slash short
          rcases stops with rfl | rfl | rfl
          · exact .next (parse 0 more (.inl rfl)) some spells_end
          · exact .next (parse 47 (0 :: more) (.inr rfl)) some spells_end
          · have empty := nextComponent_append (c := []) (t := 47) more List.not_mem_nil
              List.not_mem_nil (by decide) (.inr rfl)
            exact .next (parse 47 (47 :: more) (.inr rfl)) some (.stop empty)
      | cons d cs =>
          rw [List.intercalate_cons_cons] at short ⊢
          simp only [List.length_append, List.length_singleton] at short
          rw [List.append_assoc, List.append_assoc, List.singleton_append]
          refine .next (nextComponent_append _ zero slash (by omega) (.inr rfl)) some ?_
          rw [if_pos rfl]
          exact ih (List.cons_ne_nil d cs) (fun e mem => proper e (List.mem_cons_of_mem c mem))
            (by omega)

/-- A name field spells the components of its path. -/
theorem spells_nameField (nonempty : cs ≠ []) (components : ∀ c ∈ cs, c ≠ [] ∧ 0 ∉ c ∧ 47 ∉ c)
    (short : (nameField cs kind).length < 256) : Spells (nameField cs kind ++ 0 :: rest) cs := by
  have proper : ∀ c ∈ cs, (c ≠ [] ∧ 47 ∉ c) ∧ 0 ∉ c := by
    intro c mem
    obtain ⟨some, zero, slash⟩ := components c mem
    exact ⟨⟨some, slash⟩, zero⟩
  have least : ([47].intercalate cs).length < 256 := by
    unfold nameField at short
    rw [List.length_append] at short
    omega
  cases kind with
  | file =>
      have field : nameField cs .file ++ 0 :: rest = [47].intercalate cs ++ 0 :: rest := by
        simp [nameField]
      rw [field]
      exact spells_intercalate nonempty proper least (.inl rfl)
  | directory =>
      have field : nameField cs .directory ++ 0 :: rest =
          [47].intercalate cs ++ 47 :: 0 :: rest := by
        simp [nameField]
      rw [field]
      exact spells_intercalate nonempty proper least (.inr (.inl rfl))

end Name

section Header
variable {head : Block} {e : Entry}

theorem Encodes.spells (h : Encodes head e) : Spells head.1 e.path := by
  obtain ⟨rest, field⟩ := h.name
  rw [field]
  exact spells_nameField e.nonempty e.components (Nat.lt_of_le_of_lt e.short (by decide))

theorem Encodes.path_length (h : Encodes head e) : e.path.length ≤ 512 := by
  rw [← head.2]
  exact h.spells.length_le

theorem Encodes.headerSize (h : Encodes head e) : headerSize head = .ok e.data.length := by
  obtain ⟨rest, field⟩ := h.size
  rw [Fs.headerSize, field, cString_append zero_notMem_octalDigits]
  change Except.ok _ = _
  rw [octal2ui_octalDigits e.small]

theorem isZeroBlock_iff : isZeroBlock head = true ↔ ∀ c ∈ head.1, c = 0 := by
  simp [isZeroBlock]

/-- A header is not a zero block: its name starts with a component. -/
theorem Encodes.not_zero (h : Encodes head e) : isZeroBlock head = false := by
  rw [Bool.eq_false_iff]
  intro zero
  obtain ⟨rest, field⟩ := h.name
  obtain ⟨c, cs, path⟩ := List.exists_cons_of_ne_nil e.nonempty
  obtain ⟨some, noZero, -⟩ := e.components c (path ▸ List.mem_cons_self)
  obtain ⟨b, bs, rfl⟩ := List.exists_cons_of_ne_nil some
  have first : b ∈ head.1 := by
    rw [field, path]
    cases cs <;> simp [nameField]
  exact noZero (isZeroBlock_iff.mp zero b first ▸ List.mem_cons_self)

end Header

/-- A header for an entry; the fields that no reader looks at are zero. -/
def Entry.headerBytes (e : Entry) : List UInt8 :=
  nameField e.path e.kind ++
    (List.replicate (124 - (nameField e.path e.kind).length) 0 ++
      (octalDigits e.data.length ++ 0 :: (List.replicate 20 0 ++
        (if e.kind = .directory then 53 else 48) :: List.replicate 355 0)))

def Entry.headerBlock (e : Entry) : Block where
  val := e.headerBytes
  property := by
    have short := e.short
    simp only [headerBytes, List.length_append, List.length_cons, List.length_replicate,
      octalDigits_length]
    omega

theorem Entry.headerBlock_encodes (e : Entry) : Encodes e.headerBlock e := by
  have short := e.short
  have front : (nameField e.path e.kind ++
      List.replicate (124 - (nameField e.path e.kind).length) (0 : UInt8)).length = 124 := by
    rw [List.length_append, List.length_replicate]
    omega
  refine ⟨?_, ?_, ?_⟩
  · obtain ⟨pad, more⟩ : ∃ pad, 124 - (nameField e.path e.kind).length = pad + 1 :=
      ⟨123 - (nameField e.path e.kind).length, by omega⟩
    change ∃ rest, e.headerBytes = _
    rw [headerBytes, more, List.replicate_succ]
    exact ⟨_, rfl⟩
  · change ∃ rest, e.headerBytes.drop 124 = _
    rw [headerBytes, ← List.append_assoc, List.drop_left' front]
    exact ⟨_, rfl⟩
  · have flag : e.headerBytes.getD 156 0 = if e.kind = .directory then 53 else 48 := by
      rw [headerBytes, ← List.append_assoc, List.getD_append_right _ _ _ _ (by omega), front]
      rfl
    change e.headerBytes.getD 156 0 = 53 ↔ _
    rw [flag]
    cases e.kind <;> decide

end Infos.Fs
