import Infos.Fs.ElfProcess

/-!
# The image that loading builds

Which pages back a segment is decided by the program headers alone: a segment
opens a block unless its first page has one. The image is right when each
segment's file bytes stay in the block it was copied through, and each of its
addresses is in some block.
-/
namespace Infos.Fs.Elf
open Infos.Lib Infos.Mm.Vma

/-! ### The layout -/

namespace ELF64ProgramHeaderEntry

/-- `va` is one of the addresses of the segment. -/
def Contains (ent : ELF64ProgramHeaderEntry) (va : Nat) : Prop :=
  ent.vaddr.toNat ≤ va ∧ va < ent.vaddr.toNat + ent.memsz.toNat

/-- `va` is one of the addresses that the file fills. -/
def Fills (ent : ELF64ProgramHeaderEntry) (va : Nat) : Prop :=
  ent.vaddr.toNat ≤ va ∧ va < ent.vaddr.toNat + ent.filesz.toNat

/-- The block that a segment opens. -/
def block (ent : ELF64ProgramHeaderEntry) : Block :=
  ⟨ent.vaddr.toNat / 4096, 2 ^ log2ceil (toUInt64 ent.nrPages)⟩

end ELF64ProgramHeaderEntry

def opened (bs : List Block) (ent : ELF64ProgramHeaderEntry) : List Block :=
  if ent.nrPages = 0 ∨ owner bs (ent.vaddr.toNat / 4096) ≠ 0 then bs else ent.block :: bs

/-- The blocks that the segments open, the newest first. -/
def openedAll (bs : List Block) (ents : List ELF64ProgramHeaderEntry) : List Block :=
  ents.foldl opened bs

/-- Among the blocks of the finished process, the file bytes of each segment are in the block
that showed the segment's first page when it was copied. -/
def Backed (final : List Block) : List Block → List ELF64ProgramHeaderEntry → Prop
  | _, [] => True
  | bs, ent :: ents =>
      (∀ j < ent.filesz.toNat, owner final ((ent.vaddr.toNat + j) / 4096) =
        owner (opened bs ent) (ent.vaddr.toNat / 4096)) ∧ Backed final (opened bs ent) ents

instance decidableBacked (final : List Block) :
    (bs : List Block) → (ents : List ELF64ProgramHeaderEntry) → Decidable (Backed final bs ents)
  | _, [] => isTrue trivial
  | bs, ent :: ents =>
      have := decidableBacked final (opened bs ent) ents
      inferInstanceAs (Decidable (_ ∧ _))

theorem opened_suffix (bs : List Block) (ent : ELF64ProgramHeaderEntry) : bs <:+ opened bs ent := by
  unfold opened
  split_ifs
  · exact List.suffix_rfl
  · exact List.suffix_cons _ _

theorem openedAll_cons (bs : List Block) (ent : ELF64ProgramHeaderEntry)
    (ents : List ELF64ProgramHeaderEntry) :
    openedAll bs (ent :: ents) = openedAll (opened bs ent) ents := List.foldl_cons

theorem openedAll_suffix (bs : List Block) (ents : List ELF64ProgramHeaderEntry) :
    bs <:+ openedAll bs ents := by
  induction ents generalizing bs with
  | nil => exact List.suffix_rfl
  | cons ent ents ih =>
      rw [openedAll_cons]
      exact (opened_suffix bs ent).trans (ih _)

theorem finished_suffix (bs : List Block) (cmdline : List Byte) : bs <:+ finished bs cmdline := by
  unfold finished
  split_ifs
  · exact ⟨[⟨0x102, 1⟩, ⟨0x100, 2⟩], rfl⟩
  · exact ⟨[⟨0x100, 2⟩], rfl⟩

/-! ### One segment -/

section Segment
variable {s s' : State} {bs : List Placed} {K T : Nat → Prop} {ent : ELF64ProgramHeaderEntry}
  {uninit : Nat → Byte} {file : File} {content : Nat → Byte} {final : List Block}

/-- The bytes `content` of the file, wherever block `b` shows the segment. -/
def Shows (content : Nat → Byte) (s : State) (b : Placed) (ent : ELF64ProgramHeaderEntry) : Prop :=
  ∀ j < ent.filesz.toNat, b.Spans (ent.vaddr.toNat + j) ∧
    byteAt s.mem (b.addr (ent.vaddr.toNat + j)) = content (ent.offset.toNat + j)

/-- `pread` fills a buffer for the segment with the bytes of the file. -/
def Readable (content : Nat → Byte) (file : File) (ent : ELF64ProgramHeaderEntry) : Prop :=
  ∀ buffer : List Byte, buffer.length = ent.filesz.toNat → ∀ j < ent.filesz.toNat,
    (file.pread buffer ent.offset).2[j]? = some (content (ent.offset.toNat + j))

theorem placeSegment_extends (ent : ELF64ProgramHeaderEntry) :
    Respects Extends (placeSegment ent) := by
  unfold placeSegment isMapped
  refine .bind (.bind (getMapping_extends _) fun _ => .ret _) fun _ => .ite ?_ (.ret _)
  exact .bind (allocateVirt_extends _ _) fun _ => .ret _

theorem fillSegment_extends (ent : ELF64ProgramHeaderEntry) :
    Respects Extends (fillSegment uninit file ent) :=
  .bind (copyTo_extends _ _) fun _ => .ret _

theorem placeSegment_grows {touched : Nat → Prop} (h : Laid s bs K T)
    (low : ent.vaddr.toNat < 2 ^ 47)
    (user : ∀ b ∈ opened (bs.map Placed.toBlock) ent, b.first + b.pages ≤ 2 ^ 35)
    (run : (placeSegment ent).run s = .ok ((), s')) (supplied : Supplied s') :
    ∃ bs' T', bs'.map Placed.toBlock = opened (bs.map Placed.toBlock) ent ∧
      Grows K touched s bs T s' bs' T' := by
  unfold placeSegment at run
  rw [bind_ok (h.isMapped low)] at run
  by_cases mapped : (backing bs (ent.vaddr.toNat / 4096)).isSome
  · have same : opened (bs.map Placed.toBlock) ent = bs.map Placed.toBlock :=
      if_pos (.inr (owner_ne_zero_iff.mpr mapped))
    rw [mapped] at run
    cases run
    exact ⟨bs, T, same.symm, .refl h⟩
  · rw [Bool.not_eq_true] at mapped
    rw [mapped] at run
    obtain ⟨r, s₁, run₁, run⟩ := of_bind_ok run
    cases run
    by_cases none : ent.nrPages = 0
    · have same : opened (bs.map Placed.toBlock) ent = bs.map Placed.toBlock := if_pos (.inl none)
      unfold allocateVirt at run₁
      rw [if_pos none] at run₁
      cases run₁
      exact ⟨bs, T, same.symm, .refl h⟩
    · have new : opened (bs.map Placed.toBlock) ent = ent.block :: bs.map Placed.toBlock := by
        apply if_neg
        rintro (zero | owned)
        · exact none zero
        · rw [owner_ne_zero_iff, mapped] at owned
          cases owned
      rw [new] at user ⊢
      obtain ⟨b, T', block, grows⟩ :=
        h.allocateVirt_grows touched none (user ent.block List.mem_cons_self) run₁ supplied
      exact ⟨b :: bs, T', by rw [List.map_cons, block]; rfl, grows⟩

theorem spans_of_backed (suffix : bs.map Placed.toBlock <:+ final)
    (backed : ∀ j < ent.filesz.toNat, owner final ((ent.vaddr.toNat + j) / 4096) =
      owner (bs.map Placed.toBlock) (ent.vaddr.toNat / 4096))
    {b : Placed} (shown : (bs.find? fun b => b.covers (ent.vaddr.toNat / 4096)) = some b)
    {j : Nat} (hj : j < ent.filesz.toNat) : b.Spans (ent.vaddr.toNat + j) := by
  have found := find?_of_serial_eq suffix (backed j hj)
  have first : ((bs.map Placed.toBlock).find? fun b => b.covers (ent.vaddr.toNat / 4096)) =
      some b.toBlock := by
    rw [List.find?_map]
    exact congrArg (Option.map Placed.toBlock) shown
  rw [first] at found
  have covers := Block.covers_iff.mp
    (List.find?_some (p := fun b : Block => b.covers ((ent.vaddr.toNat + j) / 4096)) found)
  rw [Placed.Spans]
  omega

theorem fillSegment_grows (h : Laid s bs K T) (low : ent.vaddr.toNat < 2 ^ 47)
    (suffix : bs.map Placed.toBlock <:+ final)
    (backed : ∀ j < ent.filesz.toNat, owner final ((ent.vaddr.toNat + j) / 4096) =
      owner (bs.map Placed.toBlock) (ent.vaddr.toNat / 4096))
    (readable : Readable content file ent)
    (run : (fillSegment uninit file ent).run s = .ok ((), s')) :
    Grows K ent.Fills s bs T s' bs T ∧
      ∀ b, (bs.find? fun b => b.covers (ent.vaddr.toNat / 4096)) = some b →
        Shows content s' b ent := by
  unfold fillSegment at run
  obtain ⟨r, s₁, run₁, run⟩ := of_bind_ok run
  cases run
  have length : (newBuffer uninit ent.filesz.toNat).length = ent.filesz.toNat := by
    rw [newBuffer, List.length_map, List.length_range]
  have size : (file.pread (newBuffer uninit ent.filesz.toNat) ent.offset).2.length =
      ent.filesz.toNat := (file.pread_length _ _).trans length
  cases shown : bs.find? fun b => b.covers (ent.vaddr.toNat / 4096) with
  | none =>
      have unmapped : backing bs (ent.vaddr.toNat / 4096) = Option.none := by
        rw [backing, shown]
        rfl
      unfold copyTo at run₁
      rw [bind_ok (h.getMapping low), unmapped] at run₁
      cases run₁
      exact ⟨.refl h, fun b found => by cases found⟩
  | some b =>
      have spans := fun j hj => spans_of_backed suffix backed shown (j := j) hj
      have fits : ent.vaddr.toNat + (file.pread (newBuffer uninit ent.filesz.toNat)
          ent.offset).2.length ≤ 4096 * (b.first + b.pages) := by
        rw [size]
        obtain ⟨_, _, hi⟩ := of_find?_covers shown
        rcases Nat.eq_zero_or_pos ent.filesz.toNat with zero | pos
        · omega
        · have last := (spans (ent.filesz.toNat - 1) (by omega)).2
          omega
      obtain ⟨grows, copied⟩ := h.copyTo_grows low shown fits run₁
      rw [size] at grows
      refine ⟨grows, ?_⟩
      rintro c found
      cases found
      intro j hj
      refine ⟨spans j hj, ?_⟩
      rw [copied j (size.symm ▸ hj)]
      have read := readable _ length j hj
      rw [List.getElem?_eq_getElem (size.symm ▸ hj)] at read
      exact Option.some.inj read

/-- The file bytes of a segment are where they were copied to. -/
def Copied (content : Nat → Byte) (final : List Block) (s : State) (bs : List Placed)
    (ent : ELF64ProgramHeaderEntry) : Prop :=
  ∃ old : List Placed, old <:+ bs ∧
    (∀ j < ent.filesz.toNat, owner final ((ent.vaddr.toNat + j) / 4096) =
      owner (old.map Placed.toBlock) (ent.vaddr.toNat / 4096)) ∧
    ∀ b, (old.find? fun b => b.covers (ent.vaddr.toNat / 4096)) = some b → Shows content s b ent

theorem Copied.grows {bs' : List Placed} {T' touched : Nat → Prop}
    (h : Copied content final s bs ent) (grows : Grows K touched s bs T s' bs' T')
    (apart : ∀ va, ent.Fills va → ¬ touched va) :
    Copied content final s' bs' ent := by
  obtain ⟨old, suffix, same, shows⟩ := h
  refine ⟨old, suffix.trans grows.suffix, same, fun b found j hj => ?_⟩
  obtain ⟨spans, shown⟩ := shows b found j hj
  have mem := suffix.subset (of_find?_covers found).1
  refine ⟨spans, (grows.keeps b mem _ spans (apart _ ?_)).trans shown⟩
  exact ⟨Nat.le_add_right _ _, Nat.add_lt_add_left hj _⟩

theorem nrPages_of_empty (empty : ent.memsz.toNat = 0) : ent.nrPages = 0 := by
  have zero : ent.memsz = 0 := BitVec.eq_of_toNat_eq empty
  rw [ELF64ProgramHeaderEntry.nrPages, zero]
  decide

/-- A segment without bytes leaves no trace, whatever its address. -/
theorem loadSegment_empty (empty : ent.memsz.toNat = 0) (le : ent.filesz.toNat ≤ ent.memsz.toNat)
    (run : (loadSegment uninit file ent).run s = .ok ((), s')) : s' = s := by
  unfold loadSegment at run
  obtain ⟨_, s₁, run₁, run₂⟩ := of_bind_ok run
  have placed : s₁ = s := by
    unfold placeSegment isMapped allocateVirt at run₁
    rw [if_pos (nrPages_of_empty empty)] at run₁
    obtain ⟨mapped, s₂, run₃, run₁⟩ := of_bind_ok run₁
    obtain ⟨r, s₃, run₄, run₃⟩ := of_bind_ok run₃
    cases run₃
    rw [← getMapping_same _ _ _ _ run₄] at run₁
    cases h : !r.isSome with
    | false => rw [h] at run₁; cases run₁; rfl
    | true => rw [h] at run₁; cases run₁; rfl
  unfold fillSegment copyTo at run₂
  have nothing : (file.pread (newBuffer uninit ent.filesz.toNat) ent.offset).2 = [] := by
    rw [← List.length_eq_zero_iff, file.pread_length, newBuffer, List.length_map,
      List.length_range]
    omega
  rw [nothing] at run₂
  obtain ⟨copied, s₂, run₃, run₂⟩ := of_bind_ok run₂
  cases run₂
  obtain ⟨r, s₃, run₄, run₃⟩ := of_bind_ok run₃
  rw [← getMapping_same _ _ _ _ run₄, placed] at run₃
  cases r with
  | none => cases run₃; rfl
  | some pa =>
      obtain ⟨dest, s₄, run₅, run₃⟩ := of_bind_ok run₃
      obtain ⟨same, _⟩ := paToVpa_ok run₅
      rw [same] at run₃
      cases run₃
      rfl

theorem loadSegment_grows (h : Laid s bs K T)
    (user : ent.memsz.toNat ≠ 0 → ent.vaddr.toNat + ent.memsz.toNat ≤ 2 ^ 47)
    (le : ent.filesz.toNat ≤ ent.memsz.toNat) (readable : Readable content file ent)
    (room : ∀ b ∈ opened (bs.map Placed.toBlock) ent, b.first + b.pages ≤ 2 ^ 35)
    (suffix : opened (bs.map Placed.toBlock) ent <:+ final)
    (backed : ∀ j < ent.filesz.toNat, owner final ((ent.vaddr.toNat + j) / 4096) =
      owner (opened (bs.map Placed.toBlock) ent) (ent.vaddr.toNat / 4096))
    (run : (loadSegment uninit file ent).run s = .ok ((), s')) (supplied : Supplied s') :
    ∃ bs' T', bs'.map Placed.toBlock = opened (bs.map Placed.toBlock) ent ∧
      Grows K ent.Fills s bs T s' bs' T' ∧ Copied content final s' bs' ent := by
  by_cases empty : ent.memsz.toNat = 0
  · cases loadSegment_empty empty le run
    have same : opened (bs.map Placed.toBlock) ent = bs.map Placed.toBlock :=
      if_pos (.inl (nrPages_of_empty empty))
    refine ⟨bs, T, same.symm, .refl h, bs, List.suffix_rfl, same ▸ backed, ?_⟩
    intro b _ j hj
    omega
  · have low : ent.vaddr.toNat < 2 ^ 47 := by
      have := user empty
      omega
    unfold loadSegment at run
    obtain ⟨_, s₁, run₁, run₂⟩ := of_bind_ok run
    have supplied₁ := supplied.of_extends (fillSegment_extends _ _ _ _ run₂)
    obtain ⟨bs', T', blocks, grows₁⟩ := placeSegment_grows h low room run₁ supplied₁
    rw [← blocks] at suffix backed
    obtain ⟨grows₂, shows⟩ := fillSegment_grows grows₁.laid low suffix backed readable run₂
    exact ⟨bs', T', blocks, grows₁.trans grows₂, bs', List.suffix_rfl, backed, shows⟩

end Segment

/-! ### All segments -/

section Segments
variable {s s' : State} {bs : List Placed} {K T : Nat → Prop} {uninit : Nat → Byte} {file : File}
  {content : Nat → Byte} {final : List Block} {hdr : ELF64Header}

/-- The loadable segments among the program headers numbered `is`. -/
def segments (uninit : Nat → Byte) (file : File) (hdr : ELF64Header) (is : List Nat) :
    List ELF64ProgramHeaderEntry :=
  (is.map fun i => (readEntry uninit file hdr i).2).filter fun ent => ent.type = 1

theorem segments_cons (uninit : Nat → Byte) (file : File) (hdr : ELF64Header) (i : Nat)
    (is : List Nat) :
    segments uninit file hdr (i :: is) =
      if (readEntry uninit file hdr i).2.type = 1 then
        (readEntry uninit file hdr i).2 :: segments uninit file hdr is
      else segments uninit file hdr is := by
  rw [segments, List.map_cons, List.filter_cons]
  simp only [decide_eq_true_iff]
  rfl

/-- What the program headers promise: the segments are apart, in user space, away from the user
stack and the command line, and their bytes can be read. -/
structure Described (content : Nat → Byte) (file : File)
    (ents : List ELF64ProgramHeaderEntry) : Prop where
  user : ∀ ent ∈ ents, ent.memsz.toNat ≠ 0 → ent.vaddr.toNat + ent.memsz.toNat ≤ 2 ^ 47
  filesz : ∀ ent ∈ ents, ent.filesz.toNat ≤ ent.memsz.toNat
  readable : ∀ ent ∈ ents, Readable content file ent
  disjoint : ents.Pairwise fun d e => ∀ va, d.Contains va → ¬ e.Contains va
  outside : ∀ ent ∈ ents, ∀ va, ent.Contains va → ¬ (0x100000 ≤ va ∧ va < 0x103000)

theorem ELF64ProgramHeaderEntry.Fills.contains {ent : ELF64ProgramHeaderEntry} {va : Nat}
    (h : ent.Fills va) (le : ent.filesz.toNat ≤ ent.memsz.toNat) : ent.Contains va :=
  ⟨h.1, lt_of_lt_of_le h.2 (Nat.add_le_add_left le _)⟩

theorem Described.tail {ent : ELF64ProgramHeaderEntry} {ents : List ELF64ProgramHeaderEntry}
    (h : Described content file (ent :: ents)) : Described content file ents where
  user e he := h.user e (List.mem_cons_of_mem ent he)
  filesz e he := h.filesz e (List.mem_cons_of_mem ent he)
  readable e he := h.readable e (List.mem_cons_of_mem ent he)
  disjoint := h.disjoint.of_cons
  outside e he := h.outside e (List.mem_cons_of_mem ent he)

theorem loadEntries_extends (is : List Nat) :
    Respects Extends (loadEntries uninit file hdr is) := by
  induction is with
  | nil => exact .ret true
  | cons i is ih =>
      unfold loadEntries
      refine .ite (.ret false) (.ite (.bind (.bind ?_ fun _ => ?_) fun _ => ih) ih)
      · exact placeSegment_extends _
      · exact fillSegment_extends _

theorem loadEntries_grows {is : List Nat} (h : Laid s bs K T)
    (described : Described content file (segments uninit file hdr is))
    (room : ∀ b ∈ openedAll (bs.map Placed.toBlock) (segments uninit file hdr is),
      b.first + b.pages ≤ 2 ^ 35)
    (suffix : openedAll (bs.map Placed.toBlock) (segments uninit file hdr is) <:+ final)
    (backed : Backed final (bs.map Placed.toBlock) (segments uninit file hdr is))
    (run : (loadEntries uninit file hdr is).run s = .ok (true, s')) (supplied : Supplied s') :
    ∃ bs' T', bs'.map Placed.toBlock =
        openedAll (bs.map Placed.toBlock) (segments uninit file hdr is) ∧
      Grows K (fun va => ∃ ent ∈ segments uninit file hdr is, ent.Fills va) s bs T s' bs' T' ∧
      ∀ ent ∈ segments uninit file hdr is, Copied content final s' bs' ent := by
  induction is generalizing s bs T with
  | nil =>
      cases run
      exact ⟨bs, T, rfl, .refl h, fun _ none => by cases none⟩
  | cons i is ih =>
      unfold loadEntries at run
      dsimp only at run
      by_cases short : (readEntry uninit file hdr i).1 ≠ entrySize
      · rw [if_pos short] at run
        cases run
      · rw [if_neg short] at run
        by_cases loadable : (readEntry uninit file hdr i).2.type = 1
        · have here := (segments_cons uninit file hdr i is).trans (if_pos loadable)
          rw [if_pos loadable] at run
          rw [here] at described room suffix backed ⊢
          generalize (readEntry uninit file hdr i).2 = ent at run described room suffix backed ⊢
          obtain ⟨_, s₁, run₁, run₂⟩ := of_bind_ok run
          have supplied₁ := supplied.of_extends (loadEntries_extends is _ _ _ run₂)
          rw [openedAll_cons] at room suffix ⊢
          obtain ⟨backed₁, backed⟩ := backed
          have grown := openedAll_suffix (opened (bs.map Placed.toBlock) ent)
            (segments uninit file hdr is)
          obtain ⟨bs₁, T₁, blocks₁, grows₁, copied₁⟩ := loadSegment_grows h
            (described.user ent List.mem_cons_self) (described.filesz ent List.mem_cons_self)
            (described.readable ent List.mem_cons_self) (fun b hb => room b (grown.subset hb))
            (grown.trans suffix) backed₁ run₁ supplied₁
          rw [← blocks₁] at room suffix backed ⊢
          obtain ⟨bs', T', blocks', grows', copied'⟩ :=
            ih grows₁.laid described.tail room suffix backed run₂
          refine ⟨bs', T', blocks', ?_, ?_⟩
          · refine (grows₁.mono fun va fills => ?_).trans (grows'.mono fun va => ?_)
            · exact ⟨ent, List.mem_cons_self, fills⟩
            · rintro ⟨e, he, fills⟩
              exact ⟨e, List.mem_cons_of_mem ent he, fills⟩
          · intro e he
            rcases List.mem_cons.mp he with rfl | later
            · apply copied₁.grows grows'
              intro va fills
              rintro ⟨d, hd, fills'⟩
              exact (List.pairwise_cons.mp described.disjoint).1 d hd va
                (fills.contains (described.filesz _ List.mem_cons_self))
                (fills'.contains (described.filesz d (List.mem_cons_of_mem _ hd)))
            · exact copied' e later
        · have here := (segments_cons uninit file hdr i is).trans (if_neg loadable)
          rw [if_neg loadable] at run
          rw [here] at described room suffix backed ⊢
          exact ih h described room suffix backed run

/-! ### Files of bytes -/

def fill (buffer data : List Byte) : Int × List Byte :=
  (min data.length buffer.length, data.take buffer.length ++ buffer.drop data.length)

/-- A file that holds the given bytes. -/
def File.ofBytes (bytes : List Byte) : File where
  read pos buffer := fill buffer (bytes.drop pos)
  pread buffer off := fill buffer (bytes.drop off.toNat)
  pread_length buffer off := by
    simp only [fill, List.length_append, List.length_take, List.length_drop]
    omega

theorem readable_ofBytes {bytes : List Byte} {ent : ELF64ProgramHeaderEntry}
    (inside : ent.offset.toNat + ent.filesz.toNat ≤ bytes.length) :
    Readable (fun i => bytes.getD i 0) (.ofBytes bytes) ent := by
  intro buffer size j hj
  have bound : ent.offset.toNat + j < bytes.length := by omega
  change (List.take buffer.length (bytes.drop ent.offset.toNat) ++ _)[j]? =
    some (bytes.getD (ent.offset.toNat + j) 0)
  rw [List.getElem?_append_left (by rw [List.length_take, List.length_drop]; omega),
    List.getElem?_take_of_lt (by omega), List.getElem?_drop, List.getD_eq_getElem?_getD,
    List.getElem?_eq_getElem bound]
  rfl

/-- `n` little-endian bytes. -/
def leBytes : Nat → Nat → List Byte
  | 0, _ => []
  | n + 1, x => BitVec.ofNat 8 x :: leBytes n (x / 256)

/-- A program header for `filesz` bytes at `offset`, to be shown at `vaddr`. -/
def loadEntry (offset vaddr filesz memsz : Nat) : List Byte :=
  leBytes 4 1 ++ leBytes 4 7 ++ leBytes 8 offset ++ leBytes 8 vaddr ++ leBytes 8 0 ++
    leBytes 8 filesz ++ leBytes 8 memsz ++ leBytes 8 0x1000

/-- An ELF header, followed by program headers and then by data. -/
def elfFile (entries : List (List Byte)) (data : List Byte) : List Byte :=
  [0x7f, 0x45, 0x4c, 0x46, 2, 1, 1, 0, 0] ++ List.replicate 7 0 ++ leBytes 2 2 ++
    leBytes 2 0x3e ++ leBytes 4 1 ++ leBytes 8 0x400000 ++ leBytes 8 64 ++ leBytes 8 0 ++
    leBytes 4 0 ++ leBytes 2 64 ++ leBytes 2 56 ++ leBytes 2 entries.length ++ leBytes 6 0 ++
    entries.flatten ++ data

def emptyMemory (frames : List Nat) : State := ⟨fun _ => 0, frames, [], 0, 0⟩

/-! ### The image -/

/-- The loadable segments of a file. -/
def loadable (uninit : Nat → Byte) (file : File) : List ELF64ProgramHeaderEntry :=
  segments uninit file (readHeader uninit file).2
    (List.range (readHeader uninit file).2.phnum.toNat)

/-- Every copy stays in its block for good, and no block leaves user space. -/
structure LaidOut (ents : List ELF64ProgramHeaderEntry) (cmdline : List Byte) : Prop where
  room : ∀ b ∈ openedAll [] ents, b.first + b.pages ≤ 2 ^ 35
  backed : Backed (finished (openedAll [] ents) cmdline) [] ents
  short : cmdline.length ≤ 4096

/-- Every address of every segment is in some block. -/
def Covered (ents : List ELF64ProgramHeaderEntry) (cmdline : List Byte) : Prop :=
  ∀ ent ∈ ents, ∀ j < ent.memsz.toNat,
    owner (finished (openedAll [] ents) cmdline) ((ent.vaddr.toNat + j) / 4096) ≠ 0

/-- What loading has to achieve, from `s` to `s'`. -/
structure BuildsImage (content : Nat → Byte) (ents : List ELF64ProgramHeaderEntry)
    (s s' : State) : Prop where
  mapped : ∀ ent ∈ ents, ∀ j < ent.memsz.toNat, ∃ pa,
    (getMapping (ent.vaddr + BitVec.ofNat 64 j)).run s' = .ok (some pa, s') ∧
      (j < ent.filesz.toNat →
        byteAt s'.mem (pmemVaStart + pa.toNat) = content (ent.offset.toNat + j))
  outside : Writes (Held s') s s'

theorem finishLoad_extends (t : Thread) (cmdline : List Byte) :
    Respects Extends (finishLoad t cmdline) := by
  unfold finishLoad allocateUserStack
  refine .bind (.bind (allocateVirt_extends _ _) fun _ => .modify fun _ => .of_eq rfl rfl)
    fun _ => .ite ?_ (.bind (addEntryArgument_extends t 0) fun _ => .ret _)
  refine .bind (allocateVirt_extends _ _) fun _ => .bind (copyTo_extends _ _) fun _ => ?_
  refine .ite (.ret _) ?_
  exact .bind (addEntryArgument_extends t _) fun _ => .ret _

/-- What `load` leaves behind when no copy goes astray. -/
theorem load_laid {template : Option (Nat → BitVec 64)} {cmdline : List Byte} {t : Thread}
    (fresh : FreshFrames s.frames)
    (run : (load template uninit file cmdline).run s = .ok (some t, s')) (supplied : Supplied s')
    (described : Described content file (loadable uninit file))
    (laidOut : LaidOut (loadable uninit file) cmdline) :
    ∃ bs K T, Laid s' bs K T ∧
      bs.map Placed.toBlock = finished (openedAll [] (loadable uninit file)) cmdline ∧
      Writes (Held s') s s' ∧ ∀ ent ∈ loadable uninit file,
        Copied content (finished (openedAll [] (loadable uninit file)) cmdline) s' bs ent := by
  unfold load at run
  dsimp only at run
  by_cases short : (readHeader uninit file).1 ≠ headerSize
  · rw [if_pos short] at run
    cases run
  · rw [if_neg short] at run
    cases valid : (readHeader uninit file).2.valid with
    | false => rw [valid] at run; cases run
    | true =>
        rw [valid] at run
        obtain ⟨main, s₁, run₁, run⟩ := of_bind_ok run
        obtain ⟨all, s₂, run₂, run⟩ := of_bind_ok run
        cases all with
        | false => cases run
        | true =>
            have supplied₂ := supplied.of_extends (finishLoad_extends main cmdline _ _ _ run)
            have supplied₁ := supplied₂.of_extends (loadEntries_extends _ _ _ _ run₂)
            obtain ⟨K, T, laid, context, writes⟩ := newProcess_laid fresh run₁ supplied₁
            obtain ⟨bs, T₂, blocks, grows, copied⟩ := loadEntries_grows laid described
              laidOut.room (finished_suffix _ cmdline) laidOut.backed run₂ supplied₂
            obtain ⟨bs', T', blocks', grows'⟩ :=
              finishLoad_grows grows.laid context laidOut.short run supplied
            rw [blocks] at blocks'
            refine ⟨bs', K, T', grows'.laid, blocks', ?_, ?_⟩
            · have mine := fun f hf => grows'.laid.held (f := f) hf
              have created := writes.mono fun f hf =>
                mine f (hf.imp (fun table => grows'.tables f (grows.tables f table)) .inl)
              have filled : Writes (Held s') s₁ s₂ := grows.writes.mono fun f hf =>
                mine f (hf.imp (grows'.tables f) (Or.imp_right fun ⟨b, mem, has⟩ =>
                  ⟨b, grows'.suffix.subset mem, has⟩))
              exact (created.trans filled).trans (grows'.writes.mono mine)
            · intro ent mem
              apply (copied ent mem).grows grows'
              intro va fills line
              apply described.outside ent mem va (fills.contains (described.filesz ent mem))
              obtain ⟨lo, hi⟩ := line
              omega

theorem toNat_add_ofNat {va : BitVec 64} {n j : Nat} (bound : va.toNat + n ≤ 2 ^ 47) (hj : j < n) :
    (va + BitVec.ofNat 64 j).toNat = va.toNat + j := by
  rw [BitVec.toNat_add, BitVec.toNat_ofNat]
  omega

/-- When no copy goes astray, loading builds the image of a file if and only if every address of
its segments is in some block. -/
theorem builds_image_iff {template : Option (Nat → BitVec 64)} {cmdline : List Byte} {t : Thread}
    (fresh : FreshFrames s.frames)
    (run : (load template uninit file cmdline).run s = .ok (some t, s')) (supplied : Supplied s')
    (described : Described content file (loadable uninit file))
    (laidOut : LaidOut (loadable uninit file) cmdline) :
    BuildsImage content (loadable uninit file) s s' ↔ Covered (loadable uninit file) cmdline := by
  obtain ⟨bs, K, T, laid, blocks, writes, copied⟩ :=
    load_laid fresh run supplied described laidOut
  have lookup : ∀ ent ∈ loadable uninit file, ∀ j < ent.memsz.toNat,
      (getMapping (ent.vaddr + BitVec.ofNat 64 j)).run s' =
        .ok ((backing bs ((ent.vaddr.toNat + j) / 4096)).map fun f =>
          pgdToPa f ||| ((ent.vaddr + BitVec.ofNat 64 j) &&& 0xfff#64), s') := by
    intro ent mem j hj
    have bound := described.user ent mem (by omega)
    have address := toNat_add_ofNat bound hj
    rw [laid.getMapping (by omega), address]
  constructor
  · intro image ent mem j hj
    obtain ⟨pa, found, _⟩ := image.mapped ent mem j hj
    rw [lookup ent mem j hj] at found
    rw [← blocks, owner_ne_zero_iff]
    cases shown : backing bs ((ent.vaddr.toNat + j) / 4096) with
    | none => rw [shown] at found; cases found
    | some f => rfl
  · intro covered
    refine ⟨fun ent mem j hj => ?_, writes⟩
    have bound := described.user ent mem (by omega)
    have address := toNat_add_ofNat bound hj
    have owned := covered ent mem j hj
    rw [← blocks, owner_ne_zero_iff, backing, Option.isSome_map] at owned
    obtain ⟨b, found⟩ := Option.isSome_iff_exists.mp owned
    obtain ⟨inside, lo, hi⟩ := of_find?_covers found
    have small := (laid.small b inside).2
    rw [lookup ent mem j hj, backing, found]
    refine ⟨_, rfl, fun filled => ?_⟩
    dsimp only
    rw [toNat_pgdToPa_or (by omega), address, Placed.addr_eq lo]
    obtain ⟨old, suffix, same, shows⟩ := copied ent mem
    have owner := same j filled
    rw [← blocks] at owner
    rw [find?_of_owner_eq suffix owner] at found
    exact (shows b found j filled).2

/-- Two segments in one page. -/
def sharedPage : List Byte :=
  elfFile [loadEntry 176 0x400000 4 16, loadEntry 180 0x400100 4 4] [1, 2, 3, 4, 5, 6, 7, 8]

def sharedPageStart : State :=
  emptyMemory [0x10, 0x12, 0x20, 0x30, 0x31, 0x32, 0x34, 0x36, 0x38, 0x3a]

theorem builds_image_iff_shared_page :
    ∃ t s', (load (some fun _ => 0) (fun _ => 0) (.ofBytes sharedPage) [0x61]).run sharedPageStart =
        .ok (some t, s') ∧
      BuildsImage (fun i => sharedPage.getD i 0) (loadable (fun _ => 0) (.ofBytes sharedPage))
        sharedPageStart s' := by
  have ran : endsWith (load (some fun _ => 0) (fun _ => 0) (.ofBytes sharedPage) [0x61])
      sharedPageStart (fun t s' => t.isSome && s'.frames == [0x3a] && s'.pageAllocations ==
        [⟨0x10, 0⟩, ⟨0x12, 1⟩, ⟨0x20, 0⟩, ⟨0x30, 0⟩, ⟨0x31, 0⟩, ⟨0x32, 0⟩, ⟨0x34, 1⟩, ⟨0x36, 0⟩,
          ⟨0x38, 0⟩]) = true := by
    decide +kernel
  obtain ⟨t, s', run, outcome⟩ := of_endsWith ran
  simp only [Bool.and_eq_true, beq_iff_eq, Option.isSome_iff_exists] at outcome
  obtain ⟨⟨⟨t, rfl⟩, frames⟩, blocks⟩ := outcome
  have headers : loadable (fun _ => 0) (.ofBytes sharedPage) =
      [⟨1, 176, 0x400000, 4, 16⟩, ⟨1, 180, 0x400100, 4, 4⟩] := by
    decide +kernel
  have described : Described (fun i => sharedPage.getD i 0) (.ofBytes sharedPage)
      [⟨1, 176, 0x400000, 4, 16⟩, ⟨1, 180, 0x400100, 4, 4⟩] := by
    constructor
    case user => decide
    case filesz => decide
    case readable =>
      have inside : ∀ ent ∈ ([⟨1, 176, 0x400000, 4, 16⟩, ⟨1, 180, 0x400100, 4, 4⟩] :
          List ELF64ProgramHeaderEntry),
          ent.offset.toNat + ent.filesz.toNat ≤ sharedPage.length := by decide +kernel
      exact fun ent mem => readable_ofBytes (inside ent mem)
    case disjoint =>
      apply List.pairwise_pair.mpr
      rintro va ⟨_, hi⟩ ⟨lo, _⟩
      exact absurd (lt_of_le_of_lt lo hi) (by decide)
    case outside =>
      have above : ∀ ent ∈ ([⟨1, 176, 0x400000, 4, 16⟩, ⟨1, 180, 0x400100, 4, 4⟩] :
          List ELF64ProgramHeaderEntry), 0x103000 ≤ ent.vaddr.toNat := by decide
      rintro ent mem va ⟨lo, _⟩ ⟨_, hi⟩
      exact absurd (le_trans (above ent mem) lo) (Nat.not_le.mpr hi)
  have fresh : FreshFrames sharedPageStart.frames := ⟨by decide, by decide⟩
  have supplied : Supplied s' := ⟨by rw [frames]; decide, by rw [blocks]; decide⟩
  refine ⟨t, s', run, (builds_image_iff fresh run supplied (headers ▸ described) ?_).mpr ?_⟩
  · rw [headers]
    exact ⟨by decide +kernel, by decide +kernel, by decide⟩
  · rw [headers, Covered]
    decide +kernel

/-- Eight bytes over the end of a page. -/
def straddling : List Byte := elfFile [loadEntry 120 0x400ffc 8 8] [1, 2, 3, 4, 5, 6, 7, 8]

def straddlingStart : State :=
  emptyMemory [0x10, 0x12, 0x20, 0x30, 0x31, 0x32, 0x34, 0x36, 0x38]

/-- The second page of the segment is not mapped, and its bytes go to a page that belongs to
nobody. -/
theorem straddling_segment_strays :
    ∃ t s', (load (some fun _ => 0) (fun _ => 0) (.ofBytes straddling) []).run straddlingStart =
        .ok (some t, s') ∧
      FreshFrames straddlingStart.frames ∧ Supplied s' ∧
      Described (fun i => straddling.getD i 0) (.ofBytes straddling)
        (loadable (fun _ => 0) (.ofBytes straddling)) ∧
      ¬ BuildsImage (fun i => straddling.getD i 0) (loadable (fun _ => 0) (.ofBytes straddling))
        straddlingStart s' := by
  have ran : endsWith (load (some fun _ => 0) (fun _ => 0) (.ofBytes straddling) []) straddlingStart
      (fun t s' => t.isSome && s'.frames == [0x38] && s'.pageAllocations ==
        [⟨0x10, 0⟩, ⟨0x12, 1⟩, ⟨0x20, 0⟩, ⟨0x30, 0⟩, ⟨0x31, 0⟩, ⟨0x32, 0⟩, ⟨0x34, 1⟩, ⟨0x36, 0⟩] &&
        returns (getMapping 0x401000) s' none) = true := by
    decide +kernel
  obtain ⟨t, s', run, outcome⟩ := of_endsWith ran
  simp only [Bool.and_eq_true, beq_iff_eq, Option.isSome_iff_exists] at outcome
  obtain ⟨⟨⟨⟨t, rfl⟩, frames⟩, blocks⟩, lookup⟩ := outcome
  have headers : loadable (fun _ => 0) (.ofBytes straddling) =
      [⟨1, 120, 0x400ffc, 8, 8⟩] := by
    decide +kernel
  have fresh : FreshFrames straddlingStart.frames := ⟨by decide, by decide⟩
  refine ⟨t, s', run, fresh, ⟨by rw [frames]; decide, by rw [blocks]; decide⟩, ?_, ?_⟩
  · rw [headers]
    constructor
    case user => decide
    case filesz => decide
    case readable =>
      intro ent mem
      rw [List.mem_singleton.mp mem]
      exact readable_ofBytes (by decide +kernel)
    case disjoint => exact List.pairwise_singleton _ _
    case outside =>
      intro ent mem va
      rw [List.mem_singleton.mp mem]
      rintro ⟨lo, _⟩ ⟨_, hi⟩
      exact absurd (lt_of_le_of_lt lo hi) (by decide)
  · intro image
    rw [headers] at image
    obtain ⟨pa, found, _⟩ := image.mapped _ (List.mem_singleton_self _) 4 (by decide)
    obtain ⟨s'', none⟩ := of_returns lookup
    rw [show (0x400ffc : BitVec 64) + BitVec.ofNat 64 4 = 0x401000 by decide, none] at found
    cases found

end Segments
end Infos.Fs.Elf
