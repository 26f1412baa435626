import Infos.Fs.InternalDriver
import Mathlib.Data.UInt

/-!
# Open files of the TAR file system

`pread` against the contents of the file, and the position that `read` and `seek` share.
-/
namespace Infos.Fs
open Infos.Lib Infos.Util

namespace TarFSFile

/-- `read`: a `pread` at the current position, which moves by the count. -/
def read (dev : Device) (size : Nat) : DeviceExec TarFSFile (Int × Memory) := do
  let f ← get
  let (rc, bytes) ← f.pread dev size f.curPos
  modify fun f => { f with curPos := toUInt32 (f.curPos + rc) }
  pure (rc, bytes)

inductive SeekType where
  | seekAbsolute
  | seekRelative
  deriving DecidableEq, Repr

/-- `seek`: the 64-bit offset goes into the `unsigned int` position first. -/
def seek (offset : Nat) (type : SeekType) : DeviceExec TarFSFile Unit := do
  modify fun f =>
    match type with
    | .seekAbsolute => { f with curPos := toUInt32 offset }
    | .seekRelative => { f with curPos := toUInt32 (f.curPos + offset) }
  let f ← get
  let size ← Calls.ofExec (lift f.size)
  if f.curPos ≥ size then modify fun f => { f with curPos := toUInt32 ((size : Int) - 1) }
  else pure ()

end TarFSFile

/-- The file has these contents, in the blocks behind its header. -/
structure Holds (dev : Device) (f : TarFSFile) (F : List UInt8) : Prop where
  sized : f.size = .ok F.length
  small : F.length < 8 ^ 10
  bytes : ∀ k < F.length, dev.byteAt f.fileStartBlock k = F.getD k 0

/-- How much there is to read. -/
def readCount (length size off : Nat) : Nat :=
  if length ≤ off ∨ size = 0 then 0 else min size (length - off)

/-! ### Files of an archive -/

theorem Layout.stores {dev : BlockDevice} {o : Nat} {xs : List Placed} {x : Placed}
    (h : Layout dev o xs) (mem : x ∈ xs) : Stores dev (x.header + 1) x.entry.data := by
  induction h with
  | deviceEnd => cases mem
  | zeroBlocks => cases mem
  | entry _ _ _ stores _ _ ih =>
      rcases List.mem_cons.mp mem with rfl | mem
      · exact stores
      · exact ih mem

theorem Archive.opened {dev : BlockDevice} {σ : Type} (A : Archive dev)
    (reads : ∀ b, ∃ block, dev.readBlock b = some block) {x : Placed} (mem : x ∈ A.entries)
    (early : x.header < 2 ^ 31) (s : σ) (log : List ReadCall) :
    ∃ f, (dev.device.newFile x.header : DeviceExec σ _).runOn s log =
      (.ok (f, s), ⟨x.header, 1⟩ :: log) ∧ f.curPos = 0 ∧ Holds dev.device f x.entry.data := by
  obtain ⟨head, read, encodes⟩ := A.layout.read mem
  refine ⟨_, newFile_run (device_succeeds reads) early log, rfl, ?_, x.entry.small, ?_⟩
  · dsimp only [TarFSFile.size]
    rw [device_block read]
    exact encodes.headerSize
  · intro k inside
    have inBlocks : k / 512 < blocksFor x.entry.data.length := by
      unfold blocksFor
      omega
    obtain ⟨b, stored, bytes⟩ := A.layout.stores mem (k / 512) inBlocks
    rw [Device.byteAt, device_block stored, bytes (k % 512) (Nat.mod_lt k (by decide)),
      Nat.div_add_mod]

/-! ### Single reads -/

section Pread
variable {σ : Type} {dev : Device} {f : TarFSFile} {F : List UInt8} {size off : Nat}

theorem Holds.slice (holds : Holds dev f F) {n : Nat} (inside : off + n ≤ F.length) :
    dev.slice f.fileStartBlock off n = (F.drop off).take n := by
  apply List.ext_getElem
  · rw [Device.slice_length, List.length_take, List.length_drop]
    omega
  · intro j hj _
    rw [Device.slice_length] at hj
    simp only [Device.slice, List.getElem_map, List.getElem_range, List.getElem_take,
      List.getElem_drop]
    rw [holds.bytes (off + j) (by omega), List.getD_eq_getElem _ _ (by omega)]

theorem Holds.at (holds : Holds dev f F) (pos : Nat) : Holds dev { f with curPos := pos } F :=
  ⟨holds.sized, holds.small, holds.bytes⟩

/-- A read whose end has an address stores what there is to read. -/
theorem pread_holds (holds : Holds dev f F) (reads : ∀ n c, dev.succeeds n c = true)
    (fits : F.length ≤ off ∨ off + size < 2 ^ 64) (s : σ) (log : List ReadCall) :
    ∃ log', (f.pread dev size off : DeviceExec σ _).runOn s log =
      (.ok ((readCount F.length size off,
        ((F.drop off).take (readCount F.length size off)).map some), s), log') := by
  have small := holds.small
  unfold readCount
  by_cases nothing : F.length ≤ off ∨ size = 0
  · refine ⟨log, ?_⟩
    rw [if_pos nothing, pread_outside holds.sized]
    · rfl
    · rcases Nat.lt_or_ge off F.length with inside | outside
      · right
        rw [TarFSFile.clamp_eq inside (by omega)]
        omega
      · exact .inl outside
  · refine ⟨f.dataCall off (min size (F.length - off)) :: log, ?_⟩
    rw [if_neg nothing, pread_run holds.sized (by omega) (by omega) (by omega) rfl (by omega)
      (reads _ _), holds.slice (by omega)]

/-- `pread` stores the requested slice exactly where it starts behind the end of the file or its
end has a 64-bit offset. -/
theorem pread_slice_iff (holds : Holds dev f F) (reads : ∀ n c, dev.succeeds n c = true)
    (size off : UInt64) (s : σ) (log : List ReadCall) :
    (∃ log', (f.pread dev size.toNat off.toNat : DeviceExec σ _).runOn s log =
      (.ok ((readCount F.length size.toNat off.toNat,
        ((F.drop off.toNat).take (readCount F.length size.toNat off.toNat)).map some), s), log')) ↔
      F.length ≤ off.toNat ∨ off.toNat + size.toNat < 2 ^ 64 := by
  have small := holds.small
  have bound := size.toNat_lt
  constructor
  · rintro ⟨log', run⟩
    by_contra wraps
    have clamped : TarFSFile.clamp F.length size.toNat off.toNat = size.toNat :=
      TarFSFile.clamp_wrap (by omega) (by omega) bound (by omega)
    obtain ⟨-, returned⟩ := pread_returned holds.sized run
    rw [clamped] at returned
    omega
  · intro fits
    exact pread_holds holds reads fits s log

end Pread

/-- The five bytes "hello", opened. -/
def helloFile : TarFSFile := ⟨some hello.headerBlock, 1, 0⟩

theorem helloFile_holds : Holds helloDevice.device helloFile hello.data := by
  obtain ⟨f, run, -, holds⟩ := helloArchive.opened (x := ⟨0, hello⟩) helloDevice_reads
    (List.mem_singleton.mpr rfl) (by decide) () []
  have opened := newFile_run (s := ()) (device_succeeds helloDevice_reads)
    (by decide : 0 < 2 ^ 31) []
  rw [opened] at run
  have same : f = helloFile := (Prod.mk.inj (Except.ok.inj (Prod.mk.inj run).1)).1.symm
  exact same ▸ holds

/-- Ten bytes from the second on: there are four. -/
theorem helloFile_slice :
    ∃ log', (helloFile.pread helloDevice.device (10 : UInt64).toNat (1 : UInt64).toNat :
      DeviceExec Unit _).runOn () [] =
        (.ok ((readCount hello.data.length (10 : UInt64).toNat (1 : UInt64).toNat,
          ((hello.data.drop (1 : UInt64).toNat).take
            (readCount hello.data.length (10 : UInt64).toNat (1 : UInt64).toNat)).map some), ()),
          log') :=
  (pread_slice_iff helloFile_holds (device_succeeds helloDevice_reads) 10 1 () []).mpr
    (.inr (by decide))

/-- As many bytes as a `size_t` counts, from the second on: none are returned. -/
theorem helloFile_wraps :
    Holds helloDevice.device helloFile hello.data ∧
    (∀ n c, helloDevice.device.succeeds n c = true) ∧
    ∀ count bytes log', (helloFile.pread helloDevice.device (2 ^ 64 - 1) 1 :
      DeviceExec Unit _).runOn () [] ≠ (.ok ((count, bytes), ()), log') := by
  refine ⟨helloFile_holds, device_succeeds helloDevice_reads, ?_⟩
  intro count bytes log' run
  have clamped : TarFSFile.clamp 5 (2 ^ 64 - 1) 1 = 2 ^ 64 - 1 :=
    TarFSFile.clamp_wrap (by decide) (by decide) (by decide) (by decide)
  obtain ⟨-, returned⟩ := pread_returned helloFile_holds.sized run
  rw [show hello.data.length = 5 from rfl, clamped] at returned
  omega

/-! ### Reading in pieces -/

/-- Reads one after the other, with what each returns and stores. -/
def TarFSFile.readAll (dev : Device) : List Nat → DeviceExec TarFSFile (List (Int × Memory))
  | [] => pure []
  | size :: sizes => do
      let r ← TarFSFile.read dev size
      let rs ← readAll dev sizes
      pure (r :: rs)

/-- A file cut into pieces of these lengths, as long as there is some of it. -/
def pieces : List UInt8 → List Nat → List (List UInt8)
  | _, [] => []
  | F, n :: ns => F.take n :: pieces (F.drop n) ns

section Pieces
variable {F : List UInt8}

@[simp] theorem pieces_length (sizes : List Nat) : (pieces F sizes).length = sizes.length := by
  induction sizes generalizing F with
  | nil => rfl
  | cons n ns ih => simp [pieces, ih]

theorem pieces_flatten (sizes : List Nat) : (pieces F sizes).flatten = F.take sizes.sum := by
  induction sizes generalizing F with
  | nil => rfl
  | cons n ns ih => rw [pieces, List.flatten_cons, ih, List.sum_cons, List.take_add]

theorem pieces_behind {past rest : List Nat} {n : Nat} (done : F.length ≤ past.sum) :
    (pieces F (past ++ n :: rest))[past.length]? = some [] := by
  induction past generalizing F with
  | nil =>
      obtain rfl : F = [] := List.eq_nil_of_length_eq_zero (Nat.le_zero.mp done)
      simp [pieces]
  | cons m past ih =>
      simp only [List.cons_append, pieces, List.length_cons, List.getElem?_cons_succ]
      apply ih
      rw [List.length_drop]
      rw [List.sum_cons] at done
      omega

end Pieces

section Read
variable {dev : Device} {f : TarFSFile} {F : List UInt8} {size : Nat}

theorem read_run (holds : Holds dev f F) (reads : ∀ n c, dev.succeeds n c = true)
    (inside : f.curPos ≤ F.length) (small : size < 2 ^ 31) (log : List ReadCall) :
    ∃ log', (TarFSFile.read dev size).runOn f log =
      (.ok ((((F.drop f.curPos).take size).length, ((F.drop f.curPos).take size).map some),
        { f with curPos := min (f.curPos + size) F.length }), log') := by
  have bound := holds.small
  have count : readCount F.length size f.curPos = ((F.drop f.curPos).take size).length := by
    rw [readCount, List.length_take, List.length_drop]
    split_ifs <;> omega
  have piece : (F.drop f.curPos).take (readCount F.length size f.curPos) =
      (F.drop f.curPos).take size := by
    rw [count, List.length_take, ← List.take_eq_take_min]
  have moved : toUInt32 (f.curPos + (((F.drop f.curPos).take size).length : Int)) =
      min (f.curPos + size) F.length := by
    rw [List.length_take, List.length_drop, ← Int.natCast_add, toUInt32_natCast (by omega)]
    omega
  have fits : F.length ≤ f.curPos ∨ f.curPos + size < 2 ^ 64 := .inr (by omega)
  obtain ⟨log', run⟩ := pread_holds holds reads fits f log
  refine ⟨log', ?_⟩
  rw [piece, count] at run
  rw [TarFSFile.read, Calls.runOn_bind_ok (Calls.runOn_get f log), Calls.runOn_bind_ok run, ← moved]
  rfl

theorem readAll_run (holds : Holds dev f F) (reads : ∀ n c, dev.succeeds n c = true)
    (inside : f.curPos ≤ F.length) {sizes : List Nat} (small : ∀ n ∈ sizes, n < 2 ^ 31)
    (log : List ReadCall) :
    ∃ log', (TarFSFile.readAll dev sizes).runOn f log =
      (.ok ((pieces (F.drop f.curPos) sizes).map fun p => ((p.length : Int), p.map some),
        { f with curPos := min (f.curPos + sizes.sum) F.length }), log') := by
  induction sizes generalizing f log with
  | nil =>
      refine ⟨log, ?_⟩
      rw [List.sum_nil, Nat.add_zero, min_eq_left inside]
      rfl
  | cons n ns ih =>
      obtain ⟨log₁, first⟩ := read_run holds reads inside (small n List.mem_cons_self) log
      obtain ⟨log₂, rest⟩ := ih (holds.at (min (f.curPos + n) F.length)) (by dsimp only; omega)
        (fun m mem => small m (List.mem_cons_of_mem n mem)) log₁
      have next : F.drop (min (f.curPos + n) F.length) = (F.drop f.curPos).drop n := by
        rw [List.drop_drop]
        rcases Nat.le_total (f.curPos + n) F.length with le | ge
        · rw [min_eq_left le]
        · rw [min_eq_right ge, List.drop_length, List.drop_eq_nil_of_le ge]
      have total : min (min (f.curPos + n) F.length + ns.sum) F.length =
          min (f.curPos + (n + ns.sum)) F.length := by
        omega
      refine ⟨log₂, ?_⟩
      dsimp only at rest
      rw [next, total] at rest
      rw [TarFSFile.readAll, Calls.runOn_bind_ok first, Calls.runOn_bind_ok rest, pieces,
        List.map_cons, List.sum_cons]
      rfl

/-- Reading a fresh file in pieces delivers it from the start, each byte once, until it has all
been read. -/
theorem read_in_pieces (holds : Holds dev f F) (reads : ∀ n c, dev.succeeds n c = true)
    (fresh : f.curPos = 0) (sizes : List Nat) (small : ∀ n ∈ sizes, n < 2 ^ 31)
    (log : List ReadCall) :
    ∃ rs f' log', (TarFSFile.readAll dev sizes).runOn f log = (.ok (rs, f'), log') ∧
      rs.length = sizes.length ∧ (∀ r ∈ rs, r.1 = r.2.length) ∧
      (rs.map Prod.snd).flatten = (F.take (min sizes.sum F.length)).map some ∧
      ∀ past n rest, sizes = past ++ n :: rest → F.length ≤ past.sum →
        rs[past.length]? = some (0, []) := by
  obtain ⟨log', run⟩ := readAll_run holds reads (by omega) small log
  rw [fresh, List.drop_zero] at run
  refine ⟨_, _, log', run, ?_, ?_, ?_, ?_⟩
  · rw [List.length_map, pieces_length]
  · intro r mem
    obtain ⟨p, -, rfl⟩ := List.mem_map.mp mem
    simp
  · have bytes : Prod.snd ∘ (fun p : List UInt8 => ((p.length : Int), p.map some)) =
        List.map some := rfl
    rw [List.map_map, bytes, ← List.map_flatten, pieces_flatten, ← List.take_eq_take_min]
  · rintro past n rest rfl done
    rw [List.getElem?_map, pieces_behind done]
    rfl

/-- Two bytes, then up to seven, then up to three. -/
theorem helloFile_pieces :
    ∃ rs f' log', (TarFSFile.readAll helloDevice.device [2, 7, 3]).runOn helloFile [] =
        (.ok (rs, f'), log') ∧
      rs.length = 3 ∧ (∀ r ∈ rs, r.1 = r.2.length) ∧
      (rs.map Prod.snd).flatten = (hello.data.take (min 12 hello.data.length)).map some ∧
      ∀ past n rest, [2, 7, 3] = past ++ n :: rest → hello.data.length ≤ past.sum →
        rs[past.length]? = some (0, []) :=
  read_in_pieces helloFile_holds (device_succeeds helloDevice_reads) rfl [2, 7, 3] (by decide) []

end Read

/-! ### The position -/

/-- What a program does with an open file; reads are below `2 ^ 31` bytes. -/
inductive FileOp where
  | read (size : Nat) (small : size < 2 ^ 31)
  | seek (offset : UInt64) (type : TarFSFile.SeekType)

def FileOp.run (dev : Device) : FileOp → DeviceExec TarFSFile Unit
  | .read size _ => do
      let _ ← TarFSFile.read dev size
  | .seek offset type => TarFSFile.seek offset.toNat type

/-- After the step the position is in the file, and an absolute seek went to its offset or to the
last byte. -/
structure InFile (size : Nat) (op : FileOp) (f : TarFSFile) : Prop where
  inside : f.curPos ≤ size
  target : ∀ offset, op = .seek offset .seekAbsolute →
    f.curPos = if offset.toNat < size then offset.toNat else size - 1

/-- Seeks are made in files that are not empty, and an absolute one behind the end has low 32 bits
that are not in front of the last byte. -/
def FileOp.Careful (size : Nat) : FileOp → Prop
  | .read _ _ => True
  | .seek offset .seekAbsolute =>
      0 < size ∧ (offset.toNat < size ∨ size ≤ offset.toNat % 2 ^ 32 + 1)
  | .seek _ .seekRelative => 0 < size

section Position
variable {dev : Device} {f f' : TarFSFile} {size : Nat} {log log' : List ReadCall}

theorem read_inside {n : Nat} {r : Int × Memory} (sized : f.size = .ok size)
    (inside : f.curPos ≤ size) (small : n < 2 ^ 31)
    (run : (TarFSFile.read dev n).runOn f log = (.ok (r, f'), log')) :
    f'.size = .ok size ∧ f'.curPos ≤ size := by
  have bound := size_lt sized
  rw [TarFSFile.read, Calls.runOn_bind_ok (Calls.runOn_get f log), Calls.runOn_bind] at run
  rcases ran : (f.pread dev n f.curPos : DeviceExec TarFSFile _).runOn f log with
    ⟨_ | ⟨⟨rc, bytes⟩, f₁⟩, log₁⟩
  · rw [ran] at run
    cases run
  · rw [ran] at run
    obtain ⟨rfl, returned⟩ := pread_returned sized ran
    have moved : f' = { f₁ with curPos := toUInt32 (f₁.curPos + rc) } :=
      (Prod.mk.inj (Except.ok.inj (Prod.mk.inj run).1)).2.symm
    refine ⟨by rw [moved]; exact sized, ?_⟩
    rw [moved]
    dsimp only
    rcases returned with ⟨-, count, -⟩ | ⟨more, count, -⟩
    · rw [count, Int.add_zero, toUInt32_natCast (by omega)]
      exact inside
    · rw [TarFSFile.clamp_eq (by omega) (by omega)] at count
      rw [count, ← Int.natCast_add, toUInt32_natCast (by omega)]
      omega

/-- The position that a seek aims at, cut to 32 bits. -/
def seekTarget (f : TarFSFile) (offset : Nat) : TarFSFile.SeekType → Nat
  | .seekAbsolute => toUInt32 offset
  | .seekRelative => toUInt32 (f.curPos + offset)

/-- Where it leaves the position. -/
def landing (size target : Nat) : Nat :=
  if target < size then target else toUInt32 ((size : Int) - 1)

theorem landing_le_iff {target : Nat} (bound : size < 2 ^ 32) :
    landing size target ≤ size ↔ 0 < size := by
  unfold landing toUInt32
  split_ifs <;> omega

theorem landing_eq {target : Nat} (positive : 0 < size) (bound : size < 2 ^ 32) :
    landing size target = min target (size - 1) := by
  unfold landing toUInt32
  split_ifs <;> omega

theorem seek_run (sized : f.size = .ok size) (offset : Nat) (type : TarFSFile.SeekType)
    (log : List ReadCall) :
    (TarFSFile.seek offset type).runOn f log =
      (.ok ((), { f with curPos := landing size (seekTarget f offset type) }), log) := by
  have aimed : (modify fun f => match type with
      | .seekAbsolute => { f with curPos := toUInt32 offset }
      | .seekRelative => { f with curPos := toUInt32 (f.curPos + offset) } :
        DeviceExec TarFSFile PUnit).runOn f log =
      (.ok ((), { f with curPos := seekTarget f offset type }), log) := by
    cases type <;> rfl
  have sized' : (lift (TarFSFile.size { f with curPos := seekTarget f offset type }) :
      Exec TarFSFile Nat).run { f with curPos := seekTarget f offset type } =
      .ok (size, { f with curPos := seekTarget f offset type }) := by
    rw [show TarFSFile.size { f with curPos := seekTarget f offset type } = .ok size from sized]
    rfl
  rw [TarFSFile.seek, Calls.runOn_bind_ok aimed, Calls.runOn_bind_ok (Calls.runOn_get _ log),
    Calls.runOn_ofExec_bind_ok sized']
  unfold landing
  dsimp only
  split_ifs with behind inside
  · omega
  · rfl
  · rfl
  · omega

theorem seek_inFile_iff (bound : size < 2 ^ 32) (offset : UInt64) (type : TarFSFile.SeekType) :
    InFile size (.seek offset type)
        { f with curPos := landing size (seekTarget f offset.toNat type) } ↔
      (FileOp.seek offset type).Careful size := by
  cases type with
  | seekAbsolute =>
      have low : seekTarget f offset.toNat .seekAbsolute = offset.toNat % 2 ^ 32 := by
        unfold seekTarget toUInt32
        dsimp only
        omega
      constructor
      · rintro ⟨inside, target⟩
        have positive := (landing_le_iff bound).mp inside
        have landed := target offset rfl
        dsimp only at landed
        rw [landing_eq positive bound, low] at landed
        refine ⟨positive, ?_⟩
        split_ifs at landed <;> omega
      · rintro ⟨positive, fits⟩
        refine ⟨(landing_le_iff bound).mpr positive, ?_⟩
        intro offset' eq
        cases eq
        dsimp only
        rw [landing_eq positive bound, low]
        split_ifs <;> omega
  | seekRelative =>
      constructor
      · intro within
        exact (landing_le_iff bound).mp within.inside
      · intro positive
        exact ⟨(landing_le_iff bound).mpr positive, nofun⟩

theorem fileOp_step (sized : f.size = .ok size) (inside : f.curPos ≤ size) {op : FileOp}
    (run : (op.run dev).runOn f log = (.ok ((), f'), log')) :
    f'.size = .ok size ∧ (InFile size op f' ↔ op.Careful size) := by
  cases op with
  | read n small =>
      unfold FileOp.run at run
      rw [Calls.runOn_bind] at run
      rcases ran : (TarFSFile.read dev n).runOn f log with ⟨_ | ⟨r, f₁⟩, log₁⟩
      · rw [ran] at run
        cases run
      · rw [ran] at run
        have same : f₁ = f' := (Prod.mk.inj (Except.ok.inj (Prod.mk.inj run).1)).2
        subst same
        obtain ⟨sized', inside'⟩ := read_inside sized inside small ran
        exact ⟨sized', iff_of_true ⟨inside', nofun⟩ trivial⟩
  | seek offset type =>
      unfold FileOp.run at run
      rw [seek_run sized] at run
      obtain rfl : { f with curPos := landing size (seekTarget f offset.toNat type) } = f' :=
        (Prod.mk.inj (Except.ok.inj (Prod.mk.inj run).1)).2
      exact ⟨sized, seek_inFile_iff (size_lt sized) offset type⟩

/-- The position stays in the file, and absolute seeks go where they should, exactly along the runs
whose seeks are careful. -/
theorem position_inside_iff (sized : f.size = .ok size) (inside : f.curPos ≤ size)
    (ops : List FileOp) (log : List ReadCall) :
    Calls.Along (FileOp.run dev) (InFile size) ops f log ↔
      Calls.Along (FileOp.run dev) (fun op _ => op.Careful size) ops f log := by
  have step : ∀ f op log f' log', (f.size = .ok size ∧ f.curPos ≤ size) →
      (FileOp.run dev op).runOn f log = (.ok ((), f'), log') →
      (InFile size op f' ↔ op.Careful size) ∧
        (op.Careful size → f'.size = .ok size ∧ f'.curPos ≤ size) := by
    rintro f op log f' log' ⟨sized', inside'⟩ run
    obtain ⟨kept, good⟩ := fileOp_step sized' inside' run
    exact ⟨good, fun careful => ⟨kept, (good.mpr careful).inside⟩⟩
  exact Calls.along_iff step ops ⟨sized, inside⟩

/-- A seek to the fourth byte, a read, and one back by three. -/
theorem helloFile_inside :
    Calls.Along (FileOp.run helloDevice.device) (InFile 5)
      [.seek 3 .seekAbsolute, .read 2 (by decide), .seek (2 ^ 64 - 3) .seekRelative]
      helloFile [] := by
  refine (position_inside_iff helloFile_holds.sized (by decide) _ []).mpr ?_
  apply Calls.along_of_forall
  intro op mem
  simp only [List.mem_cons, List.not_mem_nil, or_false] at mem
  rcases mem with rfl | rfl | rfl
  · exact ⟨by decide, .inl (by decide)⟩
  · trivial
  · exact Nat.succ_pos 4

/-- A file without any bytes. -/
def emptyFile : TarFSFile := ⟨some zeroBlock, 1, 0⟩

/-- An absolute seek far behind the end of the five bytes goes to the first, and any seek in the
empty file behind its end. -/
theorem seeks_astray :
    (helloFile.size = .ok 5 ∧
      (TarFSFile.seek (2 ^ 32) .seekAbsolute).runOn helloFile [] = (.ok ((), helloFile), []) ∧
      ¬ Calls.Along (FileOp.run helloDevice.device) (InFile 5) [.seek (2 ^ 32) .seekAbsolute]
        helloFile []) ∧
    emptyFile.size = .ok 0 ∧
      (TarFSFile.seek 0 .seekAbsolute).runOn emptyFile [] =
        (.ok ((), { emptyFile with curPos := 2 ^ 32 - 1 }), []) ∧
      ¬ Calls.Along (FileOp.run helloDevice.device) (InFile 0) [.seek 0 .seekAbsolute]
        emptyFile [] := by
  have sized : helloFile.size = .ok 5 := helloFile_holds.sized
  have empty : emptyFile.size = .ok 0 := rfl
  have first : (TarFSFile.seek (2 ^ 32) .seekAbsolute).runOn helloFile [] =
      (.ok ((), helloFile), []) := seek_run sized (2 ^ 32) .seekAbsolute []
  have second : (TarFSFile.seek 0 .seekAbsolute).runOn emptyFile [] =
      (.ok ((), { emptyFile with curPos := 2 ^ 32 - 1 }), []) := seek_run empty 0 .seekAbsolute []
  refine ⟨⟨sized, first, ?_⟩, empty, second, ?_⟩
  · intro along
    have here : InFile 5 (.seek (2 ^ 32) .seekAbsolute) helloFile := by
      have ran : (FileOp.run helloDevice.device (.seek (2 ^ 32) .seekAbsolute)).runOn helloFile [] =
        (.ok ((), helloFile), []) := first
      rw [Calls.Along, ran] at along
      exact along.1
    exact absurd (here.target (2 ^ 32) rfl) (by decide)
  · intro along
    have here : InFile 0 (.seek 0 .seekAbsolute) { emptyFile with curPos := 2 ^ 32 - 1 } := by
      have ran : (FileOp.run helloDevice.device (.seek 0 .seekAbsolute)).runOn emptyFile [] =
        (.ok ((), { emptyFile with curPos := 2 ^ 32 - 1 }), []) := second
      rw [Calls.Along, ran] at along
      exact along.1
    exact absurd here.inside (by decide)

end Position

end Infos.Fs
