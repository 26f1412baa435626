import Infos.Fs.TarfsDecode
import Infos.Fs.TarfsPread

/-!
# The internal driver

The files of the built-in driver for TAR archives, whose source is obfuscated,
beside those of TarFS.
-/
namespace Infos.Fs
open Infos.Lib Infos.Util

/-- `xxc` is the header, `xXc` the first data block, `Xxc` the position, `XXc` the size. -/
structure ZZz where
  xxc : Block
  xXc : Nat
  Xxc : Nat
  XXc : Nat

/-- The loop of `zmfj`: the pair is `zx` and `zw`. -/
def zmfjStep (pza : List UInt8) (acc : Nat × Int) (zz : Nat) : Nat × Int :=
  (toUInt32 (acc.1 + acc.2 * ((pza.getD (pza.length - zz) 0).toInt8.toInt - 48)),
    toInt32 (acc.2 * 8))

def zmfj (pza : List UInt8) : Nat :=
  ((List.range' 1 (pza.length - 1)).foldl (zmfjStep pza) (0, 1)).1

theorem zmfj_eq (pza : List UInt8) : zmfj pza = octal2ui pza := rfl

/-- `memcpy` of `bytes` to the place `kkk` of a buffer that is `out` so far. -/
def storeAt (out : Memory) (kkk : Nat) (bytes : List UInt8) : Memory :=
  out.take kkk ++ bytes.map some ++ out.drop (kkk + bytes.length)

namespace ZZz
variable {σ : Type}

def new (dev : Device) (ddD : Nat) : DeviceExec σ ZZz := do
  match ← dev.readHeader ddD none with
  | none => throw .uninitialised
  | some xxc => do
      let zaae ← Calls.ofExec (lift (cString (xxc.1.drop 124)))
      let XXc := zmfj zaae
      pure ⟨xxc, (ddD + 1) % 2 ^ 32, if XXc = 0 then 2 ^ 32 - 1 else 0, XXc⟩

/-- The loop of `pread`. Every round moves `kkk`, unless it wraps. -/
def copyLoop (f : ZZz) (dev : Device) (KKK : Nat) :
    Nat → Nat → Nat → Memory → DeviceExec σ (Int × Memory)
  | 0, _, _, _ => throw .outOfFuel
  | fuel + 1, kkk, KvK, KvKK =>
      if kkk < KKK then do
        let kNn := KvK / 512 % 2 ^ 32
        let kNN := KvK % 512
        let ok ← dev.readBlocks ((f.xXc + kNn) % 2 ^ 32) 1
        if ok then
          let KKq := min (512 - kNN) (KKK - kkk)
          let bytes := ((dev.block ((f.xXc + kNn) % 2 ^ 32)).1.drop kNN).take KKq
          f.copyLoop dev KKK fuel ((kkk + KKq) % 2 ^ 32) ((KvK + KKq) % 2 ^ 64)
            (storeAt KvKK kkk bytes)
        else pure (toInt32 kkk, KvKK)
      else pure (toInt32 kkk, KvKK)

/-- The count that is returned and the bytes that are stored. -/
def pread (f : ZZz) (dev : Device) (KKK KvK : Nat) : DeviceExec σ (Int × Memory) :=
  if f.XXc ≤ KvK then pure (0, []) else f.copyLoop dev KKK (KKK + 1) 0 KvK []

end ZZz

/-! ### What the loop copies -/

section Loop
variable {σ : Type} {dev : Device} {s : σ} {f : ZZz} {KKK kkk KvK : Nat}

theorem storeAt_end (out : Memory) (bytes : List UInt8) :
    storeAt out out.length bytes = out ++ bytes.map some := by
  rw [storeAt, List.take_length, List.drop_eq_nil_of_le (Nat.le_add_right _ _), List.append_nil]

theorem ZZz.copyLoop_run (reads : ∀ n c, dev.succeeds n c = true) (small : KKK < 2 ^ 31)
    {fuel : Nat} (enough : KKK - kkk < fuel) (le : kkk ≤ KKK)
    (near : KvK + (KKK - kkk) < 2 ^ 40) (start : f.xXc + (KvK + (KKK - kkk)) / 512 < 2 ^ 32)
    {out : Memory} (filled : out.length = kkk) (log : List ReadCall) :
    ∃ log', (f.copyLoop dev KKK fuel kkk KvK out : DeviceExec σ _).runOn s log =
      (.ok ((KKK, out ++ (dev.slice f.xXc KvK (KKK - kkk)).map some), s), log') := by
  induction fuel generalizing kkk KvK out log with
  | zero => exact absurd enough (Nat.not_lt_zero _)
  | succ fuel ih =>
      unfold ZZz.copyLoop
      by_cases more : kkk < KKK
      · have block : (f.xXc + KvK / 512 % 2 ^ 32) % 2 ^ 32 = f.xXc + KvK / 512 := by
          rw [Nat.mod_eq_of_lt (a := KvK / 512) (by omega), Nat.mod_eq_of_lt (by omega)]
        have place : KvK % 512 < 512 := Nat.mod_lt _ (by decide)
        obtain ⟨m, hm⟩ : ∃ m, m = min (512 - KvK % 512) (KKK - kkk) := ⟨_, rfl⟩
        have bytes : ((dev.block (f.xXc + KvK / 512)).1.drop (KvK % 512)).take m =
            dev.slice f.xXc KvK m := by
          rw [Device.block_eq_slice, Device.drop_take_slice _ (by omega), Nat.zero_add,
            Device.slice_block]
        have stored : (out ++ (dev.slice f.xXc KvK m).map some).length = kkk + m := by
          simp [filled]
        have further : KvK + m + (KKK - (kkk + m)) < 2 ^ 40 := by omega
        obtain ⟨log', run⟩ := ih (by omega) (by omega) further (by omega) stored
          (⟨f.xXc + KvK / 512, 1⟩ :: log)
        refine ⟨log', ?_⟩
        rw [if_pos more]
        simp only [block, ← hm, bytes]
        have count : (kkk + m) % 2 ^ 32 = kkk + m := Nat.mod_eq_of_lt (by omega)
        have offset : (KvK + m) % 2 ^ 64 = KvK + m := Nat.mod_eq_of_lt (by omega)
        have total : m + (KKK - (kkk + m)) = KKK - kkk := by omega
        rw [Calls.runOn_bind_ok (Device.readBlocks_run _ _), reads, if_pos rfl, count, offset,
          ← total, Device.slice_add, List.map_append, ← List.append_assoc, ← run, ← filled,
          storeAt_end]
      · have done : kkk = KKK := by omega
        rw [if_neg more, done, Nat.sub_self, Device.slice_zero, List.map_nil, List.append_nil,
          toInt32_natCast small]
        exact ⟨log, rfl⟩

theorem ZZz.pread_run (reads : ∀ n c, dev.succeeds n c = true) (small : KKK < 2 ^ 31)
    (inside : KvK < f.XXc) (size : f.XXc < 2 ^ 30) (start : f.xXc ≤ 2 ^ 31) (log : List ReadCall) :
    ∃ log', (f.pread dev KKK KvK : DeviceExec σ _).runOn s log =
      (.ok ((KKK, (dev.slice f.xXc KvK KKK).map some), s), log') := by
  rw [ZZz.pread, if_neg (Nat.not_le_of_lt inside)]
  exact ZZz.copyLoop_run reads small (Nat.lt_succ_self (KKK - 0)) (Nat.zero_le _) (by omega)
    (by omega) rfl log

end Loop

/-! ### The two drivers -/

/-- Both drivers open the file and return the same count and the same bytes. -/
def Agree (dev : Device) (header size off : Nat) : Prop :=
  ∃ count bytes,
    (∃ log, (do let f ← dev.newFile header; f.pread dev size off : DeviceExec Unit _).runOn () [] =
      (.ok ((count, bytes), ()), log)) ∧
    ∃ log, (do let f ← ZZz.new dev header; f.pread dev size off : DeviceExec Unit _).runOn () [] =
      (.ok ((count, bytes), ()), log)

section Drivers
variable {dev : Device} {header fileSize size off : Nat}

theorem newFile_run {σ : Type} {s : σ} (reads : ∀ n c, dev.succeeds n c = true)
    (early : header < 2 ^ 31) (log : List ReadCall) :
    (dev.newFile header : DeviceExec σ _).runOn s log =
      (.ok (⟨some (dev.block header), header + 1, 0⟩, s), ⟨header, 1⟩ :: log) := by
  rw [Device.newFile, Calls.runOn_bind_ok (Device.readHeader_run _ _), reads,
    Nat.mod_eq_of_lt (by omega)]
  rfl

theorem ZZz.new_run {σ : Type} {s : σ} (reads : ∀ n c, dev.succeeds n c = true)
    (sized : headerSize (dev.block header) = .ok fileSize) (early : header < 2 ^ 31)
    (log : List ReadCall) :
    ∃ f, (ZZz.new dev header : DeviceExec σ _).runOn s log =
      (.ok (f, s), ⟨header, 1⟩ :: log) ∧ f.xXc = header + 1 ∧ f.XXc = fileSize := by
  unfold headerSize at sized
  cases data : cString ((dev.block header).1.drop 124) with
  | error e =>
      rw [data] at sized
      cases sized
  | ok zaae =>
      rw [data] at sized
      cases sized
      rw [ZZz.new, Calls.runOn_bind_ok (Device.readHeader_run _ _), reads]
      simp only [if_true]
      rw [data, Calls.runOn_ofExec_bind_ok (lift_ok _ s)]
      exact ⟨_, rfl, Nat.mod_eq_of_lt (by omega), zmfj_eq zaae⟩

theorem agree_iff (reads : ∀ n c, dev.succeeds n c = true)
    (sized : headerSize (dev.block header) = .ok fileSize) (fileSmall : fileSize < 2 ^ 30)
    (early : header < 2 ^ 31) (small : size < 2 ^ 31) :
    Agree dev header size off ↔ fileSize ≤ off ∨ off + size ≤ fileSize := by
  obtain ⟨f, opened, start, length⟩ := ZZz.new_run (s := ()) reads sized early []
  have sized' : TarFSFile.size ⟨some (dev.block header), header + 1, 0⟩ = .ok fileSize := sized
  have run {count : Int} {bytes : Memory} {log : List ReadCall} :
      (do let f ← dev.newFile header; f.pread dev size off : DeviceExec Unit _).runOn () [] =
          (.ok ((count, bytes), ()), log) ↔
        (TarFSFile.pread ⟨some (dev.block header), header + 1, 0⟩ dev size off :
          DeviceExec Unit _).runOn () [⟨header, 1⟩] = (.ok ((count, bytes), ()), log) := by
    rw [Calls.runOn_bind_ok (newFile_run reads early [])]
  have run' {count : Int} {bytes : Memory} {log : List ReadCall} :
      (do let f ← ZZz.new dev header; f.pread dev size off : DeviceExec Unit _).runOn () [] =
          (.ok ((count, bytes), ()), log) ↔
        (f.pread dev size off : DeviceExec Unit _).runOn () [⟨header, 1⟩] =
          (.ok ((count, bytes), ()), log) := by
    rw [Calls.runOn_bind_ok opened]
  simp only [Agree, run, run']
  by_cases inside : off < fileSize
  · obtain ⟨log', copied⟩ := ZZz.pread_run (σ := Unit) (s := ()) reads small (length ▸ inside)
      (length ▸ fileSmall) (by omega) [⟨header, 1⟩]
    rw [copied]
    cases Nat.eq_zero_or_pos size with
    | inl none =>
        subst none
        have nothing : TarFSFile.clamp fileSize 0 off = 0 := by
          rw [TarFSFile.clamp_eq inside (by omega), Nat.zero_min]
        rw [pread_outside sized' (.inr nothing)]
        exact iff_of_true ⟨0, [], ⟨_, rfl⟩, _, rfl⟩ (.inr (Nat.le_of_lt inside))
    | inr some =>
        rw [pread_run sized' inside some (by omega) rfl (by omega) (reads _ _)]
        constructor
        · rintro ⟨count, bytes, ⟨_, here⟩, _, there⟩
          cases here
          have same := (Prod.mk.inj (Prod.mk.inj (Except.ok.inj (Prod.mk.inj there).1)).1).1
          omega
        · rintro (beyond | within)
          · exact absurd inside (Nat.not_lt_of_le beyond)
          · have whole : min size (fileSize - off) = size := by omega
            rw [whole, start]
            exact ⟨_, _, ⟨_, rfl⟩, _, rfl⟩
  · have beyond : fileSize ≤ off := Nat.le_of_not_lt inside
    rw [pread_outside sized' (.inl beyond), ZZz.pread, length, if_pos beyond]
    exact iff_of_true ⟨0, [], ⟨_, rfl⟩, _, rfl⟩ (.inl beyond)

end Drivers

section Archives
variable {spare : Nat} {dev : BlockDevice} {s : TarState} {root n : NodeId} {p : List Name}
  {x : Placed} {size off : Nat}

theorem device_succeeds (reads : ∀ b, ∃ block, dev.readBlock b = some block) (n : Nat)
    (c : ReadCall) : dev.device.succeeds n c = true := by
  apply decide_eq_true
  intro i _
  obtain ⟨block, read⟩ := reads (c.offset + i)
  rw [read, Option.isSome_some]

theorem device_block {b : Nat} {block : Block} (read : dev.readBlock b = some block) :
    dev.device.block b = block := by
  change (dev.readBlock b).getD _ = block
  rw [read, Option.getD_some]

theorem Archive.header_early (A : Archive dev)
    (mounted : (buildTree spare dev).run .initial = .ok (root, s))
    (reached : s.resolve root p = some n) {b : Nat} (header : (s.nodes n).header = some b) :
    b < 2 ^ 31 := by
  have refines := built_refines A mounted
  rw [resolve_eq_locate] at reached
  rw [refines.blocks _ n reached] at header
  obtain ⟨y, mem, _, _, rfl⟩ := View.block_mem header
  exact (mem_early.mp mem).2

/-- The drivers agree on a read of a mounted file exactly where it starts behind the end of the
file or does not reach beyond it. -/
theorem preads_agree_iff (A : Archive dev) (reads : ∀ b, ∃ block, dev.readBlock b = some block)
    (mounted : (buildTree spare dev).run .initial = .ok (root, s))
    (reached : s.resolve root p = some n) (mem : x ∈ A.entries)
    (header : (s.nodes n).header = some x.header) (small : size < 2 ^ 31) :
    Agree dev.device x.header size off ↔
      x.entry.data.length ≤ off ∨ off + size ≤ x.entry.data.length := by
  obtain ⟨head, read, encodes⟩ := A.layout.read mem
  apply agree_iff (device_succeeds reads) _ x.entry.small (A.header_early mounted reached header)
    small
  rw [device_block read]
  exact encodes.headerSize

end Archives

/-! ### A file of five bytes -/

def hello : Entry where
  path := [[104]]
  kind := .file
  data := [104, 101, 108, 108, 111]
  nonempty := List.cons_ne_nil _ _
  components := by decide
  short := by decide
  small := by decide

def helloData : Block where
  val := hello.data ++ List.replicate 507 0
  property := by
    rw [List.length_append, List.length_replicate]
    rfl

def helloDevice : BlockDevice where
  readBlock i := some (if i = 0 then hello.headerBlock else if i = 1 then helloData else zeroBlock)
  blockCount := 4
  addressable := by decide

theorem helloDevice_zero (o : Nat) (free : o ≠ 0 ∧ o ≠ 1) (inside : o < 4) :
    ZeroAt helloDevice o := by
  refine ⟨inside, zeroBlock, ?_, fun c mem => List.eq_of_mem_replicate mem⟩
  change some (if o = 0 then hello.headerBlock else if o = 1 then helloData else zeroBlock) = _
  rw [if_neg free.1, if_neg free.2]

theorem getD_pad (data : List UInt8) (k j : Nat) :
    (data ++ List.replicate k 0).getD j 0 = data.getD j 0 := by
  rcases Nat.lt_or_ge j data.length with inside | behind
  · exact List.getD_append _ _ _ _ inside
  · rw [List.getD_append_right _ _ _ _ behind, List.getD_eq_default _ _ behind,
      List.getD_eq_getElem?_getD, List.getElem?_replicate]
    split_ifs <;> rfl

theorem hello_stored : Stores helloDevice 1 hello.data := by
  intro i bound
  obtain rfl : i = 0 := Nat.lt_one_iff.mp bound
  refine ⟨helloData, rfl, fun j _ => ?_⟩
  rw [Nat.mul_zero, Nat.zero_add]
  exact getD_pad hello.data 507 j

def helloArchive : Archive helloDevice where
  entries := [⟨0, hello⟩]
  layout := by
    refine .entry .none rfl hello.headerBlock_encodes hello_stored (by decide) ?_
    exact .zeroBlocks (helloDevice_zero 2 (by decide) (by decide))
      (helloDevice_zero 3 (by decide) (by decide))
  kinds x hx y hy _ := by
    rw [List.mem_singleton.mp hx, List.mem_singleton.mp hy]
  apart := by
    intro p hp q hq l c d hc hd _
    obtain rfl : p = [[104]] := List.mem_singleton.mp hp
    obtain rfl : q = [[104]] := List.mem_singleton.mp hq
    have first : c = [104] := List.mem_singleton.mp (hc.subset (by simp))
    have second : d = [104] := List.mem_singleton.mp (hd.subset (by simp))
    exact first.trans second.symm

theorem helloDevice_reads (b : Nat) : ∃ block, helloDevice.readBlock b = some block := ⟨_, rfl⟩

theorem hello_mounted : ∃ s n, (buildTree 12 helloDevice).run .initial = .ok (0, s) ∧
    s.resolve 0 [[104]] = some n ∧ (s.nodes n).header = some 0 := by
  obtain ⟨s, run, refines⟩ := buildTree_spec (Nat.le_refl 12) helloArchive.layout
  have mem : (⟨0, hello⟩ : Placed) ∈ early helloArchive.entries := mem_early.mpr ⟨by
    exact List.mem_singleton.mpr rfl, by decide⟩
  obtain ⟨n, reached⟩ := refines.resolve_present mem (List.prefix_refl _)
  refine ⟨s, n, run, reached, ?_⟩
  have apart : Apart ([[104]] :: paths helloArchive.entries) :=
    helloArchive.apart.cons_self (List.mem_singleton.mpr rfl)
  have only : early helloArchive.entries = [] ++ ⟨0, hello⟩ :: [] := rfl
  exact refines.header_at apart only rfl rfl nofun reached

theorem preads_agree_iff_hello : Agree helloDevice.device 0 3 1 := by
  obtain ⟨s, n, mounted, reached, header⟩ := hello_mounted
  exact (preads_agree_iff helloArchive helloDevice_reads mounted reached
    (x := ⟨0, hello⟩) (List.mem_singleton.mpr rfl) header (by decide)).mpr (.inr (by decide))

/-- Ten bytes of a file of five. -/
theorem preads_disagree :
    ∃ (dev : BlockDevice) (A : Archive dev), (∀ b, ∃ block, dev.readBlock b = some block) ∧
      (∃ spare s n, (buildTree spare dev).run .initial = .ok (0, s) ∧ s.resolve 0 [[104]] = some n ∧
        (s.nodes n).header = some 0) ∧
      (⟨0, hello⟩ : Placed) ∈ A.entries ∧ ¬ Agree dev.device 0 10 0 := by
  refine ⟨helloDevice, helloArchive, helloDevice_reads, ⟨12, hello_mounted⟩,
    List.mem_singleton.mpr rfl, ?_⟩
  have sized : headerSize (helloDevice.device.block 0) = .ok 5 :=
    hello.headerBlock_encodes.headerSize
  rw [agree_iff (device_succeeds helloDevice_reads) sized (by decide) (by decide) (by decide)]
  decide

end Infos.Fs
