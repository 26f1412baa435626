import Infos.Fs.TarfsDevice
import Mathlib.Data.List.GetD
import Mathlib.Data.List.Range

/-!
# What `pread` reads

A read that fits the file and the address space asks the device once, for the
blocks up to that of the byte behind its last, and stores a slice of them.
-/
namespace Infos.Fs
open Infos.Lib Infos.Util

/-! ### Slices of blocks -/

namespace Device
variable (dev : Device) {a start off n c : Nat}

/-- The byte `k` of what is stored from block `start` on. -/
def byteAt (start k : Nat) : UInt8 := (dev.block (start + k / 512)).1.getD (k % 512) 0

def slice (start off n : Nat) : List UInt8 :=
  (List.range n).map fun j => dev.byteAt start (off + j)

@[simp] theorem slice_length : (dev.slice start off n).length = n := by
  rw [slice, List.length_map, List.length_range]

theorem slice_zero : dev.slice start off 0 = [] := rfl

theorem slice_add (m : Nat) :
    dev.slice start off (n + m) = dev.slice start off n ++ dev.slice start (off + n) m := by
  simp only [slice, List.range_add, List.map_append, List.map_map]
  congr 1
  apply List.map_congr_left
  intro j _
  simp only [Function.comp_apply, Nat.add_assoc]

theorem drop_take_slice {i m : Nat} (h : i + m ≤ n) :
    ((dev.slice start off n).drop i).take m = dev.slice start (off + i) m := by
  apply List.ext_getElem
  · simp only [List.length_take, List.length_drop, slice_length]
    omega
  · intro j _ _
    simp only [slice, List.getElem_take, List.getElem_drop, List.getElem_map, List.getElem_range,
      Nat.add_assoc]

theorem byteAt_block (off : Nat) :
    dev.byteAt (start + off / 512) (off % 512 + n) = dev.byteAt start (off + n) := by
  have block : start + off / 512 + (off % 512 + n) / 512 = start + (off + n) / 512 := by omega
  have place : (off % 512 + n) % 512 = (off + n) % 512 := by omega
  rw [byteAt, byteAt, block, place]

theorem slice_block (off : Nat) :
    dev.slice (start + off / 512) (off % 512) n = dev.slice start off n :=
  List.map_congr_left fun _ _ => dev.byteAt_block off

theorem block_eq_slice (a : Nat) : (dev.block a).1 = dev.slice a 0 512 := by
  apply List.ext_getElem
  · rw [slice_length, (dev.block a).2]
  · intro j hj _
    have inside : j < 512 := (dev.block a).2 ▸ hj
    simp only [slice, byteAt, List.getElem_map, List.getElem_range, Nat.zero_add]
    rw [Nat.div_eq_of_lt inside, Nat.mod_eq_of_lt inside, Nat.add_zero,
      List.getD_eq_getElem _ _ hj]

theorem blocks_eq_slice (a c : Nat) : dev.blocks a c = dev.slice a 0 (512 * c) := by
  induction c with
  | zero => rfl
  | succ c ih =>
      have last : dev.slice a (512 * c) 512 = (dev.block (a + c)).1 := by
        have whole : 512 * c / 512 = c := Nat.mul_div_cancel_left c (by decide)
        have start : 512 * c % 512 = 0 := Nat.mul_mod_right 512 c
        rw [block_eq_slice, ← slice_block, whole, start]
      rw [Nat.mul_succ, slice_add, ← ih, Nat.zero_add, last, blocks, List.range_succ,
        List.flatMap_append, List.flatMap_singleton]
      rfl

end Device

/-! ### The arithmetic of `pread` -/

namespace TarFSFile
variable {fileSize size off : Nat}

theorem clamp_eq (inside : off < fileSize) (fits : off + size < 2 ^ 64) :
    clamp fileSize size off = min size (fileSize - off) := by
  rw [clamp, Nat.mod_eq_of_lt fits]
  split_ifs with beyond
  · have rest : ((size : Int) - (off + size - fileSize)) = ((fileSize - off : Nat) : Int) := by
      omega
    rw [rest, toUInt64_natCast (by omega)]
    omega
  · omega

/-- Where `off + size` wraps, the size is taken as it is. -/
theorem clamp_wrap (inside : off < fileSize) (wrap : 2 ^ 64 ≤ off + size) (bound : size < 2 ^ 64)
    (small : fileSize < 2 ^ 32) : clamp fileSize size off = size := by
  unfold clamp
  apply if_neg
  omega

theorem blocksToRead_eq (size off : Nat) (small : off % 512 + size < 2 ^ 39) :
    blocksToRead size off = ((off % 512 + size) / 512 + 1 : Nat) := by
  have span : (size + 1 + off % 512) % 2 ^ 64 = size + 1 + off % 512 :=
    Nat.mod_eq_of_lt (by omega)
  have count : (if (size + 1 + off % 512) % 512 ≠ 0 then (size + 1 + off % 512) / 512 + 1
      else (size + 1 + off % 512) / 512) = (off % 512 + size) / 512 + 1 := by
    split_ifs <;> omega
  rw [blocksToRead]
  simp only [span, count]
  apply toInt32_natCast
  omega

end TarFSFile

/-! ### Sizes -/

theorem octal2ui_lt (data : List UInt8) : octal2ui data < 2 ^ 32 := by
  have bound : ∀ (l : List Nat) (acc : Nat × Int), acc.1 < 2 ^ 32 →
      (l.foldl (octalStep data) acc).1 < 2 ^ 32 := by
    intro l
    induction l with
    | nil => exact fun _ h => h
    | cons i l ih =>
        intro acc _
        apply ih
        unfold octalStep toUInt32
        dsimp only
        omega
  exact bound _ _ (by decide)

theorem size_lt {f : TarFSFile} {fileSize : Nat} (sized : f.size = .ok fileSize) :
    fileSize < 2 ^ 32 := by
  unfold TarFSFile.size headerSize at sized
  cases hdr : f.hdr with
  | none =>
      rw [hdr] at sized
      cases sized
  | some head =>
      rw [hdr] at sized
      cases data : cString (head.1.drop 124) with
      | error e =>
          simp only [data] at sized
          cases sized
      | ok data' =>
          simp only [data] at sized
          cases sized
          exact octal2ui_lt _

/-! ### Running it -/

section Run
variable {σ : Type} {dev : Device} {s : σ} {log : List ReadCall} {f : TarFSFile}
  {fileSize size off : Nat}

/-- The call that a read of `n` bytes makes. -/
def TarFSFile.dataCall (f : TarFSFile) (off n : Nat) : ReadCall :=
  ⟨f.fileStartBlock + off / 512, (off % 512 + n) / 512 + 1⟩

theorem pread_outside (sized : f.size = .ok fileSize)
    (outside : fileSize ≤ off ∨ TarFSFile.clamp fileSize size off = 0) :
    (f.pread dev size off : DeviceExec σ _).runOn s log = (.ok ((0, []), s), log) := by
  rw [TarFSFile.pread, sized, Calls.runOn_ofExec_bind_ok (lift_ok _ s)]
  simp only [if_pos outside]
  rfl

theorem readInto_returned {offset count : Nat} {buffer buffer' : Memory} {s' : σ}
    {log' : List ReadCall}
    (run : (dev.readInto offset count buffer : DeviceExec σ Memory).runOn s log =
      (.ok (buffer', s'), log')) : buffer'.length = buffer.length ∧ s' = s := by
  unfold Device.readInto at run
  rw [Calls.runOn_bind_ok (Device.readBlocks_run _ _)] at run
  split_ifs at run with ok short
  · cases run
  · cases run
    refine ⟨?_, rfl⟩
    rw [List.length_append, List.length_map, Device.blocks_eq_slice, Device.slice_length,
      List.length_drop]
    omega
  · cases run
    exact ⟨rfl, rfl⟩

theorem pread_returned {count : Int} {bytes : Memory} {s' : σ} {log' : List ReadCall}
    (sized : f.size = .ok fileSize)
    (run : (f.pread dev size off : DeviceExec σ _).runOn s log = (.ok ((count, bytes), s'), log')) :
    s' = s ∧
      ((fileSize ≤ off ∨ TarFSFile.clamp fileSize size off = 0) ∧ count = 0 ∧ bytes = [] ∧
        log' = log ∨
      ¬ (fileSize ≤ off ∨ TarFSFile.clamp fileSize size off = 0) ∧
        count = TarFSFile.clamp fileSize size off ∧
        bytes.length = TarFSFile.clamp fileSize size off ∧
        TarFSFile.clamp fileSize size off < 2 ^ 31) := by
  unfold TarFSFile.pread at run
  rw [sized, Calls.runOn_ofExec_bind_ok (lift_ok _ s)] at run
  obtain ⟨n, hn⟩ : ∃ n, n = TarFSFile.clamp fileSize size off := ⟨_, rfl⟩
  simp only [← hn] at run ⊢
  split_ifs at run with nothing
  · cases run
    exact ⟨rfl, .inl ⟨nothing, rfl, rfl, rfl⟩⟩
  · rw [Calls.runOn_bind] at run
    rcases read : (dev.readInto (f.fileStartBlock + off / 512)
      (toUInt64 (TarFSFile.blocksToRead n off))
      (TarFSFile.newBytes (toInt32 (512 * TarFSFile.blocksToRead n off))) :
        DeviceExec σ Memory).runOn s log with ⟨_ | ⟨buffer, s₁⟩, log₁⟩
    · rw [read] at run
      cases run
    · rw [read] at run
      obtain ⟨length, kept⟩ := readInto_returned read
      have short : buffer.length < 2 ^ 31 := by
        have bound := (toInt32_bounds (512 * TarFSFile.blocksToRead n off)).2
        rw [length, TarFSFile.newBytes, List.length_replicate]
        omega
      unfold TarFSFile.copyOut at run
      dsimp only at run
      split_ifs at run with room
      · rw [Calls.runOn_ofExec_bind_ok (lift_ok _ s₁), Calls.runOn_pure] at run
        simp only [Prod.mk.injEq, Except.ok.injEq] at run
        obtain ⟨⟨⟨value, stored⟩, same⟩, -⟩ := run
        refine ⟨same ▸ kept, .inr ⟨nothing, ?_, ?_, by omega⟩⟩
        · rw [← value]
          exact toInt32_natCast (by omega)
        · rw [← stored, List.length_take, List.length_drop]
          omega
      · cases run

theorem pread_run (sized : f.size = .ok fileSize) (inside : off < fileSize) (some : 0 < size)
    (fits : off + size < 2 ^ 64) {n : Nat} (len : n = min size (fileSize - off))
    (small : n < 2 ^ 30) (read : dev.succeeds log.length (f.dataCall off n) = true) :
    (f.pread dev size off : DeviceExec σ _).runOn s log =
      (.ok ((n, (dev.slice f.fileStartBlock off n).map Option.some), s),
        f.dataCall off n :: log) := by
  have clamped : TarFSFile.clamp fileSize size off = n := by
    rw [len]
    exact TarFSFile.clamp_eq inside fits
  have nonzero : ¬ (fileSize ≤ off ∨ n = 0) := by omega
  have count := TarFSFile.blocksToRead_eq n off (by omega)
  have length : toInt32 (512 * ((off % 512 + n) / 512 + 1 : Nat)) =
      (512 * ((off % 512 + n) / 512 + 1) : Nat) := by
    rw [← toInt32_natCast (a := 512 * ((off % 512 + n) / 512 + 1)) (by omega)]
    rfl
  have calls : toUInt64 ((off % 512 + n) / 512 + 1 : Nat) = (off % 512 + n) / 512 + 1 :=
    toUInt64_natCast (by omega)
  have stored : (dev.readInto (f.fileStartBlock + off / 512) ((off % 512 + n) / 512 + 1)
      (List.replicate (512 * ((off % 512 + n) / 512 + 1)) none) : DeviceExec σ Memory).runOn s log =
      (.ok ((dev.blocks (f.fileStartBlock + off / 512) ((off % 512 + n) / 512 + 1)).map
        Option.some, s), f.dataCall off n :: log) := by
    have answer : dev.succeeds log.length
        ⟨f.fileStartBlock + off / 512, (off % 512 + n) / 512 + 1⟩ = true := read
    have dropped : (List.replicate (512 * ((off % 512 + n) / 512 + 1))
        (none : Option UInt8)).drop (512 * ((off % 512 + n) / 512 + 1)) = [] :=
      List.drop_eq_nil_of_le (by rw [List.length_replicate])
    rw [Device.readInto, Calls.runOn_bind_ok (Device.readBlocks_run _ _), answer]
    simp only [if_true, List.length_replicate, Nat.lt_irrefl, if_false, dropped, List.append_nil]
    rfl
  have copied : TarFSFile.copyOut ((dev.blocks (f.fileStartBlock + off / 512)
      ((off % 512 + n) / 512 + 1)).map Option.some) (off % 512) n =
      .ok ((dev.slice f.fileStartBlock off n).map Option.some) := by
    have room : off % 512 + n ≤ 512 * ((off % 512 + n) / 512 + 1) := by omega
    rw [Device.blocks_eq_slice, TarFSFile.copyOut, List.length_map, Device.slice_length,
      if_pos room, ← List.map_drop, ← List.map_take, Device.drop_take_slice _ (by omega),
      Nat.zero_add, Device.slice_block]
  rw [TarFSFile.pread, sized, Calls.runOn_ofExec_bind_ok (lift_ok _ s)]
  simp only [clamped, if_neg nonzero, count, length, calls, TarFSFile.newBytes, Int.toNat_natCast]
  rw [Calls.runOn_bind_ok stored, copied, Calls.runOn_ofExec_bind_ok (lift_ok _ s),
    toInt32_natCast (by omega)]
  rfl

end Run
end Infos.Fs
