import Infos.Lib.Calls
import Mathlib.Data.List.Basic

/-!
# ATA transfers

The port accesses of a transfer, and what they leave in the registers of a drive: a register of
the 48-bit feature set holds its last two bytes.
-/
namespace Infos.Drivers.Ata
open Infos.Lib Function

inductive Io where
  | outb (port : UInt16) (data : UInt8)
  | inb (port : UInt16)
  | insw (port : UInt16) (buffer : UInt64) (count : Nat)
  deriving DecidableEq, Repr

/-- What the drive answers, by the number of accesses before. -/
abbrev Drive := Nat → UInt8

def regSeccount0 : Nat := 0x02
def regLba0 : Nat := 0x03
def regLba1 : Nat := 0x04
def regLba2 : Nat := 0x05
def regHddevsel : Nat := 0x06
def regCommand : Nat := 0x07
def regStatus : Nat := 0x07
def regSeccount1 : Nat := 0x08
def regLba3 : Nat := 0x09
def regLba4 : Nat := 0x0A
def regLba5 : Nat := 0x0B
def regControl : Nat := 0x0C

def srBsy : UInt8 := 0x80
def srDf : UInt8 := 0x20
def srDrq : UInt8 := 0x08
def srErr : UInt8 := 0x01

def cmdReadPioExt : UInt8 := 0x24
def cmdWritePioExt : UInt8 := 0x34

/-- The control register lies outside the command block of eight ports. -/
structure ChannelRegisters where
  base : UInt16
  ctrl : UInt16
  bmide : UInt16
  nIEN : UInt8
  apart : ∀ i < 8, base + i ≠ ctrl + 2

namespace ChannelRegisters

def port (ch : ChannelRegisters) (reg : Nat) : Option UInt16 :=
  if reg < 0x08 then some (ch.base + reg.toUInt16)
  else if reg < 0x0C then some (ch.base + reg.toUInt16 - 0x06)
  else if reg < 0x0E then some (ch.ctrl + reg.toUInt16 - 0x0A)
  else if reg < 0x16 then some (ch.bmide + reg.toUInt16 - 0x0E)
  else none

def outReg (ch : ChannelRegisters) (reg : Nat) (data : UInt8) : Calls Io Unit Unit := do
  match ch.port reg with
  | none => pure ()
  | some port =>
      let _ ← Calls.call (.outb port data)
      pure ()

def inReg (ch : ChannelRegisters) (drive : Drive) (reg : Nat) : Calls Io Unit UInt8 := do
  match ch.port reg with
  | none => pure 0
  | some port => return drive (← Calls.call (.inb port))

/-- An access between two writes of the control register where the register is one of the second
bank. The control register itself is not. -/
def banked {α : Type} (ch : ChannelRegisters) (reg : Nat) (access : Calls Io Unit α) :
    Calls Io Unit α := do
  if reg > 0x07 ∧ reg < 0x0C then do
    ch.outReg regControl (0x80 ||| ch.nIEN)
    let result ← access
    ch.outReg regControl ch.nIEN
    pure result
  else access

def ataRead (ch : ChannelRegisters) (drive : Drive) (reg : Nat) : Calls Io Unit UInt8 :=
  ch.banked reg (ch.inReg drive reg)

def ataWrite (ch : ChannelRegisters) (reg : Nat) (data : UInt8) : Calls Io Unit Unit :=
  ch.banked reg (ch.outReg reg data)

variable (ch : ChannelRegisters) (drive : Drive)

/-- `while (ata_read(ATA_REG_STATUS) & ATA_SR_BSY)` -/
def waitWhileBusy : Nat → Calls Io Unit Unit
  | 0 => throw .outOfFuel
  | fuel + 1 => do
      let status ← ch.ataRead drive regStatus
      if status &&& srBsy ≠ 0 then waitWhileBusy fuel else pure ()

def ataPoll (errorCheck : Bool) (fuel : Nat) : Calls Io Unit Nat := do
  ch.waitWhileBusy drive fuel
  if errorCheck then do
    let status ← ch.ataRead drive regStatus
    if status &&& srErr ≠ 0 then pure 2
    else if status &&& srDf ≠ 0 then pure 1
    else if status &&& srDrq = 0 then pure 3
    else pure 0
  else pure 0

/-- The eight registers of an address and a count. -/
def program (lba : UInt64) (nrBlocks : Nat) : Calls Io Unit Unit := do
  ch.ataWrite regSeccount1 0
  ch.ataWrite regLba3 ((lba >>> 24) &&& 0xff).toUInt8
  ch.ataWrite regLba4 ((lba >>> 32) &&& 0xff).toUInt8
  ch.ataWrite regLba5 ((lba >>> 40) &&& 0xff).toUInt8
  ch.ataWrite regSeccount0 nrBlocks.toUInt8
  ch.ataWrite regLba0 ((lba >>> 0) &&& 0xff).toUInt8
  ch.ataWrite regLba1 ((lba >>> 8) &&& 0xff).toUInt8
  ch.ataWrite regLba2 ((lba >>> 16) &&& 0xff).toUInt8

/-- `for (size_t cur_block = 0; cur_block < nr_blocks; cur_block++)` -/
def readSectors (fuel : Nat) : Nat → UInt64 → Calls Io Unit Bool
  | 0, _ => pure true
  | nrBlocks + 1, p => do
      let error ← ch.ataPoll drive true fuel
      if error ≠ 0 then pure false
      else do
        let _ ← Calls.call (.insw ch.base p (512 / 2))
        readSectors fuel nrBlocks (p + 512)

/-- `slave` is the member `_drive`. -/
def transfer (slave : UInt8) (fuel : Nat) (direction : Int) (lba buffer : UInt64)
    (nrBlocks : Nat) : Calls Io Unit Bool := do
  ch.waitWhileBusy drive fuel
  ch.ataWrite regHddevsel ((0xE0 : UInt8) ||| slave <<< 4)
  ch.program lba nrBlocks
  if direction ≠ 0 then do
    ch.ataWrite regCommand cmdWritePioExt
    pure true
  else do
    ch.ataWrite regCommand cmdReadPioExt
    ch.readSectors drive fuel nrBlocks buffer

end ChannelRegisters

/-! ### The registers of the drive -/

/-- The byte before the last one, and the last one. -/
structure Register where
  previous : UInt8
  recent : UInt8

/-- The registers after accesses, of which the latest is the first. -/
def registers (start : UInt16 → Register) : List Io → UInt16 → Register
  | [] => start
  | .outb port data :: earlier =>
      update (registers start earlier) port ⟨(registers start earlier port).recent, data⟩
  | _ :: earlier => registers start earlier

section Programmed
variable (ch : ChannelRegisters) (regs : UInt16 → Register)

/-- The low half of an address is in the last bytes. -/
def address : Nat :=
  (regs (ch.base + 3)).recent.toNat + (regs (ch.base + 4)).recent.toNat * 2 ^ 8 +
    (regs (ch.base + 5)).recent.toNat * 2 ^ 16 + (regs (ch.base + 3)).previous.toNat * 2 ^ 24 +
    (regs (ch.base + 4)).previous.toNat * 2 ^ 32 + (regs (ch.base + 5)).previous.toNat * 2 ^ 40

/-- 0 stands for 65536. -/
def sectorCount : Nat :=
  let count := (regs (ch.base + 2)).recent.toNat + (regs (ch.base + 2)).previous.toNat * 2 ^ 8
  if count = 0 then 2 ^ 16 else count

end Programmed

def sectorsRead (log : List Io) : Nat :=
  log.countP fun io => match io with
    | .insw _ _ _ => true
    | _ => false

/-- Wherever the read command is given, the registers hold the address and the number of sectors
that are read after it. -/
def Programs (ch : ChannelRegisters) (start : UInt16 → Register) (lba : UInt64) (n : Nat)
    (run : Except Fault (Bool × Unit) × List Io) : Prop :=
  ∀ later earlier, run.2 = later ++ .outb (ch.base + 7) cmdReadPioExt :: earlier →
    address ch (registers start earlier) = lba.toNat ∧
    sectorCount ch (registers start earlier) = n ∧
    (run.1 = .ok (true, ()) → sectorsRead later = n)

/-! ### The accesses of a transfer -/

namespace ChannelRegisters
variable {ch : ChannelRegisters} {drive : Drive} {log : List Io}

theorem port_control (ch : ChannelRegisters) : ch.port regControl = some (ch.ctrl + 2) := by
  have : ch.ctrl + 0x0C - 0x0A = ch.ctrl + 2 := by grind
  exact congrArg some this

/-- The second bank lies over the first one. -/
theorem port_second (ch : ChannelRegisters) {reg : Nat} (low : 0x08 ≤ reg) (high : reg < 0x0C) :
    ch.port reg = some (ch.base + (reg - 6).toUInt16) := by
  obtain ⟨k, rfl⟩ := Nat.exists_eq_add_of_le' (Nat.le_trans (by decide : 6 ≤ 0x08) low)
  have sum : (k + 6).toUInt16 = k.toUInt16 + 6 := UInt16.ofNat_add k 6
  rw [port, if_neg (Nat.not_lt.mpr low), if_pos high, Nat.add_sub_cancel, sum,
    ← UInt16.add_assoc, UInt16.add_sub_cancel]

theorem ataWrite_first {reg : Nat} (low : reg < 0x08) (data : UInt8) (log : List Io) :
    (ch.ataWrite reg data).runOn () log =
      (.ok ((), ()), .outb (ch.base + reg.toUInt16) data :: log) := by
  have outside : ¬ (reg > 0x07 ∧ reg < 0x0C) := by omega
  rw [ataWrite, banked, if_neg outside, outReg, port, if_pos low]
  rfl

/-- The accesses of a write to a register of the second bank, of which the latest is the first. -/
def bankedWrites (ch : ChannelRegisters) (port : UInt16) (data : UInt8) : List Io :=
  [.outb (ch.ctrl + 2) ch.nIEN, .outb port data, .outb (ch.ctrl + 2) (0x80 ||| ch.nIEN)]

theorem ataWrite_second {reg : Nat} (low : 0x08 ≤ reg) (high : reg < 0x0C) (data : UInt8)
    (log : List Io) :
    (ch.ataWrite reg data).runOn () log =
      (.ok ((), ()), ch.bankedWrites (ch.base + (reg - 6).toUInt16) data ++ log) := by
  rw [ataWrite, banked, if_pos ⟨low, high⟩, outReg, outReg, outReg, port_control,
    port_second ch low high]
  rfl

theorem ataRead_status (log : List Io) :
    (ch.ataRead drive regStatus).runOn () log =
      (.ok (drive log.length, ()), .inb (ch.base + 7) :: log) := rfl

/-- The wait ends with the first answer that is not busy. -/
theorem waitWhileBusy_runOn (ch : ChannelRegisters) (fuel : Nat)
    (ready : ∃ k < fuel, drive (log.length + k) &&& srBsy = 0) :
    ∃ polls, (ch.waitWhileBusy drive fuel).runOn () log = (.ok ((), ()), polls ++ log) ∧
      ∀ io ∈ polls, io = .inb (ch.base + 7) := by
  induction fuel generalizing log with
  | zero =>
      obtain ⟨k, none, _⟩ := ready
      exact absurd none (Nat.not_lt_zero k)
  | succ fuel ih =>
      rw [waitWhileBusy, Calls.runOn_bind_ok (ataRead_status log)]
      by_cases busy : drive log.length &&& srBsy ≠ 0
      · rw [if_pos busy]
        obtain ⟨k, less, idle⟩ := ready
        obtain ⟨j, rfl⟩ : ∃ j, k = j + 1 := by
          cases k with
          | zero => exact absurd idle busy
          | succ j => exact ⟨j, rfl⟩
        have later : ∃ k < fuel, drive ((.inb (ch.base + 7) :: log : List Io).length + k) &&&
            srBsy = 0 := by
          refine ⟨j, Nat.lt_of_succ_lt_succ less, ?_⟩
          rwa [List.length_cons, Nat.add_assoc, Nat.add_comm 1 j]
        obtain ⟨polls, run, all⟩ := ih later
        refine ⟨polls ++ [.inb (ch.base + 7)], ?_, ?_⟩
        · rw [run, List.append_assoc]
          rfl
        · intro io mem
          rcases List.mem_append.mp mem with mem | mem
          · exact all io mem
          · exact List.mem_singleton.mp mem
      · rw [if_neg busy]
        exact ⟨[.inb (ch.base + 7)], rfl, fun io mem => List.mem_singleton.mp mem⟩

/-- Neither a wait nor a poll reads a sector or writes a port. -/
abbrev Polls {α : Type} (ch : ChannelRegisters) (x : Calls Io Unit α) : Prop :=
  Calls.Within (fun io => io = .inb (ch.base + 7)) (fun _ => True) x fun _ _ => True

theorem polls_status : ch.Polls (ch.ataRead drive regStatus) := by
  intro s log _
  exact ⟨⟨[.inb (ch.base + 7)], rfl, fun io mem => List.mem_singleton.mp mem⟩,
    fun _ _ _ => trivial⟩

theorem polls_waitWhileBusy (fuel : Nat) : ch.Polls (ch.waitWhileBusy drive fuel) := by
  induction fuel with
  | zero => exact Calls.Within.throw _
  | succ fuel ih =>
      refine Calls.Within.bind polls_status fun status => Calls.Within.ite (fun _ => ih) fun _ => ?_
      exact Calls.Within.ret _ fun _ _ => trivial

theorem polls_ataPoll (ch : ChannelRegisters) (drive : Drive) (fuel : Nat) :
    ch.Polls (ch.ataPoll drive true fuel) := by
  refine Calls.Within.bind (polls_waitWhileBusy fuel) fun _ => ?_
  refine Calls.Within.bind polls_status fun status => ?_
  refine Calls.Within.ite ?_ fun _ => Calls.Within.ite ?_ fun _ => Calls.Within.ite ?_ ?_
  all_goals exact fun _ => Calls.Within.ret _ fun _ _ => trivial

/-- The loop only reads, and where it comes to its end it has read every sector. -/
theorem readSectors_runOn (ch : ChannelRegisters) (drive : Drive) (fuel n : Nat) (p : UInt64)
    (log : List Io) :
    ∃ reads, ((ch.readSectors drive fuel n p).runOn () log).2 = reads ++ log ∧
      (∀ port data, .outb port data ∉ reads) ∧
      (((ch.readSectors drive fuel n p).runOn () log).1 = .ok (true, ()) →
        sectorsRead reads = n) := by
  induction n generalizing p log with
  | zero => exact ⟨[], rfl, fun _ _ => List.not_mem_nil, fun _ => rfl⟩
  | succ n ih =>
      obtain ⟨⟨polls, grown, all⟩, -⟩ := polls_ataPoll ch drive fuel () log trivial
      have quiet : ∀ port data, .outb port data ∉ polls := fun port data mem => by
        cases all _ mem
      have none : sectorsRead polls = 0 :=
        List.countP_eq_zero.mpr fun io mem => by
        rw [all io mem]
        exact Bool.false_ne_true
      rw [readSectors, Calls.runOn_bind]
      rcases ran : (ch.ataPoll drive true fuel).runOn () log with ⟨_ | ⟨error, ⟨⟩⟩, log'⟩
      all_goals
        rw [ran] at grown
        dsimp only at grown ⊢
        subst grown
      · exact ⟨polls, rfl, quiet, nofun⟩
      · by_cases failed : error ≠ 0
        · rw [if_pos failed]
          exact ⟨polls, rfl, quiet, nofun⟩
        · rw [if_neg failed]
          obtain ⟨reads, grown, silent, count⟩ := ih (p + 512) (.insw ch.base p 256 :: polls ++ log)
          refine ⟨reads ++ .insw ch.base p 256 :: polls, ?_, fun port data mem => ?_,
            fun done => ?_⟩
          · rw [List.append_assoc]
            exact grown
          · rcases List.mem_append.mp mem with mem | mem
            · exact silent port data mem
            · rcases List.mem_cons.mp mem with same | mem
              · cases same
              · exact quiet port data mem
          · unfold sectorsRead at none count ⊢
            rw [List.countP_append, List.countP_cons, none, count done]
            rfl

/-- A byte of the address as the code takes it. -/
def lbaByte (lba : UInt64) (shift : UInt64) : UInt8 := ((lba >>> shift) &&& 0xff).toUInt8

/-- What programming leaves in the four registers. -/
structure Holding (ch : ChannelRegisters) (regs : UInt16 → Register) (lba : UInt64) (n : Nat) :
    Prop where
  seccount : regs (ch.base + 2) = ⟨0, n.toUInt8⟩
  lba0 : regs (ch.base + 3) = ⟨lbaByte lba 24, lbaByte lba 0⟩
  lba1 : regs (ch.base + 4) = ⟨lbaByte lba 32, lbaByte lba 8⟩
  lba2 : regs (ch.base + 5) = ⟨lbaByte lba 40, lbaByte lba 16⟩

theorem program_runOn (ch : ChannelRegisters) (start : UInt16 → Register) (lba : UInt64)
    (n : Nat) (log : List Io) :
    ∃ writes, (ch.program lba n).runOn () log = (.ok ((), ()), writes ++ log) ∧
      (∀ data, .outb (ch.base + 7) data ∉ writes) ∧
      Holding ch (registers start (writes ++ log)) lba n := by
  have control : ∀ i < 8, ch.base + i ≠ ch.ctrl + 2 := ch.apart
  refine ⟨[.outb (ch.base + 5) (lbaByte lba 16), .outb (ch.base + 4) (lbaByte lba 8),
    .outb (ch.base + 3) (lbaByte lba 0), .outb (ch.base + 2) n.toUInt8] ++
    ch.bankedWrites (ch.base + 5) (lbaByte lba 40) ++
    ch.bankedWrites (ch.base + 4) (lbaByte lba 32) ++
    ch.bankedWrites (ch.base + 3) (lbaByte lba 24) ++ ch.bankedWrites (ch.base + 2) 0, ?_, ?_, ?_⟩
  · rw [program, Calls.runOn_bind_ok (ataWrite_second (by decide) (by decide) _ _),
      Calls.runOn_bind_ok (ataWrite_second (by decide) (by decide) _ _),
      Calls.runOn_bind_ok (ataWrite_second (by decide) (by decide) _ _),
      Calls.runOn_bind_ok (ataWrite_second (by decide) (by decide) _ _),
      Calls.runOn_bind_ok (ataWrite_first (by decide) _ _),
      Calls.runOn_bind_ok (ataWrite_first (by decide) _ _),
      Calls.runOn_bind_ok (ataWrite_first (by decide) _ _), ataWrite_first (by decide)]
    rfl
  · simp [bankedWrites, control 7 (by decide)]
  · constructor
    all_goals simp [bankedWrites, registers, update_apply, control 2 (by decide), control 3 (by decide),
      control 4 (by decide), control 5 (by decide)]

theorem lbaByte_toNat (lba shift : UInt64) (small : shift < 64) :
    (lbaByte lba shift).toNat = lba.toNat / 2 ^ shift.toNat % 2 ^ 8 := by
  have amount : shift.toNat % 64 = shift.toNat :=
    Nat.mod_eq_of_lt (UInt64.lt_iff_toNat_lt.mp small)
  rw [lbaByte, UInt64.toNat_toUInt8, UInt64.toNat_and, UInt64.toNat_shiftRight, amount,
    Nat.shiftRight_eq_div_pow]
  rw [show (0xff : UInt64).toNat = 2 ^ 8 - 1 from rfl, Nat.and_two_pow_sub_one_eq_mod,
    Nat.mod_mod]

theorem Holding.address {regs : UInt16 → Register} {lba : UInt64} {n : Nat}
    (h : Holding ch regs lba n) (lba48 : lba.toNat < 2 ^ 48) : address ch regs = lba.toNat := by
  rw [Ata.address, h.lba0, h.lba1, h.lba2]
  simp only [lbaByte_toNat lba 0 (by decide), lbaByte_toNat lba 8 (by decide),
    lbaByte_toNat lba 16 (by decide), lbaByte_toNat lba 24 (by decide),
    lbaByte_toNat lba 32 (by decide), lbaByte_toNat lba 40 (by decide), UInt64.reduceToNat]
  omega

/-- The count is programmed modulo 256. -/
theorem Holding.sectorCount {regs : UInt16 → Register} {lba : UInt64} {n : Nat}
    (h : Holding ch regs lba n) :
    sectorCount ch regs = if n % 2 ^ 8 = 0 then 2 ^ 16 else n % 2 ^ 8 := by
  have low : n.toUInt8.toNat = n % 2 ^ 8 := UInt8.toNat_ofNat'
  have high : (0 : UInt8).toNat * 2 ^ 8 = 0 := rfl
  rw [Ata.sectorCount, h.seccount]
  dsimp only
  rw [low, high, Nat.add_zero]

/-- A transfer that reads, cut at the command. -/
theorem transfer_runOn (ch : ChannelRegisters) (slave : UInt8) (fuel : Nat)
    (start : UInt16 → Register) (lba buffer : UInt64) (n : Nat)
    (ready : ∃ k < fuel, drive k &&& srBsy = 0) :
    ∃ later earlier, ((ch.transfer drive slave fuel 0 lba buffer n).runOn () []).2 =
        later ++ .outb (ch.base + 7) cmdReadPioExt :: earlier ∧
      .outb (ch.base + 7) cmdReadPioExt ∉ later ∧ .outb (ch.base + 7) cmdReadPioExt ∉ earlier ∧
      Holding ch (registers start earlier) lba n ∧
      (((ch.transfer drive slave fuel 0 lba buffer n).runOn () []).1 = .ok (true, ()) →
        sectorsRead later = n) := by
  let select : Io := .outb (ch.base + 6) ((0xE0 : UInt8) ||| slave <<< 4)
  have ready' : ∃ k < fuel, drive (([] : List Io).length + k) &&& srBsy = 0 := by
    simpa using ready
  obtain ⟨polls, waited, all⟩ := waitWhileBusy_runOn ch fuel ready'
  obtain ⟨writes, programmed, quiet, holding⟩ :=
    program_runOn ch start lba n (select :: (polls ++ []))
  let earlier := writes ++ select :: (polls ++ [])
  have run : (ch.transfer drive slave fuel 0 lba buffer n).runOn () [] =
      (ch.readSectors drive fuel n buffer).runOn ()
        (.outb (ch.base + 7) cmdReadPioExt :: earlier) := by
    have selected : (ch.ataWrite regHddevsel ((0xE0 : UInt8) ||| slave <<< 4)).runOn ()
        (polls ++ []) = (.ok ((), ()), select :: (polls ++ [])) := ataWrite_first (by decide) _ _
    rw [transfer, Calls.runOn_bind_ok waited, Calls.runOn_bind_ok selected,
      Calls.runOn_bind_ok programmed, if_neg (by decide),
      Calls.runOn_bind_ok (ataWrite_first (by decide) _ _)]
    rfl
  obtain ⟨reads, grown, silent, count⟩ := readSectors_runOn ch drive fuel n
    buffer (.outb (ch.base + 7) cmdReadPioExt :: earlier)
  rw [run]
  refine ⟨reads, earlier, grown, silent _ _, ?_, holding, count⟩
  intro mem
  rcases List.mem_append.mp mem with mem | mem
  · exact quiet _ mem
  · rcases List.mem_cons.mp mem with same | mem
    · simp [select] at same
    · rw [List.append_nil] at mem
      cases all _ mem

end ChannelRegisters

/-- What a transfer programs before the read command is the address and the number of sectors of
the loop if and only if that number fits into a byte. -/
theorem transfer_programs_iff (ch : ChannelRegisters) (drive : Drive) (slave : UInt8) (fuel : Nat)
    (start : UInt16 → Register) {lba : UInt64} (buffer : UInt64) {n : Nat}
    (lba48 : lba.toNat < 2 ^ 48) (some : 1 ≤ n) (few : n ≤ 65535)
    (ready : ∃ k < fuel, drive k &&& srBsy = 0) :
    (∃ later earlier, ((ch.transfer drive slave fuel 0 lba buffer n).runOn () []).2 =
        later ++ .outb (ch.base + 7) cmdReadPioExt :: earlier) ∧
      (Programs ch start lba n ((ch.transfer drive slave fuel 0 lba buffer n).runOn () []) ↔
        n < 256) := by
  obtain ⟨later, earlier, log, notLater, notEarlier, holding, count⟩ :=
    ChannelRegisters.transfer_runOn ch slave fuel start lba buffer n ready
  refine ⟨⟨later, earlier, log⟩, fun programs => ?_, fun byte later' earlier' log' => ?_⟩
  · have sectors := (programs later earlier log).2.1
    rw [holding.sectorCount] at sectors
    split_ifs at sectors with zero
    · omega
    · omega
  · rw [log] at log'
    obtain ⟨rfl, -, rfl⟩ := (List.append_cons_inj_of_notMem notLater notEarlier).mp log'
    refine ⟨holding.address lba48, ?_, count⟩
    rw [holding.sectorCount, if_neg (by omega)]
    omega

theorem primary_apart : ∀ i < 8, (0x1F0 : UInt16) + i ≠ 0x3F6 + 2 := by
  intro i less same
  have far : i = 0x208 := by grind
  rw [far] at less
  exact absurd less (by decide)

/-- The primary channel at its usual ports. -/
def primary : ChannelRegisters := ⟨0x1F0, 0x3F6, 0, 2, primary_apart⟩

/-- A drive that is never busy and has no data. -/
def idle : Drive := fun _ => 0

theorem idle_ready : ∃ k < 1, idle k &&& srBsy = 0 := ⟨0, by decide, by decide⟩

def blank : UInt16 → Register := fun _ => ⟨0, 0⟩

theorem transfer_programs_three :
    (∃ later earlier, ((primary.transfer idle 0 1 0 77 0x1000 3).runOn () []).2 =
        later ++ .outb (primary.base + 7) cmdReadPioExt :: earlier) ∧
      (Programs primary blank 77 3 ((primary.transfer idle 0 1 0 77 0x1000 3).runOn () []) ↔
        3 < 256) :=
  transfer_programs_iff primary idle 0 1 blank 0x1000 (by decide) (by decide) (by decide) idle_ready

/-- A transfer of 256 sectors programs 0, which stands for 65536. -/
theorem sector_count_wraps :
    ¬ Programs primary blank 0 256 ((primary.transfer idle 0 1 0 0 0x1000 256).runOn () []) := by
  intro programs
  obtain ⟨later, earlier, log, -, -, holding, -⟩ :=
    ChannelRegisters.transfer_runOn primary 0 1 blank 0 0x1000 256 idle_ready
  have sectors := (programs later earlier log).2.1
  rw [holding.sectorCount] at sectors
  exact absurd sectors (by decide)

end Infos.Drivers.Ata
