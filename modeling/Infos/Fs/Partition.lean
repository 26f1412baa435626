import Infos.Fs.HeaderScan
import Infos.Fs.TarfsPread
import Infos.Lib.Triple

/-!
# TarFS on a partition

A partition passes every call on and adds its offset to the block number. What
stays inside it is up to the caller. After a fault nothing can be said about it, so a run has to
come to its end without one.
-/
namespace Infos.Fs
open Infos.Lib Infos.Util Function

/-- Blocks of a disk, numbered by a `size_t`. -/
structure BlockDevicePartition where
  underlyingBlockDevice : Device
  blockOffset : Nat
  blockCount : Nat
  fits : blockOffset + blockCount ≤ 2 ^ 64

namespace BlockDevicePartition

/-- What the disk is asked for where the partition is asked for `c`. -/
def passOn (p : BlockDevicePartition) (c : ReadCall) : ReadCall :=
  ⟨(p.blockOffset + c.offset) % 2 ^ 64, c.count⟩

/-- The partition as a device. -/
def device (p : BlockDevicePartition) : Device where
  block b := p.underlyingBlockDevice.block ((p.blockOffset + b) % 2 ^ 64)
  blockCount := p.blockCount
  succeeds n c := p.underlyingBlockDevice.succeeds n (p.passOn c)

/-- Every block that the disk is asked for is one of the partition. -/
def Inside (p : BlockDevicePartition) (c : ReadCall) : Prop :=
  ∀ b, (p.passOn c).offset ≤ b → b < (p.passOn c).offset + (p.passOn c).count →
    p.blockOffset ≤ b ∧ b < p.blockOffset + p.blockCount

theorem inside_of_le {p : BlockDevicePartition} {c : ReadCall}
    (h : c.count = 0 ∨ c.offset + c.count ≤ p.blockCount) : p.Inside c := by
  intro b lo hi
  have fits := p.fits
  simp only [passOn] at lo hi
  rcases h with none | within
  · omega
  · have exact : (p.blockOffset + c.offset) % 2 ^ 64 = p.blockOffset + c.offset :=
      Nat.mod_eq_of_lt (by omega)
    omega

theorem inside_iff {p : BlockDevicePartition} {c : ReadCall} (bound : c.offset < 2 ^ 64) :
    p.Inside c ↔ c.count = 0 ∨ c.offset + c.count ≤ p.blockCount := by
  refine ⟨?_, inside_of_le⟩
  intro inside
  by_contra outside
  have fits := p.fits
  obtain ⟨some, beyond⟩ := not_or.mp outside
  have first := inside (p.passOn c).offset le_rfl (by simp only [passOn]; omega)
  have last := inside ((p.passOn c).offset + (p.passOn c).count - 1)
    (by simp only [passOn]; omega) (by simp only [passOn]; omega)
  simp only [passOn] at first last
  omega

end BlockDevicePartition

/-! ### What the calls may be -/

section Calls
variable {σ : Type} {bc : Nat}

/-- One block, before the end. -/
def OneInside (bc : Nat) (c : ReadCall) : Prop := c.offset < bc ∧ c.count = 1

theorem OneInside.inside {p : BlockDevicePartition} {c : ReadCall}
    (h : OneInside p.blockCount c) : p.Inside c :=
  BlockDevicePartition.inside_of_le (.inr (by rw [h.2]; exact h.1))

/-- The header blocks in a tree are blocks of the device. -/
def Headers (bc : Nat) (s : TarState) : Prop :=
  ∀ n, (s.nodes n).hasBlockOffset = true → (s.nodes n).blockOffset < bc

theorem Headers.update {s : TarState} (h : Headers bc s) (n : NodeId) {node : TarFSNode}
    {next : NodeId} (kept : node.hasBlockOffset = true → node.blockOffset < bc) :
    Headers bc { s with nodes := Function.update s.nodes n node, next } := by
  intro m set
  dsimp only at set ⊢
  rw [update_apply] at set ⊢
  split_ifs at set ⊢
  · exact kept set
  · exact h m set

theorem newNode_headers (name : List UInt8) :
    Triple (Headers bc) (newNode name) fun _ => Headers bc := by
  intro s a s' h run
  cases run
  exact h.update _ nofun

theorem addChild_headers (n : NodeId) (name : List UInt8) (child : NodeId) :
    Triple (Headers bc) (addChild n name child) fun _ => Headers bc := by
  intro s a s' h run
  rw [addChild, bind_ok (run_get_eq s)] at run
  cases added : (s.nodes n).children.add (getHash name) child with
  | error e =>
      rw [added] at run
      cases run
  | ok children =>
      rw [added] at run
      cases run
      exact h.update n (h n)

theorem ensureChild_headers (current : NodeId) (component : List UInt8) :
    Triple (Headers bc) (ensureChild current component) fun _ => Headers bc := by
  unfold ensureChild
  refine Triple.getState.bind fun s => ?_
  cases s.getChild current component with
  | some next => exact .ret next fun _ h => h
  | none =>
      refine (newNode_headers component).bind fun next => ?_
      exact (addChild_headers current component next).bind fun _ => .ret next fun _ h => h

theorem lift_headers {α : Type} (x : Except Fault α) :
    Triple (Headers bc) (lift x) fun _ => Headers bc := by
  intro s a s' h run
  cases x with
  | error e => cases run
  | ok a =>
      cases run
      exact h

theorem walk_headers (fuel : Nat) (current : NodeId) (last : Option NodeId) (path : List UInt8) :
    Triple (Headers bc) (walk fuel current last path) fun _ => Headers bc := by
  induction fuel generalizing current last path with
  | zero => exact .throw _
  | succ fuel ih =>
      unfold walk
      refine (lift_headers _).bind ?_
      rintro ⟨component, path⟩
      apply Triple.ite
      · exact fun _ => .ret last fun _ h => h
      · exact fun _ => (ensureChild_headers current component).bind fun next => ih next (some next) path

theorem enterHeader_headers {root : NodeId} {head : Block} {offset : Int}
    (inside : toUInt32 offset < bc) :
    Triple (Headers bc) (enterHeader root head offset) fun _ => Headers bc := by
  unfold enterHeader
  refine (lift_headers _).bind fun size => ?_
  refine (walk_headers _ _ _ _).bind fun last => ?_
  cases last with
  | none => exact .throw _
  | some node =>
      have sized : Triple (Headers bc) (setSize node size) fun _ => Headers bc := by
        intro s a s' h run
        cases run
        exact h.update node (h node)
      have placed : Triple (Headers bc) (setBlockOffset node (toUInt32 offset))
          fun _ => Headers bc := by
        intro s a s' h run
        cases run
        exact h.update node fun _ => inside
      refine sized.bind fun _ => ?_
      apply Triple.ite
      · exact fun _ => placed.bind fun _ => .ret _ fun _ h => h
      · exact fun _ => .ret _ fun _ h => h

theorem readHeader_within {dev : Device} {P : σ → Prop} {offset : Nat}
    (inside : offset < dev.blockCount) (buffer : Option Block) :
    Calls.Within (OneInside dev.blockCount) P (dev.readHeader offset buffer) fun _ => P := by
  have called : Calls.Within (OneInside dev.blockCount) P (dev.readBlocks offset 1) fun _ => P :=
    (Calls.Within.call ⟨inside, rfl⟩).bind fun _ => .ret _ fun _ h => h
  exact called.bind fun _ => .ret _ fun _ h => h

theorem readHead_within {dev : Device} {P : σ → Prop} {offset : Nat} (spare : Nat)
    (inside : offset < dev.blockCount) (head : Option Block) :
    Calls.Within (OneInside dev.blockCount) P (dev.readHead spare offset head) fun _ => P := by
  have called : Calls.Within (OneInside dev.blockCount) P (dev.readBlocks offset 1) fun _ => P :=
    (Calls.Within.call ⟨inside, rfl⟩).bind fun _ => .ret _ fun _ h => h
  refine called.bind fun ok => ?_
  split_ifs
  · exact .throw _
  · exact .ret _ fun _ h => h
  · exact .ret _ fun _ h => h

theorem readHeaders_within (spare : Nat) (dev : Device) (root : NodeId) (fuel : Nat) (offset : Int)
    (zeroSeen : Bool) (head : Option Block) :
    Calls.Within (OneInside dev.blockCount) (Headers dev.blockCount)
      (dev.readHeaders spare root fuel offset zeroSeen head) fun _ => Headers dev.blockCount := by
  induction fuel generalizing offset zeroSeen head with
  | zero => exact .throw _
  | succ fuel ih =>
      unfold Device.readHeaders
      apply Calls.Within.ite
      · intro inside
        refine (readHead_within spare inside head).bind fun read => ?_
        cases read with
        | none => exact .throw _
        | some block =>
            dsimp only
            split_ifs
            · exact .ret () fun _ h => h
            · exact ih _ _ _
            · have low : toUInt32 offset < dev.blockCount := by
                unfold toUInt64 at inside
                unfold toUInt32
                omega
              exact (Calls.Within.ofExec (enterHeader_headers low)).bind fun _ => ih _ _ _
      · exact fun _ => .ret () fun _ h => h

theorem buildTree_within (spare : Nat) (dev : Device) :
    Calls.Within (OneInside dev.blockCount) (Headers dev.blockCount) (dev.buildTree spare)
      fun _ => Headers dev.blockCount := by
  refine (Calls.Within.ofExec (newNode_headers [])).bind fun root => ?_
  exact (readHeaders_within spare dev root _ _ _ _).bind fun _ => .ret root fun _ h => h

theorem newFile_within {dev : Device} {P : σ → Prop} {fileHeaderBlock : Nat}
    (inside : fileHeaderBlock < dev.blockCount) :
    Calls.Within (OneInside dev.blockCount) P (dev.newFile fileHeaderBlock)
      fun f s => f.fileStartBlock < 2 ^ 32 ∧ P s := by
  refine (readHeader_within inside none).bind fun hdr => ?_
  exact .ret _ fun _ h => ⟨Nat.mod_lt _ (by decide), h⟩

theorem openNode_within (dev : Device) (n : NodeId) (t : TarState) (h : Headers dev.blockCount t) :
    Calls.Within (OneInside dev.blockCount) (· = t) (dev.openNode n)
      fun file s => (∀ f ∈ file, f.fileStartBlock < 2 ^ 32) ∧ s = t := by
  refine Calls.Within.getState.bind fun s => ?_
  apply Calls.Within.ite
  · rintro set _ log ⟨rfl, rfl⟩
    refine (newFile_within (h n set)).bind (fun f => ?_) s log rfl
    apply Calls.Within.ret
    rintro t ⟨start, same⟩
    refine ⟨?_, same.symm⟩
    rintro _ ⟨⟩
    exact start
  · exact fun _ => .ret none fun _ h => ⟨nofun, h.2⟩

end Calls

/-! ### The call of a read -/

section Pread
variable {σ : Type} {dev : Device} {f : TarFSFile} {fileSize size off : Nat}

/-- A read is for nothing, or `off + size` does not wrap, the blocks up to that of the byte behind
the last one make less than 2^31 bytes, and they end before block `blockCount`. -/
def PreadInside (blockCount start fileSize size off : Nat) : Prop :=
  off < fileSize → 0 < size → off + size < 2 ^ 64 ∧
    512 * ((off % 512 + min size (fileSize - off)) / 512 + 1) < 2 ^ 31 ∧
    start + (off + min size (fileSize - off)) / 512 < blockCount

theorem readInto_outcome (offset count : Nat) (buffer : Memory) (s : σ) (log : List ReadCall) :
    ∃ r, (dev.readInto offset count buffer : DeviceExec σ Memory).runOn s log =
        (r, ⟨offset, count⟩ :: log) ∧
      if dev.succeeds log.length ⟨offset, count⟩ = true ∧ buffer.length < 512 * count then
        r = .error .outOfBounds
      else ∃ buffer', r = .ok (buffer', s) ∧ buffer'.length = buffer.length := by
  unfold Device.readInto
  rw [Calls.runOn_bind_ok (Device.readBlocks_run _ _)]
  cases dev.succeeds log.length ⟨offset, count⟩ with
  | false => exact ⟨_, rfl, buffer, rfl, rfl⟩
  | true =>
      rw [if_pos rfl]
      by_cases short : buffer.length < 512 * count
      · refine ⟨.error .outOfBounds, by rw [if_pos short]; rfl, ?_⟩
        rw [if_pos ⟨rfl, short⟩]
      · refine ⟨_, by rw [if_neg short]; rfl, ?_⟩
        rw [if_neg fun both => short both.2]
        refine ⟨_, rfl, ?_⟩
        rw [List.length_append, List.length_map, Device.blocks_eq_slice, Device.slice_length,
          List.length_drop]
        omega

/-- The bytes of the buffer for a read of `n` bytes. -/
def bufferSize (n off : Nat) : Nat := (toInt32 (512 * TarFSFile.blocksToRead n off)).toNat

theorem pread_fine_iff {n : Nat} (sized : f.size = .ok fileSize)
    (clamped : TarFSFile.clamp fileSize size off = n) (work : ¬ (fileSize ≤ off ∨ n = 0)) (s : σ)
    (log : List ReadCall) :
    (f.pread dev size off : DeviceExec σ _).Fine s log ↔
      ¬ (dev.succeeds log.length ⟨f.fileStartBlock + off / 512,
          toUInt64 (TarFSFile.blocksToRead n off)⟩ = true ∧
        bufferSize n off < 512 * toUInt64 (TarFSFile.blocksToRead n off)) ∧
      off % 512 + n ≤ bufferSize n off := by
  obtain ⟨r, read, outcome⟩ := @readInto_outcome _ dev (f.fileStartBlock + off / 512)
    (toUInt64 (TarFSFile.blocksToRead n off))
    (TarFSFile.newBytes (toInt32 (512 * TarFSFile.blocksToRead n off))) s log
  have room : (TarFSFile.newBytes (toInt32 (512 * TarFSFile.blocksToRead n off))).length =
      bufferSize n off := List.length_replicate
  rw [room] at outcome
  unfold TarFSFile.pread
  rw [Calls.fine_bind_ok (by rw [sized, Calls.runOn_ofExec, lift_ok])]
  simp only [clamped]
  rw [if_neg work]
  split_ifs at outcome with overruns
  · rw [outcome] at read
    rw [Calls.fine_bind_error read]
    exact iff_of_false (by decide) fun inside => inside.1 overruns
  · obtain ⟨buffer, rfl, length⟩ := outcome
    rw [Calls.fine_bind_ok read, Calls.fine_bind_pure, and_iff_right overruns, ← length]
    unfold TarFSFile.copyOut
    split_ifs with inside
    · exact iff_of_true (Calls.fine_ok rfl) inside
    · exact iff_of_false (fun fine => absurd (fine _ rfl) (by decide)) inside

theorem pread_calls (sized : f.size = .ok fileSize) (s : σ) (log : List ReadCall) :
    ((f.pread dev size off : DeviceExec σ _).runOn s log).2 =
      if fileSize ≤ off ∨ TarFSFile.clamp fileSize size off = 0 then log
      else ⟨f.fileStartBlock + off / 512,
        toUInt64 (TarFSFile.blocksToRead (TarFSFile.clamp fileSize size off) off)⟩ :: log := by
  unfold TarFSFile.pread
  rw [sized, Calls.runOn_ofExec_bind_ok (lift_ok _ s)]
  dsimp only
  split_ifs
  · rfl
  · rw [Calls.Silent.after]
    · obtain ⟨r, read, -⟩ := @readInto_outcome _ dev (f.fileStartBlock + off / 512)
        (toUInt64 (TarFSFile.blocksToRead (TarFSFile.clamp fileSize size off) off))
        (TarFSFile.newBytes
          (toInt32 (512 * TarFSFile.blocksToRead (TarFSFile.clamp fileSize size off) off))) s log
      rw [read]
    · exact fun buffer => (Calls.Silent.ofExec _).bind fun _ => .ret _

theorem pread_unsized {e : Fault} (unsized : f.size = .error e) (s : σ) (log : List ReadCall) :
    ¬ (f.pread dev size off : DeviceExec σ _).Fine s log := by
  have fault : e ≠ .outOfFuel := by
    unfold TarFSFile.size at unsized
    cases hdr : f.hdr with
    | none =>
        rw [hdr] at unsized
        cases unsized
        decide
    | some head =>
        rw [hdr] at unsized
        rw [headerSize_fault unsized]
        decide
  unfold TarFSFile.pread
  rw [Calls.fine_bind_error (by rw [unsized]; rfl)]
  exact fault

/-- An array of 2^31 bytes and more has no `int` for its size. -/
theorem bufferSize_eq {n off : Nat} (small : off % 512 + n < 2 ^ 39) :
    bufferSize n off = (toInt32 (512 * ((off % 512 + n) / 512 + 1) : Nat)).toNat := by
  rw [bufferSize, TarFSFile.blocksToRead_eq n off small]
  rfl

theorem buffer_holds_iff {n : Nat} (off : Nat) (some : 0 < n) (small : n < 2 ^ 32) :
    off % 512 + n ≤ bufferSize n off ↔ 512 * ((off % 512 + n) / 512 + 1) < 2 ^ 31 := by
  rw [bufferSize_eq (by omega)]
  unfold toInt32
  rw [Int.bmod_def]
  split_ifs <;> omega

theorem pread_sound_iff {p : BlockDevicePartition} (start : f.fileStartBlock < 2 ^ 32)
    (sizeBound : size < 2 ^ 64) (s : σ) (log : List ReadCall) :
    (f.pread p.device size off : DeviceExec σ _).Sound p.Inside s log ↔
      (∀ c ∈ log, p.Inside c) ∧ ∃ fileSize, f.size = .ok fileSize ∧
        PreadInside p.blockCount f.fileStartBlock fileSize size off := by
  cases sized : f.size with
  | error e => exact iff_of_false (fun sound => pread_unsized sized s log sound.2) (by simp)
  | ok fileSize =>
      have small := size_lt sized
      simp only [Except.ok.injEq, exists_eq_left']
      unfold Calls.Sound
      by_cases nothing : fileSize ≤ off ∨ size = 0
      · have idle : fileSize ≤ off ∨ TarFSFile.clamp fileSize size off = 0 := by
          rcases Nat.lt_or_ge off fileSize with inside | outside
          · obtain rfl : size = 0 := by omega
            rw [TarFSFile.clamp_eq inside (by omega)]
            exact .inr (Nat.zero_min _)
          · exact .inl outside
        rw [pread_outside sized idle, and_iff_left (Calls.fine_ok (pread_outside sized idle))]
        refine (and_iff_left ?_).symm
        intro inside some
        omega
      · obtain ⟨inside, some⟩ : off < fileSize ∧ 0 < size := by omega
        unfold PreadInside
        rw [imp_iff_right inside, imp_iff_right some]
        by_cases fits : off + size < 2 ^ 64
        · have clamped := TarFSFile.clamp_eq inside fits
          have least : 0 < min size (fileSize - off) := by omega
          have blocks := TarFSFile.blocksToRead_eq (min size (fileSize - off)) off (by omega)
          rw [pread_calls sized, pread_fine_iff sized clamped (by omega), clamped,
            if_neg (by omega), blocks, toUInt64_natCast (by omega), List.forall_mem_cons,
            BlockDevicePartition.inside_iff (by dsimp only; omega), and_iff_right fits,
            buffer_holds_iff off least (by omega), bufferSize_eq (by omega)]
          dsimp only
          constructor
          · rintro ⟨⟨block, before⟩, -, short⟩
            exact ⟨before, short, by omega⟩
          · rintro ⟨before, short, block⟩
            rw [toInt32_natCast (by omega)]
            exact ⟨⟨.inr (by omega), before⟩, fun overruns => by omega, short⟩
        · have clamped := TarFSFile.clamp_wrap inside (Nat.le_of_not_lt fits) sizeBound small
          have bound := (toInt32_bounds (512 * TarFSFile.blocksToRead size off)).2
          rw [pread_fine_iff sized clamped (by omega)]
          refine iff_of_false (fun sound => ?_) fun careful => fits careful.2.1
          have room := sound.2.2
          unfold bufferSize at room
          omega

end Pread

/-! ### Runs -/

/-- A mounted file system and the files that were opened. -/
structure Session where
  fs : TarFS
  files : List TarFSFile

def Session.initial : Session := ⟨⟨.initial, none⟩, []⟩

inductive Op where
  | mount
  | openNode (n : NodeId)
  | pread (file : Nat) (size off : UInt64)

def Op.run (spare : Nat) (dev : Device) : Op → DeviceExec Session Unit
  | .mount => do
      let _ ← Calls.zoom Session.fs (fun s fs => { s with fs }) (dev.mount spare)
  | .openNode n => do
      let file ← Calls.zoom (fun s => s.fs.tree)
        (fun s tree => { s with fs := { s.fs with tree } }) (dev.openNode n)
      modify fun s => { s with files := s.files ++ file.toList }
  | .pread file size off => do
      match (← get).files[file]? with
      | none => pure ()
      | some f => do
          let _ ← f.pread dev size.toNat off.toNat

/-- What a step has to keep to after the calls in `log`; opening is always fine. -/
def Op.Careful (spare : Nat) (dev : Device) (s : Session) (log : List ReadCall) : Op → Prop
  | .mount => s.fs.rootNode = none →
      dev.Scans spare (dev.blockCount + 1) log.length 0 false none
  | .openNode _ => True
  | .pread file size off => ∀ f, s.files[file]? = some f → ∃ fileSize, f.size = .ok fileSize ∧
      PreadInside dev.blockCount f.fileStartBlock fileSize size.toNat off.toNat

structure Session.Inv (blockCount : Nat) (s : Session) : Prop where
  headers : Headers blockCount s.fs.tree
  files : ∀ f ∈ s.files, f.fileStartBlock < 2 ^ 32
  unmounted : s.fs.rootNode = none → s.fs.tree = .initial

section Steps
variable {spare : Nat} {dev : Device}

theorem mount_within (spare : Nat) (dev : Device) :
    Calls.Within (OneInside dev.blockCount) (fun fs => Headers dev.blockCount fs.tree)
      (dev.mount spare) fun _ fs => Headers dev.blockCount fs.tree ∧ fs.rootNode ≠ none := by
  refine Calls.Within.getState.bind fun fs => ?_
  cases mounted : fs.rootNode with
  | some root =>
      refine .ret (some root) fun fs' h => ⟨h.2, ?_⟩
      rw [← h.1, mounted]
      exact nofun
  | none =>
      have built : Calls.Within (OneInside dev.blockCount)
          (fun fs' => fs = fs' ∧ Headers dev.blockCount fs'.tree)
          (Calls.zoom TarFS.tree (fun fs tree => { fs with tree }) (dev.buildTree spare))
          (fun _ fs => Headers dev.blockCount fs.tree) :=
        (buildTree_within spare dev).zoom (fun _ h => h.2) (fun _ _ _ _ h => h)
      refine built.bind fun root => ?_
      refine Calls.Within.bind
        (Q := fun _ fs => Headers dev.blockCount fs.tree ∧ fs.rootNode ≠ none)
        (Calls.Within.modify ?_) fun _ => .ret (some root) fun _ h => h
      exact fun _ h => ⟨h, nofun⟩

theorem Op.mount_run_within (spare : Nat) (dev : Device) :
    Calls.Within (OneInside dev.blockCount) (Session.Inv dev.blockCount) (Op.mount.run spare dev)
      fun _ => Session.Inv dev.blockCount := by
  have zoomed : Calls.Within (OneInside dev.blockCount) (Session.Inv dev.blockCount)
      (Calls.zoom Session.fs (fun s fs => { s with fs }) (dev.mount spare))
      (fun _ => Session.Inv dev.blockCount) :=
    (mount_within spare dev).zoom (fun _ h => h.headers)
      (fun _ _ _ h post => ⟨post.1, h.files, fun none => absurd none post.2⟩)
  exact zoomed.bind fun _ => .ret () fun _ h => h

theorem Op.openNode_run_within (dev : Device) (n : NodeId) :
    Calls.Within (OneInside dev.blockCount) (Session.Inv dev.blockCount)
      ((Op.openNode n).run spare dev) fun _ => Session.Inv dev.blockCount := by
  intro s log h
  have zoomed : Calls.Within (OneInside dev.blockCount) (· = s)
      (Calls.zoom (fun s => s.fs.tree) (fun s tree => { s with fs := { s.fs with tree } })
        (dev.openNode n))
      (fun file s' => (∀ f ∈ file, f.fileStartBlock < 2 ^ 32) ∧ s' = s) := by
    refine (openNode_within dev n s.fs.tree h.headers).zoom (fun _ same => same ▸ rfl) ?_
    rintro _ file _ rfl ⟨start, rfl⟩
    exact ⟨start, rfl⟩
  refine (zoomed.bind fun file => Calls.Within.modify ?_) s log rfl
  rintro _ ⟨start, rfl⟩
  refine ⟨h.headers, ?_, h.unmounted⟩
  intro f mem
  rcases List.mem_append.mp mem with old | new
  · exact h.files f old
  · exact start f (Option.mem_toList.mp new)

theorem pread_within (f : TarFSFile) (size off : Nat) :
    Calls.Within (fun _ => True) (Session.Inv dev.blockCount) (f.pread dev size off)
      fun _ => Session.Inv dev.blockCount := by
  have read (offset count : Nat) (buffer : Memory) : Calls.Within (fun _ => True)
      (Session.Inv dev.blockCount) (dev.readInto offset count buffer)
      fun _ => Session.Inv dev.blockCount := by
    refine Calls.Within.bind (Q := fun _ => Session.Inv dev.blockCount) ?_ fun ok => ?_
    · exact (Calls.Within.call trivial).bind fun _ => .ret _ fun _ h => h
    · split_ifs
      · exact .throw _
      · exact .ret _ fun _ h => h
      · exact .ret _ fun _ h => h
  have lifted {α : Type} (x : Except Fault α) : Calls.Within (fun _ => True)
      (Session.Inv dev.blockCount) (Calls.ofExec (lift x) : DeviceExec Session α)
      fun _ => Session.Inv dev.blockCount := by
    apply Calls.Within.ofExec
    intro s a s' h run
    cases x with
    | error e => cases run
    | ok a =>
        cases run
        exact h
  refine (lifted f.size).bind fun fileSize => ?_
  apply Calls.Within.ite
  · exact fun _ => .ret _ fun _ h => h
  · intro _
    exact (read _ _ _).bind fun buffer => (lifted _).bind fun _ => .ret _ fun _ h => h

theorem Op.run_within (op : Op) :
    Calls.Within (fun _ => True) (Session.Inv dev.blockCount) (op.run spare dev)
      fun _ => Session.Inv dev.blockCount := by
  cases op with
  | mount => exact (Op.mount_run_within spare dev).mono_calls fun _ _ => trivial
  | openNode n => exact (Op.openNode_run_within dev n).mono_calls fun _ _ => trivial
  | pread file size off =>
      refine Calls.Within.bind (Q := fun _ => Session.Inv dev.blockCount)
        (Calls.Within.getState.mono (fun _ h => h) fun _ _ h => h.2) fun s => ?_
      cases s.files[file]? with
      | none => exact .ret () fun _ h => h
      | some f => exact (pread_within f _ _).bind fun _ => .ret () fun _ h => h

theorem mount_fine_iff {fs : TarFS} (unmounted : fs.rootNode = none → fs.tree = .initial)
    (log : List ReadCall) :
    (dev.mount spare).Fine fs log ↔ (fs.rootNode = none →
      dev.Scans spare (dev.blockCount + 1) log.length 0 false none) := by
  unfold Device.mount
  rw [Calls.fine_bind_ok (Calls.runOn_get fs log)]
  cases root : fs.rootNode with
  | some root => exact iff_of_true (Calls.fine_ok rfl) nofun
  | none =>
      rw [imp_iff_right rfl, ← Device.buildTree_fine_iff, ← unmounted root]
      refine (Calls.fine_bind_of_fine fun root fs log => ?_).trans Calls.fine_zoom
      exact Calls.fine_ok rfl

theorem openNode_fine (n : NodeId) (s : TarState) (log : List ReadCall) :
    (dev.openNode n).Fine s log := by
  unfold Device.openNode
  rw [Calls.fine_bind_ok (Calls.runOn_get s log)]
  dsimp only
  split_ifs
  · exact Calls.fine_ok rfl
  · exact Calls.fine_ok rfl

theorem Op.run_sound_iff (p : BlockDevicePartition) {s : Session} (op : Op)
    (log : List ReadCall) (h : s.Inv p.blockCount) :
    (op.run spare p.device).Sound p.Inside s log ↔
      (∀ c ∈ log, p.Inside c) ∧ op.Careful spare p.device s log := by
  have harmless : ∀ {x : DeviceExec Session Unit},
      Calls.Within (OneInside p.blockCount) (Session.Inv p.blockCount) x
        (fun _ => Session.Inv p.blockCount) →
      (x.Sound p.Inside s log ↔ (∀ c ∈ log, p.Inside c) ∧ x.Fine s log) := by
    intro x within
    unfold Calls.Sound
    rw [(within.mono_calls fun c => OneInside.inside (p := p)).forall_iff h log]
  cases op with
  | mount =>
      rw [harmless (Op.mount_run_within spare p.device)]
      refine and_congr_right fun _ => ?_
      unfold Op.run Op.Careful
      rw [Calls.fine_bind_pure, Calls.fine_zoom]
      exact mount_fine_iff h.unmounted log
  | openNode n =>
      rw [harmless (Op.openNode_run_within p.device n)]
      refine and_congr_right fun _ => iff_of_true ?_ trivial
      unfold Op.run
      refine (Calls.fine_bind_of_fine fun _ _ _ => ?_).mpr ?_
      · exact Calls.fine_ok rfl
      · exact Calls.fine_zoom.mpr (openNode_fine n s.fs.tree log)
  | pread file size off =>
      unfold Op.run Op.Careful Calls.Sound
      rw [Calls.fine_bind_ok (Calls.runOn_get s log), Calls.runOn_bind_ok (Calls.runOn_get s log)]
      cases opened : s.files[file]? with
      | none =>
          rw [and_iff_left (Calls.fine_ok rfl)]
          refine (and_iff_left ?_).symm
          intro f opened'
          cases opened.symm.trans opened'
      | some f =>
          dsimp only
          rw [Calls.fine_bind_pure, Calls.Silent.after fun _ => .ret ()]
          refine (pread_sound_iff (h.files f (List.mem_of_getElem? opened)) (UInt64.toNat_lt size) s
            log).trans (and_congr_right fun _ => ⟨?_, fun careful => careful f opened⟩)
          intro careful f' opened'
          cases opened.symm.trans opened'
          exact careful

end Steps

theorem Session.initial_inv (blockCount : Nat) : Session.initial.Inv blockCount where
  headers := nofun
  files := nofun
  unmounted _ := rfl

/-- A run asks the disk only for blocks of the partition, and ends in no fault, exactly if each of
its steps is careful where it is taken. -/
theorem partition_inside_iff (p : BlockDevicePartition) (spare : Nat) (ops : List Op) :
    (Calls.runAll (Op.run spare p.device) ops).Sound p.Inside Session.initial [] ↔
      ∀ past op rest, ops = past ++ op :: rest → ∀ s log,
        (Calls.runAll (Op.run spare p.device) past).runOn Session.initial [] = (.ok ((), s), log) →
        op.Careful spare p.device s log := by
  have start := Session.initial_inv p.blockCount
  have step : ∀ (s : Session) (op : Op) (log : List ReadCall), s.Inv p.blockCount →
      ((op.run spare p.device).Sound p.Inside s log ↔
        (∀ c ∈ log, p.Inside c) ∧ op.Careful spare p.device s log) :=
    fun s op log h => op.run_sound_iff p log h
  have kept : ∀ (s : Session) (op : Op) (log : List ReadCall) (s' : Session)
      (log' : List ReadCall), s.Inv p.blockCount →
      (op.run spare p.device).runOn s log = (.ok ((), s'), log') → s'.Inv p.blockCount := by
    intro s op log s' log' h run
    exact (op.run_within s log h).2 () s' (congrArg Prod.fst run)
  rw [Calls.runAll_sound_iff step kept ops start]
  simp only [List.not_mem_nil, false_imp_iff, implies_true, true_and]

/-- A partition that ends with the only block of a file of 512 bytes. -/
def tightPartition : BlockDevicePartition where
  underlyingBlockDevice :=
    { block := fun b =>
        if b = 63 then (zeroFile 97 a_ne_zero a_ne_slash 512 (by decide)).headerBlock
        else zeroBlock
      blockCount := 100
      succeeds := fun _ _ => true }
  blockOffset := 63
  blockCount := 2
  fits := by decide

/-- Reading the whole file asks for the block after it. -/
theorem tight_read_outside :
    ∃ c ∈ ((Calls.runAll (Op.run 12 tightPartition.device)
        [.mount, .openNode 1, .pread 0 512 0]).runOn Session.initial []).2,
      ¬ tightPartition.Inside c := by
  refine ⟨⟨1, 2⟩, by decide +kernel, ?_⟩
  intro inside
  exact absurd (inside 65 (by decide) (by decide)).2 (by decide)

end Infos.Fs
