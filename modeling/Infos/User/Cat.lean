import Infos.User.Library

/-!
# The program cat

It prints a file in pieces of 63 bytes, each up to its first NUL.
-/
namespace Infos.User.Cat
open Infos.Lib Infos.Util Infos.Kernel Infos.Kernel.FileCalls Infos.Fs.Namespace Function
open Infos.Fs (Holds Memory NodeId TarFSFile pieces)
open Infos.Util.Printf (CString Item emit items strText)

/-- The text `error: unable to open file '%s' for reading`, with a newline. -/
def errorFormat : List UInt8 :=
  [101, 114, 114, 111, 114, 58, 32, 117, 110, 97, 98, 108, 101, 32, 116, 111, 32, 111, 112, 101,
    110, 32, 102, 105, 108, 101, 32, 39, 37, 115, 39, 32, 102, 111, 114, 32, 114, 101, 97, 100, 105,
    110, 103, 10]

/-- `buffer[bytes_read] = 0;` -/
def endAt (buffer : Buffer) (bytesRead : Int) : Except Fault Buffer :=
  if 0 ≤ bytesRead then buffer.write bytesRead.toNat 0 else .error .outOfBounds

/-- The loop until nothing is read. -/
def copyLoop (console file : Nat) : Nat → Buffer → UserProgram Unit
  | 0, _ => .fault .outOfFuel
  | fuel + 1, buffer => do
      let (bytesRead, stored) ← read file 63
      let buffer ← .ofExcept (endAt (stored ++ buffer.drop stored.length) bytesRead)
      let text ← .ofExcept buffer.cString
      let _ ← printf console [37, 115] [.str (cString text)]
      if 0 < bytesRead then copyLoop console file fuel buffer else pure ()

def main (fuel console : Nat) (cmdline : CString) : UserProgram Int := do
  if cmdline.text = [] then pure 1
  else do
    let file ← openFile cmdline.text
    if isError file then do
      let _ ← printf console errorFormat [.str cmdline]
      pure 1
    else do
      copyLoop console file fuel (.new 64)
      let _ ← close file
      pure 0

/-- How often a file of this length is read: at the end there is an empty piece. -/
def rounds (length : Nat) : Nat := (length + 62) / 63 + 1

/-- What is printed of a file. -/
def texts (F : List UInt8) : List (List UInt8) :=
  (pieces F (List.replicate (rounds F.length) 63)).map fun piece => piece.takeWhile (· ≠ 0)

section Texts
variable {F : List UInt8}

theorem texts_nil : texts [] = [[]] := rfl

theorem rounds_drop (some : F ≠ []) : rounds F.length = rounds (F.drop 63).length + 1 := by
  have length : 0 < F.length := List.length_pos_iff.mpr some
  rw [rounds, rounds, List.length_drop]
  omega

theorem texts_cons (some : F ≠ []) :
    texts F = (F.take 63).takeWhile (· ≠ 0) :: texts (F.drop 63) := by
  rw [texts, rounds_drop some, List.replicate_succ]
  rfl

theorem texts_flatten (proper : 0 ∉ F) : (texts F).flatten = F := by
  have whole : texts F = pieces F (List.replicate (rounds F.length) 63) := by
    rw [texts]
    conv_rhs => rw [← List.map_id (pieces F _)]
    refine List.map_congr_left fun piece mem => ?_
    rw [id, List.takeWhile_eq_self_iff]
    intro c inside
    have there : c ∈ (pieces F (List.replicate (rounds F.length) 63)).flatten :=
      List.mem_flatten.mpr ⟨piece, mem, inside⟩
    rw [Fs.pieces_flatten] at there
    exact decide_eq_true fun zero => proper (zero ▸ List.mem_of_mem_take there)
  rw [whole, Fs.pieces_flatten, List.sum_replicate_nat, List.take_of_length_le]
  rw [rounds]
  omega

end Texts

section Runs
variable {π : Type} [DecidableEq π] {p : Place π} {left console file : Nat}
  {held : List (Nat × Object)} {out : List (DeviceId × List UInt8)} {d : DeviceId}
  {F : List UInt8} {f : TarFSFile}

theorem copyLoop_prints (reads : ∀ n c, p.hw.archive.succeeds n c = true)
    (mem : (console, .terminalFile d) ∈ held) (shown : p.hw.console d = true) (fuel : Nat)
    {buffer : Buffer} (size : buffer.length = 64) (holds : Holds p.hw.archive f F)
    (inside : f.curPos ≤ F.length) (enough : rounds (F.drop f.curPos).length ≤ fuel) :
    p.Meets (Running p left ((file, .tarFSFile f) :: held) out) (copyLoop console file fuel buffer)
      fun _ => Running p left ((file, .tarFSFile { f with curPos := F.length }) :: held)
        (out ++ (texts (F.drop f.curPos)).map fun text => (d, text)) := by
  induction fuel generalizing f buffer out with
  | zero => exact absurd enough (by rw [rounds]; omega)
  | succ fuel ih =>
      rw [copyLoop]
      refine .bind (read_file holds reads inside (by decide)) fun r => .of_fact ?_
      rintro rfl
      have rest : F.drop (min (f.curPos + 63) F.length) = (F.drop f.curPos).drop 63 := by
        rw [List.drop_drop]
        rcases Nat.le_total (f.curPos + 63) F.length with le | ge
        · rw [min_eq_left le]
        · rw [min_eq_right ge, List.drop_length, List.drop_eq_nil_of_le ge]
      generalize piece_eq : (F.drop f.curPos).take 63 = piece
      have short : piece.length ≤ 63 := by
        rw [← piece_eq]
        exact List.length_take_le _ _
      have ended : endAt (piece.map some ++ buffer.drop (piece.map some).length) piece.length =
          .ok (buffer.holding (piece ++ [0])) := by
        rw [endAt, if_pos (Int.natCast_nonneg _), Int.toNat_natCast, List.length_map]
        exact Buffer.write_holding 0 (by omega)
      have text : (buffer.holding (piece ++ [0])).cString = .ok (piece.takeWhile (· ≠ 0)) := by
        rw [Buffer.holding, List.map_append, List.append_assoc]
        exact Buffer.cString_text piece _
      have clean : (cString (piece.takeWhile (· ≠ 0))).text = piece.takeWhile (· ≠ 0) :=
        List.takeWhile_idem
      have printed : emit 0xffe [.str (cString (piece.takeWhile (· ≠ 0))).text 0 32] =
          piece.takeWhile (· ≠ 0) := by
        have fits : (piece.takeWhile (· ≠ 0)).length ≤ 0xffe :=
          (List.takeWhile_sublist _).length_le.trans (by omega)
        rw [clean, Printf.emit_str, Printf.emit_nil, List.append_nil, List.take_of_length_le fits]
      have found : items [37, 115] [.str (cString (piece.takeWhile (· ≠ 0)))] =
          some [.str (cString (piece.takeWhile (· ≠ 0))).text 0 32] := rfl
      refine .ofExcept_bind ended (.ofExcept_bind text ?_)
      have mem' := List.mem_cons_of_mem
        (file, Object.tarFSFile { f with curPos := min (f.curPos + 63) F.length }) mem
      refine .bind (printf_terminal mem' shown (by decide) found) fun _ => ?_
      rw [printed]
      by_cases last : piece = []
      · subst last
        have behind : F.length ≤ f.curPos := by
          have none : ((F.drop f.curPos).take 63).length = 0 := congrArg List.length piece_eq
          rw [List.length_take, List.length_drop] at none
          omega
        have ended : F.drop f.curPos = [] := List.drop_eq_nil_of_le behind
        have stays : min (f.curPos + 63) F.length = F.length := by omega
        rw [ended, texts_nil, stays]
        exact .ret _ fun _ _ run => run
      · have more : F.drop f.curPos ≠ [] := by
          intro none
          rw [none] at piece_eq
          exact last piece_eq.symm
        have positive : (0 : Int) < piece.length :=
          Int.natCast_pos.mpr (List.length_pos_iff.mpr last)
        have fuel' : rounds (F.drop (min (f.curPos + 63) F.length)).length ≤ fuel := by
          rw [rounds_drop more] at enough
          rw [rest]
          exact Nat.le_of_succ_le_succ enough
        have room : (piece ++ [0]).length ≤ buffer.length := by
          rw [List.length_append, List.length_singleton]
          omega
        rw [if_pos positive, texts_cons more, piece_eq, List.map_cons,
          List.append_cons out _ (List.map _ _), ← rest]
        exact ih ((Buffer.length_holding room).trans size) (holds.at _) (Nat.min_le_right _ _) fuel'

theorem main_prints {cmdline : CString} {rest : List UInt8} {fuel : Nat}
    (text : cmdline.text = 47 :: rest) (short : ∀ c ∈ leading 47 rest, c.length < 256)
    (opens : p.Opens rest (some (.tarFSFile f))) (holds : Holds p.hw.archive f F)
    (fresh : f.curPos = 0) (reads : ∀ n c, p.hw.archive.succeeds n c = true)
    (mem : (console, .terminalFile d) ∈ held) (shown : p.hw.console d = true)
    (enough : rounds F.length ≤ fuel) :
    p.Meets (Running p (left + 1) held out) (main fuel console cmdline) fun r ops w =>
      r = 0 ∧ ∃ held', (console, .terminalFile d) ∈ held' ∧
        Running p left held' (out ++ (texts F).map fun text => (d, text)) ops w := by
  have proper : 0 ∉ rest := fun mem => cmdline.proper (text ▸ List.mem_cons_of_mem 47 mem)
  have whole : F.drop f.curPos = F := by
    rw [fresh]
    rfl
  rw [main, text, if_neg (List.cons_ne_nil _ _)]
  refine .bind (openFile_some opens proper short) fun file => .of_fact fun fine => ?_
  rw [fine]
  have printed : p.Meets (Running p left ((file, .tarFSFile f) :: held) out)
      (copyLoop console file fuel (.new 64)) fun _ =>
        Running p left ((file, .tarFSFile { f with curPos := F.length }) :: held)
          (out ++ (texts (F.drop f.curPos)).map fun text => (d, text)) :=
    copyLoop_prints reads mem shown fuel (Buffer.length_new 64) holds (fresh ▸ Nat.zero_le _)
      (by rwa [whole])
  rw [whole] at printed
  refine .bind printed fun _ => ?_
  refine .bind (close_file List.mem_cons_self fun _ => Object.noConfusion) fun _ => ?_
  exact .ret _ fun ops w run => ⟨rfl, _, List.mem_cons_of_mem _ mem, run⟩

/-- The error for a path, cut off where the array of `printf` ends. -/
def errorText (path : List UInt8) : List UInt8 :=
  (errorFormat.take 28 ++ path ++ errorFormat.drop 30).take 0xffe

theorem error_items (cmdline : CString) : ∃ its,
    items errorFormat [.str cmdline] = some its ∧ emit 0xffe its = errorText cmdline.text := by
  refine ⟨(errorFormat.take 28).map .char ++ .str cmdline.text 0 32 ::
    (errorFormat.drop 30).map .char, rfl, ?_⟩
  exact Printf.emit_around _ _ _ 32 0xffe

theorem main_missing {cmdline : CString} {rest : List UInt8} {fuel : Nat}
    (text : cmdline.text = 47 :: rest) (short : ∀ c ∈ leading 47 rest, c.length < 256)
    (opens : p.Opens rest none) (mem : (console, .terminalFile d) ∈ held)
    (shown : p.hw.console d = true) :
    p.Meets (Running p left held out) (main fuel console cmdline) fun r ops w =>
      r = 1 ∧ ∃ held', (console, .terminalFile d) ∈ held' ∧
        Running p left held' (out ++ [(d, errorText cmdline.text)]) ops w := by
  have proper : 0 ∉ rest := fun mem => cmdline.proper (text ▸ List.mem_cons_of_mem 47 mem)
  have clean : 0 ∉ errorFormat := by decide
  obtain ⟨its, found, printed⟩ := error_items cmdline
  rw [← printed, main, text, if_neg (List.cons_ne_nil _ _)]
  -- with the format spelled out Lean would print it
  generalize errorFormat = fmt at found clean ⊢
  refine .bind (openFile_none opens proper short) fun file => .of_fact fun failed => ?_
  rw [failed]
  refine .bind (printf_terminal mem shown clean found) fun _ => ?_
  exact .ret _ fun ops w run => ⟨rfl, held, mem, run⟩

end Runs

section Boot
variable {π : Type} [DecidableEq π] (process : FileCalls.ThreadId → π) (me : FileCalls.ThreadId)
  (hw : Hardware) (blockDevice : DeviceId → Option Fs.Device) {devices : DeviceManager}
  {bootDeviceName : Fs.Name} {device d : DeviceId} {dev : Fs.BlockDevice} {A : Fs.Archive dev}
  {pre post : List Fs.Placed} {x : Fs.Placed} {spare : Nat}

/-- After the start of the kernel `cat` prints a file of the archive, whatever other processes do
meanwhile, unless they halt the kernel: in pieces, each up to its first NUL, so a file without NULs
as a whole. -/
theorem cat_prints (room : 12 ≤ spare) (named : bootDeviceName ≠ [])
    (found : devices.tryGetDeviceByName bootDeviceName = some device)
    (block : blockDevice device = some dev.device) (archive : hw.archive = dev.device)
    (reads : ∀ b, ∃ block, dev.readBlock b = some block)
    (registered : devices.tryGetDeviceByName consoleName = some d)
    (terminal : hw.terminal d = true) (shown : hw.console d = true)
    (split : A.entries = pre ++ x :: post) (file : x.entry.kind = .file)
    (last : ∀ y ∈ post, y.entry.path ≠ x.entry.path) (early : x.header < 2 ^ 31)
    (short : ∀ c ∈ x.entry.path, c.length < 256) :
    ∃ tree log, (startTree blockDevice spare bootDeviceName tarfsName).runOn (initial devices) [] =
        (.ok ((), tree), log) ∧
      ∀ (cmdline : CString) (fuel : Nat) (turns : List (List Act)) (log' : List Fs.ReadCall),
        cmdline.text = 47 :: [47].intercalate (usrName :: x.entry.path) →
        rounds x.entry.data.length ≤ fuel → (∀ op ∈ turns.flatten, op.Foreign process me) →
        1 + (turns.flatten.length + 2) < Om.errorHandle →
        ((start (main fuel) cmdline).run (serve hw process me) (perform hw process) turns
          (.boot tree) log').Ends fun rc _ w => rc = 0 ∧
            w.writtenBy me = ((texts x.entry.data).map fun text => (d, text)) ∧
            (0 ∉ x.entry.data → ((w.writtenBy me).map Prod.snd).flatten = x.entry.data) := by
  obtain ⟨tree, log, started, rooted, devices', built⟩ := archive_mounted room A named found block
  refine ⟨tree, log, started, ?_⟩
  intro cmdline fuel turns log' text enough foreign room
  let p : Place π := ⟨hw, process, tree.pfs, 0, me⟩
  have succeeds : ∀ n c, p.hw.archive.succeeds n c = true := by
    change ∀ n c, hw.archive.succeeds n c = true
    rw [archive]
    exact Fs.device_succeeds reads
  have console : p.Opens ([47].intercalate [devName, consoleName]) (some (.terminalFile d)) :=
    opens_device (by decide) (devices'.symm ▸ registered) terminal
  obtain ⟨f, opens, fresh, holds⟩ := opens_file (p := p) archive reads built split file last early
  have ends := start_ends rooted console (fun console => main_prints text
    (leading_usr_short x.entry.components short) opens (archive ▸ holds) fresh succeeds
    List.mem_cons_self shown enough) foreign room log'
  refine ends.mono ?_
  rintro rc _ w ⟨rfl, written⟩
  rw [List.nil_append] at written
  refine ⟨rfl, written, fun proper => ?_⟩
  rw [written, List.map_map]
  exact (congrArg List.flatten (List.map_id (texts x.entry.data))).trans (texts_flatten proper)

/-- The path `/usr/h` -/
def helloPath : CString := ⟨47 :: [47].intercalate [usrName, [104]], by decide⟩

theorem cat_prints_hello :
    ∃ (devices : DeviceManager) (tree : Tree) (log : List Fs.ReadCall),
      (startTree (fun _ => some Fs.helloDevice.device) 12 ataName tarfsName).runOn
        (initial devices) [] = (.ok ((), tree), log) ∧
      ((start (main 2) helloPath).run (serve helloHardware id 0) (perform helloHardware id)
        helloTurns (.boot tree) []).Ends fun rc _ w => rc = 0 ∧
          w.writtenBy 0 = [(1, Fs.hello.data), (1, [])] ∧
          (0 ∉ Fs.hello.data → ((w.writtenBy 0).map Prod.snd).flatten = Fs.hello.data) := by
  obtain ⟨devices, found, registered⟩ := two_devices
  have only : Fs.helloArchive.entries = [] ++ ⟨0, Fs.hello⟩ :: [] := rfl
  obtain ⟨tree, log, started, prints⟩ := cat_prints id 0 helloHardware
    (fun _ => some Fs.helloDevice.device) (Nat.le_refl 12) (List.cons_ne_nil _ _) found rfl rfl
    Fs.helloDevice_reads registered rfl rfl only rfl nofun (by decide) (by decide)
  have printed : texts Fs.hello.data = [Fs.hello.data, []] := by decide
  have room : 1 + (helloTurns.flatten.length + 2) < Om.errorHandle := by decide
  have text : helloPath.text = 47 :: [47].intercalate (usrName :: Fs.hello.path) := rfl
  have enough : rounds Fs.hello.data.length ≤ 2 := by decide
  refine ⟨devices, tree, log, started, ?_⟩
  have foreign := helloTurns_foreign
  -- with these turns spelled out Lean would run the program
  generalize helloTurns = turns at foreign room ⊢
  have ends := prints helloPath 2 turns [] text enough foreign room
  rw [printed] at ends
  exact ends

/-- Of a path that leads nowhere it prints the error, and exits with 1. -/
theorem cat_missing {path : List Fs.Name} (room : 12 ≤ spare) (named : bootDeviceName ≠ [])
    (found : devices.tryGetDeviceByName bootDeviceName = some device)
    (block : blockDevice device = some dev.device)
    (registered : devices.tryGetDeviceByName consoleName = some d)
    (terminal : hw.terminal d = true) (shown : hw.console d = true)
    (components : ∀ c ∈ path, c ≠ [] ∧ 0 ∉ c ∧ 47 ∉ c) (short : ∀ c ∈ path, c.length < 256)
    (nonempty : path ≠ []) (apart : Fs.Apart (path :: Fs.paths A.entries))
    (absent : ∀ y ∈ A.entries, ¬ path <+: y.entry.path) :
    ∃ tree log, (startTree blockDevice spare bootDeviceName tarfsName).runOn (initial devices) [] =
        (.ok ((), tree), log) ∧
      ∀ (cmdline : CString) (fuel : Nat) (turns : List (List Act)) (log' : List Fs.ReadCall),
        cmdline.text = 47 :: [47].intercalate (usrName :: path) →
        (∀ op ∈ turns.flatten, op.Foreign process me) →
        1 + (turns.flatten.length + 1) < Om.errorHandle →
        ((start (main fuel) cmdline).run (serve hw process me) (perform hw process) turns
          (.boot tree) log').Ends fun rc _ w => rc = 1 ∧
            w.writtenBy me = [(d, errorText cmdline.text)] := by
  obtain ⟨tree, log, started, rooted, devices', built⟩ := archive_mounted room A named found block
  refine ⟨tree, log, started, ?_⟩
  intro cmdline fuel turns log' text foreign room
  let p : Place π := ⟨hw, process, tree.pfs, 0, me⟩
  have console : p.Opens ([47].intercalate [devName, consoleName]) (some (.terminalFile d)) :=
    opens_device (by decide) (devices'.symm ▸ registered) terminal
  have opens : p.Opens ([47].intercalate (usrName :: path)) none :=
    opens_missing built components nonempty apart absent
  exact start_ends rooted console (fun console => main_missing text
    (leading_usr_short components short) opens List.mem_cons_self shown) foreign room log'

/-- The path `/usr/x` -/
def missingPath : CString := ⟨47 :: [47].intercalate [usrName, [120]], by decide⟩

theorem missing_apart : Fs.Apart ([[120]] :: Fs.paths Fs.helloArchive.entries) := by
  have names : ∀ p ∈ [[120]] :: Fs.paths Fs.helloArchive.entries, ∀ l c, l ++ [c] <+: p →
      c = [120] ∨ c = [104] := by
    intro p mem l c along
    have inside : c ∈ p := along.subset (by simp)
    rcases List.mem_pair.mp mem with rfl | rfl
    · exact .inl (List.mem_singleton.mp inside)
    · exact .inr (List.mem_singleton.mp inside)
  intro p hp q hq l c d hc hd same
  rcases names p hp l c hc with rfl | rfl <;> rcases names q hq l d hd with rfl | rfl
  · rfl
  · exact absurd same (by decide)
  · exact absurd same (by decide)
  · rfl

theorem cat_missing_hello :
    ∃ (devices : DeviceManager) (tree : Tree) (log : List Fs.ReadCall),
      (startTree (fun _ => some Fs.helloDevice.device) 12 ataName tarfsName).runOn
        (initial devices) [] = (.ok ((), tree), log) ∧
      ((start (main 0) missingPath).run (serve helloHardware id 0) (perform helloHardware id)
        helloTurns (.boot tree) []).Ends fun rc _ w => rc = 1 ∧
          w.writtenBy 0 = [(1, errorText missingPath.text)] := by
  obtain ⟨devices, found, registered⟩ := two_devices
  have absent : ∀ y ∈ Fs.helloArchive.entries, ¬ [[120]] <+: y.entry.path := by
    intro y mem
    rw [List.mem_singleton.mp mem]
    decide
  obtain ⟨tree, log, started, prints⟩ := cat_missing id 0 helloHardware
    (fun _ => some Fs.helloDevice.device) (Nat.le_refl 12) (List.cons_ne_nil _ _) found rfl
    registered rfl rfl (by decide) (by decide) (List.cons_ne_nil _ _) missing_apart absent
  have room : 1 + (helloTurns.flatten.length + 1) < Om.errorHandle := by decide
  have text : missingPath.text = 47 :: [47].intercalate [usrName, [120]] := rfl
  refine ⟨devices, tree, log, started, ?_⟩
  have foreign := helloTurns_foreign
  generalize helloTurns = turns at foreign room ⊢
  exact prints missingPath 0 turns [] text foreign room

end Boot
end Infos.User.Cat
