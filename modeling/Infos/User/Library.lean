import Infos.Fs.HeaderNames
import Infos.Fs.TarfsSame
import Infos.Kernel.FileRuns
import Infos.Util.PrintfText

/-!
# The user library

The calls of programs, and what a program may rely on from one to the next, whatever other
processes do in between: its handles, where it is in its files, and what it has written.
-/
namespace Infos.User
open Infos.Lib Infos.Util Infos.Kernel Infos.Kernel.FileCalls Infos.Fs.Namespace Function
open Infos.Kernel.Om (errorHandle getObjectSecure)
open Infos.Util.Printf (Arg CString Item emit items vsnprintf)
open Infos.Fs (Device DeviceExec Holds Memory NodeId ReadCall TarFSFile)

abbrev UserProgram (α : Type) := Program Call Call.Answer α

def openFile (file : List UInt8) : UserProgram Nat := .ask (Call.openFile file)

def close (file : Nat) : UserProgram Int := .ask (Call.close file)

def read (file size : Nat) : UserProgram (Int × Memory) := .ask (Call.read file size)

def write (file : Nat) (bytes : List UInt8) : UserProgram Int := .ask (Call.write file bytes)

def opendir (path : List UInt8) : UserProgram Nat := .ask (Call.opendir path)

def readdir (dir : Nat) : UserProgram (Option (List UInt8 × Nat)) := .ask (Call.readdir dir)

def closedir (dir : Nat) : UserProgram Int := .ask (Call.closedir dir)

def isError (handle : Nat) : Bool := handle = errorHandle

/-- The text in front of the first NUL. -/
def cString (memory : List UInt8) : CString := ⟨memory.takeWhile (· ≠ 0), notMem_takeWhile 0 memory⟩

theorem cString_proper {memory : List UInt8} (proper : 0 ∉ memory) :
    (cString memory).text = memory :=
  List.takeWhile_eq_self_iff.mpr fun _ mem => decide_eq_true fun zero => proper (zero ▸ mem)

/-- The array has 0x1000 cells, of which `vsnprintf` may use all but the last. -/
def printf (console : Nat) (fmt : List UInt8) (args : List Arg) : UserProgram Nat := do
  let (rc, buffer) ← .ofExcept (vsnprintf (.new 0x1000) 0xfff (fmt ++ [0]) args)
  let bytes ← .ofExcept (buffer.first rc)
  let _ ← write console bytes
  pure rc

/-- The name `console` -/
def consoleName : Fs.Name := [99, 111, 110, 115, 111, 108, 101]

/-- The path `/dev/console` -/
def consolePath : List UInt8 := 47 :: [47].intercalate [devName, consoleName]

/-- The result is the code that the program exits with. -/
def start (main : Nat → CString → UserProgram Int) (cmdline : CString) : UserProgram Int := do
  let consoleHandle ← openFile consolePath
  if isError consoleHandle then pure 1
  else do
    let rc ← main consoleHandle cmdline
    let _ ← close consoleHandle
    pure rc

/-- Where a program runs, as the thread `me`. -/
structure Place (π : Type) where
  hw : Hardware
  process : FileCalls.ThreadId → π
  mounts : Mounts
  root : NodeId
  me : FileCalls.ThreadId

/-- The program may ask for `left` more handles, holds `held` and has written `out`. -/
structure Running {π : Type} (p : Place π) (left : Nat) (held : List (Nat × Object))
    (out : List (DeviceId × List UInt8)) (ops : List Act) (w : World) : Prop where
  inv : Inv p.mounts p.root w
  foreign : ∀ op ∈ ops, op.Foreign p.process p.me
  room : w.om.nextHandle + (ops.length + left) < errorHandle
  owns : ∀ e ∈ held, Owns p.me e.1 e.2 w
  distinct : (held.map Prod.fst).Nodup
  written : w.writtenBy p.me = out

section Rules
variable {π : Type} {p : Place π} {left h size : Nat}
  {held : List (Nat × Object)} {out : List (DeviceId × List UInt8)} {object : Object}
  {ops : List Act} {w : World} {log : List ReadCall} {rest bytes : List UInt8} {d : DeviceId}

def Place.Meets [DecidableEq π] {α : Type} (p : Place π) (P : List Act → World → Prop)
    (x : UserProgram α) (Q : α → List Act → World → Prop) : Prop :=
  Program.Meets (serve p.hw p.process p.me) (perform p.hw p.process) P x Q

theorem errorHandle_small : errorHandle < 2 ^ 64 := by decide

theorem running_boot {tree : Tree} (rooted : Rooted p.mounts p.root tree)
    (foreign : ∀ op ∈ ops, op.Foreign p.process p.me)
    (room : 1 + (ops.length + left) < errorHandle) :
    Running p left [] [] ops (.boot tree) :=
  ⟨.boot rooted, foreign, room, fun _ none => absurd none List.not_mem_nil, List.nodup_nil, rfl⟩

theorem running_stable [DecidableEq π] (p : Place π) (left : Nat) (held : List (Nat × Object))
    (out : List (DeviceId × List UInt8)) :
    Program.Stable (perform p.hw p.process) (Running p left held out) := by
  intro op ops w log w' log' h run
  have room := h.room
  have bound := errorHandle_small
  rw [List.length_cons] at room
  have u := perform_undisturbed h.inv (by omega) (h.foreign op List.mem_cons_self) run
  have count := u.count
  refine ⟨u.inv, fun op' mem => h.foreign op' (List.mem_cons_of_mem op mem), by omega,
    fun e mem => u.owns e.1 e.2 (h.owns e mem), h.distinct, u.written.trans h.written⟩

theorem withObject_run [DecidableEq π] {α : Type} {missing : α}
    {body : ObjectId → Object → DeviceExec World α} {t : FileCalls.ThreadId}
    (process : FileCalls.ThreadId → π) (owns : Owns t h object w) (log : List ReadCall) :
    ∃ o, getObjectSecure process w.om t h = some o ∧ w.objects o = object ∧
      w.om.objects.tryGetValue h = some ⟨t, some o⟩ ∧
      (withObject process t h missing body).runOn w log = (body o object).runOn w log := by
  obtain ⟨o, there, value⟩ := owns
  have mine : getObjectSecure process w.om t h = some o := by
    rw [getObjectSecure, there]
    exact if_neg fun other => other rfl
  refine ⟨o, mine, value, there, ?_⟩
  rw [withObject, Calls.runOn_bind_ok (Calls.runOn_get w log), mine, ← value]

/-! ### Opening -/

theorem nodeAt_run {mounts : Mounts} {root : NodeId} (inv : Inv mounts root w) (proper : 0 ∉ rest)
    (short : ∀ c ∈ leading 47 rest, c.length < 256) (log : List ReadCall) :
    ∃ tree, (nodeAt (47 :: rest)).runOn w log =
        (.ok (mounts.meaning root (leading 47 rest), { w with tree }), log) ∧
      Rooted mounts root tree := by
  obtain ⟨v, tree, run, rooted, ends⟩ := inv.rooted.lookupNode proper short
  have looked : (Calls.zoom World.tree (fun w tree => { w with tree })
      (Calls.ofExec (Fs.LookupNode.lookupNode filesystems (47 :: rest)))).runOn w log =
      (.ok (v, { w with tree }), log) := by
    rw [Calls.runOn_zoom, Calls.runOn_ofExec, run]
  refine ⟨tree, ?_, rooted⟩
  unfold nodeAt
  rw [Calls.runOn_bind_ok looked]
  cases v with
  | none =>
      cases meaning : mounts.meaning root (leading 47 rest) with
      | none => rfl
      | some pn =>
          rw [meaning] at ends
          cases ends
  | some v =>
      cases meaning : mounts.meaning root (leading 47 rest) with
      | none =>
          rw [meaning] at ends
          cases ends
      | some pn =>
          rw [meaning] at ends
          have wraps : (tree.vnodes v).pn = some pn := Option.some.inj ends
          dsimp only
          rw [Calls.runOn_bind_ok (Calls.runOn_get _ log)]
          dsimp only
          rw [wraps]
          rfl

/-- What opening the path gives. -/
def Place.Opens (p : Place π) (rest : List UInt8) (r : Option Object) : Prop :=
  match p.mounts.meaning p.root (leading 47 rest) with
  | none => r = none
  | some pn => ∀ w log, w.tree.pfs = p.mounts →
      ∃ log', (openNode p.hw pn).runOn w log = (.ok (r, w), log')

theorem sysOpen_run {r : Option Object} (inv : Inv p.mounts p.root w)
    (proper : 0 ∉ rest) (short : ∀ c ∈ leading 47 rest, c.length < 256) (opens : p.Opens rest r)
    (log : List ReadCall) : ∃ tree log', Rooted p.mounts p.root tree ∧
      (sysOpen p.hw p.me (47 :: rest)).runOn w log =
        (handleFor p.me r).runOn { w with tree } log' := by
  obtain ⟨tree, looked, rooted⟩ := nodeAt_run inv proper short log
  unfold Place.Opens at opens
  unfold sysOpen
  rw [Calls.runOn_bind_ok looked]
  cases meaning : p.mounts.meaning p.root (leading 47 rest) with
  | none =>
      rw [meaning] at opens
      subst opens
      exact ⟨tree, log, rooted, rfl⟩
  | some pn =>
      rw [meaning] at opens
      obtain ⟨log', opened⟩ := opens { w with tree } log rooted.mounts
      exact ⟨tree, log', rooted, Calls.runOn_bind_ok opened⟩

theorem handleFor_run {tree : Tree} (run : Running p (left + 1) held out ops w)
    (rooted : Rooted p.mounts p.root tree) (object : Object) (log : List ReadCall) :
    ∃ handle w', (handleFor p.me (some object)).runOn { w with tree } log =
        (.ok (handle, w'), log) ∧
      isError handle = false ∧ Running p left ((handle, object) :: held) out ops w' := by
  have room := run.room
  have bound := errorHandle_small
  have few : w.om.nextHandle + 1 < 2 ^ 64 := by omega
  obtain ⟨w', made, inv, leaves, owns, others, written⟩ :=
    (run.inv.tree rooted).register_run p.process p.me few object log
  have count : w'.om.nextHandle ≤ w.om.nextHandle + 1 := leaves.count.2
  have proper : w.om.nextHandle ≠ errorHandle := by omega
  refine ⟨w.om.nextHandle, w', made, decide_eq_false proper, inv, run.foreign, by omega, ?_, ?_, ?_⟩
  · intro e mem
    rcases List.mem_cons.mp mem with rfl | mem
    · exact owns
    · exact (others p.me e.1 e.2 (run.owns e mem)).2
  · rw [List.map_cons, List.nodup_cons]
    refine ⟨?_, run.distinct⟩
    rintro mem
    obtain ⟨e, mem', same⟩ := List.mem_map.mp mem
    exact (others p.me e.1 e.2 (run.owns e mem')).1 same
  · rw [World.writtenBy, written]
    exact run.written

theorem openFile_some [DecidableEq π] (opens : p.Opens rest (some object)) (proper : 0 ∉ rest)
    (short : ∀ c ∈ leading 47 rest, c.length < 256) :
    p.Meets (Running p (left + 1) held out) (openFile (47 :: rest)) fun h ops w =>
      isError h = false ∧ Running p left ((h, object) :: held) out ops w := by
  refine Program.Meets.ask (running_stable p _ held out) fun ops w log run => ?_
  obtain ⟨tree, log₁, rooted, opened⟩ := sysOpen_run run.inv proper short opens log
  obtain ⟨handle, w', given, fine, run'⟩ := handleFor_run run rooted object log₁
  exact ⟨handle, w', log₁, opened.trans given, fine, run'⟩

theorem openFile_none [DecidableEq π] (opens : p.Opens rest none) (proper : 0 ∉ rest)
    (short : ∀ c ∈ leading 47 rest, c.length < 256) :
    p.Meets (Running p left held out) (openFile (47 :: rest)) fun h ops w =>
      isError h = true ∧ Running p left held out ops w := by
  refine Program.Meets.ask (running_stable p _ held out) fun ops w log h => ?_
  obtain ⟨tree, log₁, rooted, opened⟩ := sysOpen_run h.inv proper short opens log
  exact ⟨errorHandle, { w with tree }, log₁, opened, rfl, h.inv.tree rooted, h.foreign, h.room,
    h.owns, h.distinct, h.written⟩

/-- The directory that a path leads to. -/
def Place.directory (p : Place π) (rest : List UInt8) : Option Directory :=
  (p.mounts.meaning p.root (leading 47 rest)).bind (directoryOf p.mounts)

theorem sysOpendir_run (inv : Inv p.mounts p.root w) (proper : 0 ∉ rest)
    (short : ∀ c ∈ leading 47 rest, c.length < 256) (log : List ReadCall) :
    ∃ tree, Rooted p.mounts p.root tree ∧ (sysOpendir p.me (47 :: rest)).runOn w log =
      (handleFor p.me ((p.directory rest).map .directory)).runOn { w with tree } log := by
  obtain ⟨tree, looked, rooted⟩ := nodeAt_run inv proper short log
  refine ⟨tree, rooted, ?_⟩
  unfold sysOpendir Place.directory
  rw [Calls.runOn_bind_ok looked]
  cases p.mounts.meaning p.root (leading 47 rest) with
  | none => rfl
  | some pn =>
      dsimp only
      rw [Calls.runOn_bind_ok (Calls.runOn_get _ log)]
      dsimp only
      rw [rooted.mounts]
      rfl

theorem opendir_some [DecidableEq π] {dir : Directory} (found : p.directory rest = some dir)
    (proper : 0 ∉ rest) (short : ∀ c ∈ leading 47 rest, c.length < 256) :
    p.Meets (Running p (left + 1) held out) (opendir (47 :: rest)) fun h ops w =>
      isError h = false ∧ Running p left ((h, .directory dir) :: held) out ops w := by
  refine Program.Meets.ask (running_stable p _ held out) fun ops w log run => ?_
  obtain ⟨tree, rooted, opened⟩ := sysOpendir_run run.inv proper short log
  rw [found] at opened
  obtain ⟨handle, w', given, fine, run'⟩ := handleFor_run run rooted (.directory dir) log
  exact ⟨handle, w', log, opened.trans given, fine, run'⟩

/-! ### With a handle -/

theorem setObject_running {o : ObjectId} (run : Running p left ((h, object) :: held) out ops w)
    (owned : w.om.objects.tryGetValue h = some ⟨p.me, some o⟩) (object' : Object) :
    Running p left ((h, object') :: held) out ops (w.setObject o object') := by
  refine ⟨run.inv.setObject o _, run.foreign, run.room, ?_, run.distinct, run.written⟩
  intro e mem
  rcases List.mem_cons.mp mem with rfl | mem'
  · exact setObject_owns owned _
  · refine run.inv.setObject_owns_other owned _ (run.owns e (List.mem_cons_of_mem _ mem')) ?_
    intro same
    have inside : e.1 ∈ held.map Prod.fst := List.mem_map_of_mem mem'
    rw [same] at inside
    exact (List.nodup_cons.mp run.distinct).1 inside

theorem read_file [DecidableEq π] {f : TarFSFile} {F : List UInt8}
    (holds : Holds p.hw.archive f F) (reads : ∀ n c, p.hw.archive.succeeds n c = true)
    (inside : f.curPos ≤ F.length) (small : size < 2 ^ 31) :
    p.Meets (Running p left ((h, .tarFSFile f) :: held) out) (read h size) fun r ops w =>
      r = ((((F.drop f.curPos).take size).length : Int), ((F.drop f.curPos).take size).map some) ∧
      Running p left ((h, .tarFSFile { f with curPos := min (f.curPos + size) F.length }) :: held)
        out ops w := by
  refine Program.Meets.ask (running_stable p _ _ out) fun ops w log run => ?_
  obtain ⟨o, mine, value, owned, served⟩ :=
    withObject_run p.process (run.owns _ List.mem_cons_self) log
  obtain ⟨log', piece⟩ := Fs.read_run holds reads inside small log
  let f' : TarFSFile := { f with curPos := min (f.curPos + size) F.length }
  refine ⟨_, w.setObject o (.tarFSFile f'), log', ?_, rfl, setObject_running run owned _⟩
  change (sysRead p.hw p.process p.me h size).runOn w log = _
  unfold sysRead
  rw [served]
  dsimp only
  rw [Calls.runOn_zoom, piece]
  rfl

theorem readdir_some [DecidableEq π] {dir : Directory} {e : DirectoryEntry}
    (next : dir.entries[dir.currentEntry]? = some e) :
    p.Meets (Running p left ((h, .directory dir) :: held) out) (readdir h) fun r ops w =>
      r = some ((e.name.takeWhile (· ≠ 0)).take 62, e.size) ∧
      Running p left ((h, .directory { dir with currentEntry := dir.currentEntry + 1 }) :: held)
        out ops w := by
  refine Program.Meets.ask (running_stable p _ _ out) fun ops w log run => ?_
  obtain ⟨o, mine, value, owned, served⟩ :=
    withObject_run p.process (run.owns _ List.mem_cons_self) log
  refine ⟨_, w.setObject o (.directory { dir with currentEntry := dir.currentEntry + 1 }), log, ?_,
    rfl, setObject_running run owned _⟩
  change (sysReaddir p.process p.me h).runOn w log = _
  unfold sysReaddir
  rw [served]
  dsimp only
  rw [next]
  rfl

theorem readdir_none [DecidableEq π] {dir : Directory}
    (behind : dir.entries[dir.currentEntry]? = none) :
    p.Meets (Running p left ((h, .directory dir) :: held) out) (readdir h) fun r ops w =>
      r = none ∧ Running p left ((h, .directory dir) :: held) out ops w := by
  refine Program.Meets.ask (running_stable p _ _ out) fun ops w log run => ?_
  obtain ⟨o, mine, value, owned, served⟩ :=
    withObject_run p.process (run.owns _ List.mem_cons_self) log
  refine ⟨_, w, log, ?_, rfl, run⟩
  change (sysReaddir p.process p.me h).runOn w log = _
  unfold sysReaddir
  rw [served]
  dsimp only
  rw [behind]
  rfl

theorem closedir_directory [DecidableEq π] {dir : Directory} :
    p.Meets (Running p left ((h, .directory dir) :: held) out) (closedir h) fun _ ops w =>
      ∃ dir', Running p left ((h, .directory dir') :: held) out ops w := by
  refine Program.Meets.ask (running_stable p _ _ out) fun ops w log run => ?_
  obtain ⟨o, mine, value, owned, served⟩ :=
    withObject_run p.process (run.owns _ List.mem_cons_self) log
  cases simple : dir.simple with
  | false =>
      refine ⟨(0 : Int), w, log, ?_, dir, run⟩
      change (sysClosedir p.process p.me h).runOn w log = _
      unfold sysClosedir
      rw [served]
      dsimp only
      rw [simple]
      rfl
  | true =>
      refine ⟨(0 : Int), w.setObject o (.directory { dir with entries := [] }), log, ?_, _,
        setObject_running run owned _⟩
      change (sysClosedir p.process p.me h).runOn w log = _
      unfold sysClosedir
      rw [served]
      dsimp only
      rw [simple]
      rfl

theorem write_terminal [DecidableEq π] (mem : (h, .terminalFile d) ∈ held)
    (console : p.hw.console d = true) :
    p.Meets (Running p left held out) (write h bytes) fun _ =>
      Running p left held (out ++ [(d, bytes)]) := by
  refine Program.Meets.ask (running_stable p _ _ out) fun ops w log run => ?_
  obtain ⟨o, mine, value, owned, served⟩ := withObject_run p.process (run.owns _ mem) log
  let w' : World := { w with written := w.written ++ [(p.me, d, bytes)] }
  refine ⟨toInt32 bytes.length, w', log, ?_, ⟨run.inv.rooted, run.inv.sound, run.inv.known,
    run.inv.apart⟩, run.foreign, run.room, run.owns, run.distinct, ?_⟩
  · change (sysWrite p.hw p.process p.me h bytes).runOn w log = _
    unfold sysWrite
    rw [served]
    dsimp only
    rw [if_pos console]
    rfl
  · rw [← run.written]
    simp [World.writtenBy, w']

theorem close_file [DecidableEq π] (mem : (h, object) ∈ held)
    (file : ∀ d, object ≠ .directory d) :
    p.Meets (Running p left held out) (close h) fun _ => Running p left held out := by
  refine Program.Meets.ask (running_stable p _ _ out) fun ops w log run => ?_
  obtain ⟨o, mine, value, owned, served⟩ := withObject_run p.process (run.owns _ mem) log
  refine ⟨(0 : Int), w, log, ?_, run⟩
  change (sysClose p.process p.me h).runOn w log = _
  unfold sysClose
  rw [served]
  cases object with
  | directory d => exact absurd rfl (file d)
  | _ => rfl

/-! ### Printing -/

theorem printf_terminal [DecidableEq π] {fmt : List UInt8} {args : List Arg} {its : List Item}
    (mem : (h, .terminalFile d) ∈ held) (console : p.hw.console d = true) (proper : 0 ∉ fmt)
    (found : items fmt args = some its) :
    p.Meets (Running p left held out) (printf h fmt args) fun _ =>
      Running p left held (out ++ [(d, emit 0xffe its)]) := by
  have longer : 0xfff ≤ (Buffer.new 0x1000).length := by
    rw [Buffer.length_new]
    decide
  have formatted := Printf.vsnprintf_run (by decide) longer proper found
  have bytes : ((Buffer.new 0x1000).holding (emit 0xffe its ++ [0])).first (emit 0xffe its).length =
      .ok (emit 0xffe its) := by
    rw [Buffer.holding, List.map_append, List.append_assoc]
    exact Buffer.first_append _ _
  refine .ofExcept_bind formatted (.ofExcept_bind bytes ?_)
  exact .bind (write_terminal mem console) fun _ => .ret _ fun _ _ run => run

/-- Without a console a program exits with 1; otherwise its `main` runs with a handle for it. -/
theorem start_main [DecidableEq π] {main : Nat → CString → UserProgram Int} {cmdline : CString}
    {out' : List (DeviceId × List UInt8)} {rc : Int}
    (opens : p.Opens ([47].intercalate [devName, consoleName]) (some (.terminalFile d)))
    (runs : ∀ console, p.Meets (Running p left [(console, .terminalFile d)] out)
      (main console cmdline) fun r ops w => r = rc ∧ ∃ held, (console, .terminalFile d) ∈ held ∧
        Running p 0 held out' ops w) :
    p.Meets (Running p (left + 1) [] out) (start main cmdline) fun r _ w =>
      r = rc ∧ w.writtenBy p.me = out' := by
  have names : leading 47 ([47].intercalate [devName, consoleName]) = [devName, consoleName] :=
    leading_intercalate (by decide) (List.cons_ne_nil _ _)
  have opened : p.Meets (Running p (left + 1) [] out) (openFile consolePath) fun h ops w =>
      isError h = false ∧ Running p left [(h, .terminalFile d)] out ops w :=
    openFile_some opens (by decide) (by rw [names]; decide)
  refine .bind opened fun console => .of_fact fun fine => ?_
  rw [fine]
  refine .bind (runs console) fun r => .of_fact fun same => ?_
  refine .of_exists fun held => .of_fact fun mem => ?_
  refine .bind (close_file mem fun _ => Object.noConfusion) fun _ => .ret _ fun _ _ run => ?_
  exact ⟨same, run.written⟩

/-- A program that starts with the kernel, while other processes do what they like. -/
theorem start_ends [DecidableEq π] {main : Nat → CString → UserProgram Int} {cmdline : CString}
    {out' : List (DeviceId × List UInt8)} {rc : Int} {tree : Tree} {turns : List (List Act)}
    (rooted : Rooted p.mounts p.root tree)
    (opens : p.Opens ([47].intercalate [devName, consoleName]) (some (.terminalFile d)))
    (runs : ∀ console, p.Meets (Running p left [(console, .terminalFile d)] [])
      (main console cmdline) fun r ops w => r = rc ∧ ∃ held, (console, .terminalFile d) ∈ held ∧
        Running p 0 held out' ops w)
    (foreign : ∀ op ∈ turns.flatten, op.Foreign p.process p.me)
    (room : 1 + (turns.flatten.length + (left + 1)) < errorHandle) (log : List ReadCall) :
    ((start main cmdline).run (serve p.hw p.process p.me) (perform p.hw p.process) turns
      (.boot tree) log).Ends fun r _ w => r = rc ∧ w.writtenBy p.me = out' :=
  start_main opens runs turns (.boot tree) log (running_boot rooted foreign room)

/-! ### What paths lead to -/

theorem opens_device {name : Fs.Name} (proper : name ≠ [] ∧ 47 ∉ name)
    (found : p.mounts.devices.tryGetDeviceByName name = some d)
    (terminal : p.hw.terminal d = true) :
    p.Opens ([47].intercalate [devName, name]) (some (.terminalFile d)) := by
  have names : leading 47 ([47].intercalate [devName, name]) = [devName, name] := by
    refine leading_intercalate (fun c mem => ?_) (List.cons_ne_nil _ _)
    rcases List.mem_pair.mp mem with rfl | rfl
    · decide
    · exact proper
  have meaning : p.mounts.meaning p.root [devName, name] = some (.deviceFS d) := by
    rw [Mounts.meaning, if_pos rfl, Mounts.deviceMeaning, found]
    rfl
  unfold Place.Opens
  rw [names, meaning]
  intro w log _
  refine ⟨log, ?_⟩
  rw [openNode, terminal]
  rfl

section Archive
variable {dev : Fs.BlockDevice} {A : Fs.Archive dev} {pre post : List Fs.Placed} {x : Fs.Placed}

theorem leading_usr (path : List Fs.Name) (components : ∀ c ∈ path, c ≠ [] ∧ 0 ∉ c ∧ 47 ∉ c) :
    leading 47 ([47].intercalate (usrName :: path)) = usrName :: path := by
  refine leading_intercalate (fun c mem => ?_) (List.cons_ne_nil _ _)
  rcases List.mem_cons.mp mem with rfl | mem
  · decide
  · exact ⟨(components c mem).1, (components c mem).2.2⟩

theorem leading_usr_short {path : List Fs.Name}
    (components : ∀ c ∈ path, c ≠ [] ∧ 0 ∉ c ∧ 47 ∉ c) (short : ∀ c ∈ path, c.length < 256) :
    ∀ c ∈ leading 47 ([47].intercalate (usrName :: path)), c.length < 256 := by
  rw [leading_usr path components]
  intro c mem
  rcases List.mem_cons.mp mem with rfl | mem
  · decide
  · exact short c mem

theorem meaning_usr (m : Mounts) (root : NodeId) (path : List Fs.Name)
    (components : ∀ c ∈ path, c ≠ [] ∧ 0 ∉ c ∧ 47 ∉ c) :
    m.meaning root (leading 47 ([47].intercalate (usrName :: path))) =
      (m.tar.resolve root path).map .tarFS := by
  rw [leading_usr path components, Mounts.meaning, if_neg getHash_devName.symm, if_pos rfl]

theorem archive_mounted {blockDevice : DeviceId → Option Device} {devices : DeviceManager}
    {bootDeviceName : Fs.Name} {device : DeviceId} {spare : Nat} (room : 12 ≤ spare)
    (A : Fs.Archive dev)
    (named : bootDeviceName ≠ [])
    (found : devices.tryGetDeviceByName bootDeviceName = some device)
    (block : blockDevice device = some dev.device) :
    ∃ tree log, (startTree blockDevice spare bootDeviceName tarfsName).runOn (initial devices) [] =
        (.ok ((), tree), log) ∧
      Rooted tree.pfs 0 tree ∧ tree.pfs.devices = devices ∧
      Fs.Refines tree.pfs.tar 0 (Fs.View.of (Fs.early A.entries)) := by
  obtain ⟨tar, log, built, refines⟩ := Fs.archive_built room A
  obtain ⟨tree, started, rooted, devices', tar'⟩ := startTree_run named found block built
  exact ⟨tree, log, started, rooted, devices', tar'.symm ▸ refines⟩

theorem opens_missing {path : List Fs.Name}
    (built : Fs.Refines p.mounts.tar p.root (Fs.View.of (Fs.early A.entries)))
    (components : ∀ c ∈ path, c ≠ [] ∧ 0 ∉ c ∧ 47 ∉ c) (nonempty : path ≠ [])
    (apart : Fs.Apart (path :: Fs.paths A.entries))
    (absent : ∀ y ∈ A.entries, ¬ path <+: y.entry.path) :
    p.Opens ([47].intercalate (usrName :: path)) none := by
  have nowhere : p.mounts.tar.resolve p.root path = none := by
    cases reached : p.mounts.tar.resolve p.root path with
    | none => rfl
    | some n =>
        rcases (built.resolve_only apart reached).1 with root | ⟨y, mem, along⟩
        · exact absurd root nonempty
        · exact absurd along (absent y (Fs.mem_early.mp mem).1)
  unfold Place.Opens
  rw [meaning_usr _ _ _ components, nowhere]
  rfl

theorem openNode_run {dev : Device} {tar : Fs.TarState} {n : NodeId} {b : Nat} {f : TarFSFile}
    {log log' : List ReadCall} (header : (tar.nodes n).header = some b)
    (made : (dev.newFile b).runOn tar log = (.ok (f, tar), log')) :
    (dev.openNode n).runOn tar log = (.ok (some f, tar), log') := by
  unfold Fs.TarFSNode.header at header
  split_ifs at header with set
  cases header
  unfold Device.openNode
  rw [Calls.runOn_bind_ok (Calls.runOn_get tar log)]
  dsimp only
  rw [if_pos set, Calls.runOn_bind_ok made]
  rfl

theorem opens_file (archive : p.hw.archive = dev.device)
    (reads : ∀ b, ∃ block, dev.readBlock b = some block)
    (built : Fs.Refines p.mounts.tar p.root (Fs.View.of (Fs.early A.entries)))
    (split : A.entries = pre ++ x :: post) (file : x.entry.kind = .file)
    (last : ∀ y ∈ post, y.entry.path ≠ x.entry.path) (early : x.header < 2 ^ 31) :
    ∃ f, p.Opens ([47].intercalate (usrName :: x.entry.path)) (some (.tarFSFile f)) ∧
      f.curPos = 0 ∧ Holds dev.device f x.entry.data := by
  have mem : x ∈ A.entries := by simp [split]
  have split' : Fs.early A.entries = Fs.early pre ++ x :: Fs.early post := by
    rw [split, Fs.early, List.filter_append]
    change Fs.early pre ++ Fs.early (x :: post) = _
    rw [Fs.early_cons, if_pos early]
  have last' : ∀ y ∈ Fs.early post, y.entry.path ≠ x.entry.path := fun y mem =>
    last y (Fs.mem_early.mp mem).1
  obtain ⟨n, reached⟩ := built.resolve_present (Fs.mem_early.mpr ⟨mem, early⟩) (List.prefix_refl _)
  have apart := A.apart.cons_self (Fs.mem_paths mem)
  have header := built.header_at apart split' rfl file last' reached
  let f : TarFSFile := ⟨some (dev.device.block x.header), x.header + 1, 0⟩
  have made : ∀ {σ : Type} (s : σ) (log : List ReadCall),
      (dev.device.newFile x.header).runOn s log = (.ok (f, s), ⟨x.header, 1⟩ :: log) := fun s log =>
    Fs.newFile_run (Fs.device_succeeds reads) early log
  obtain ⟨f', run, fresh, holds⟩ := A.opened reads mem early () []
  rw [made] at run
  cases run
  refine ⟨f, ?_, fresh, holds⟩
  unfold Place.Opens
  rw [meaning_usr _ _ _ x.entry.components, reached]
  intro w log tree
  refine ⟨⟨x.header, 1⟩ :: log, ?_⟩
  have opened : (dev.device.openNode n).runOn w.tree.pfs.tar log =
      (.ok (some f, w.tree.pfs.tar), ⟨x.header, 1⟩ :: log) := by
    rw [tree]
    exact openNode_run header (made _ log)
  change (openNode p.hw (.tarFS n)).runOn w log = _
  rw [openNode, archive, Calls.runOn_bind, Calls.runOn_zoom, opened]
  rfl

end Archive
end Rules

/-! ### A machine with a single file -/

/-- The archive is on the device 0 and the console is the device 1. -/
def helloHardware : Hardware := ⟨Fs.helloDevice.device, fun d => d = 1, fun d => d = 1⟩

/-- A key is typed, and another process opens the console as well. -/
def helloTurns : List (List Act) := [[.keys 1 [65]], [.call 1 (.openFile consolePath)]]

theorem two_devices : ∃ devices : DeviceManager,
    devices.tryGetDeviceByName ataName = some 0 ∧
      devices.tryGetDeviceByName consoleName = some 1 := by
  let blank : DeviceManager := ⟨.empty, fun _ => [], fun _ => 0⟩
  have none : blank.devices.Sound := Map.empty_sound
  obtain ⟨one, -, sound, value⟩ := addDevice_run none ataName 0
  have single : ({ blank with devices := one } : DeviceManager).devices.Sound := sound
  obtain ⟨both, -, -, values⟩ := addDevice_run single consoleName 1
  refine ⟨{ blank with devices := both }, ?_, ?_⟩
  · rw [DeviceManager.tryGetDeviceByName, values, update_of_ne (by decide)]
    change one.tryGetValue _ = _
    rw [value]
    exact update_self _ _ _
  · rw [DeviceManager.tryGetDeviceByName, values]
    exact update_self _ _ _

theorem helloTurns_foreign : ∀ op ∈ helloTurns.flatten, op.Foreign id 0 := by
  intro op mem
  rcases List.mem_pair.mp mem with rfl | rfl
  · trivial
  · exact Nat.zero_ne_one

end Infos.User
