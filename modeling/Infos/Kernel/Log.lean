import Infos.Util.Lock
import Infos.Util.PrintfText

/-!
# The kernel log

`Log::messagef`, `SysLog` and `ComponentLog` for any number of threads that log at once. The
stream takes a message byte by byte, so that only `_mtx` keeps the lines apart.
-/
namespace Infos.Kernel
open Infos.Lib Infos.Util Infos.Util.Printf Function

inductive LogLevel where
  | debug
  | info
  | warning
  | error
  | fatal
  | important
  deriving DecidableEq

def LogLevel.colour : LogLevel → List UInt8
  | .debug => [27, 91, 51, 52, 59, 49, 109]
  | .info => [27, 91, 51, 50, 59, 49, 109]
  | .warning => [27, 91, 51, 50, 59, 49, 109]
  | .error => [27, 91, 51, 49, 59, 49, 109]
  | .fatal => [27, 91, 51, 49, 59, 49, 109]
  | .important => [27, 91, 51, 55, 59, 49, 59, 52, 50, 109]

/-- `"  debug: "` and the others -/
def LogLevel.label : LogLevel → List UInt8
  | .debug => [32, 32, 100, 101, 98, 117, 103, 58, 32]
  | .info => [32, 32, 32, 105, 110, 102, 111, 58, 32]
  | .warning => [119, 97, 114, 110, 105, 110, 103, 58, 32]
  | .error => [32, 32, 101, 114, 114, 111, 114, 58, 32]
  | .fatal => [32, 32, 102, 97, 116, 97, 108, 58, 32]
  | .important => [32, 110, 111, 116, 105, 99, 101, 58, 32]

/-- `"\x1b[37;0m"` -/
def colourOff : List UInt8 := [27, 91, 51, 55, 59, 48, 109]

/-- What `SysLog::message` writes under its mutex. -/
def SysLog.write (colour : Bool) (level : LogLevel) (message : List UInt8) : List UInt8 :=
  (if colour then level.colour else []) ++ level.label ++
    (if colour ∧ level ≠ .important then colourOff else []) ++ message ++
    (if colour ∧ level = .important then colourOff else []) ++ [10]

/-- `syslog`, and the logs of components in front of it. -/
inductive Log where
  | syslog
  | component (id : Nat) (name : CString) (parent : Log)

/-- Whose `_enabled` it is. -/
abbrev LogId := Option Nat

def Log.id : Log → LogId
  | .syslog => none
  | .component id _ _ => some id

/-- The buffers of `messagef` and `ComponentLog::message`. -/
def messageSize : Nat := 0x200

/-- `"%s: %s"` -/
def componentFormat : List UInt8 := [37, 115, 58, 32, 37, 115]

def format (fmt : List UInt8) (args : List Arg) : Except Fault (List UInt8) := do
  let (_, buffer) ← vsnprintf (Buffer.new messageSize) messageSize (fmt ++ [0]) args
  buffer.cString

/-- The text that `ComponentLog::message` hands on. -/
def ComponentLog.format (name message : CString) : Except Fault (List UInt8) :=
  Kernel.format componentFormat [.str name, .str message]

/-! ### Threads that log -/

/-- A call of a log. -/
inductive Request where
  | message (log : Log) (level : LogLevel) (message : CString)
  | messagef (log : Log) (level : LogLevel) (fmt : List UInt8) (args : List Arg)

/-- Where a thread is with its request: before its formatting, at a log with a text, or not
logging or already in `_mtx`. -/
inductive Stage where
  | idle
  | formatting (log : Log) (level : LogLevel) (fmt : List UInt8) (args : List Arg)
  | passing (request : Request) (log : Log) (level : LogLevel) (message : CString)

structure LogSystem where
  enabled : LogId → Bool
  colour : Bool
  hasStream : Bool
  stage : ThreadId → Stage
  mutex : Mutex.System UInt8 (List UInt8)

/-- The stream appends. -/
def put (c : UInt8) (stream : List UInt8) : List UInt8 := stream ++ [c]

namespace LogSystem

/-- A step may bring a request to `_mtx`. -/
inductive Step : LogSystem → List (ThreadId × Request) →
    List (Mutex.Event UInt8) → LogSystem → Prop
  | message {s : LogSystem} {t : ThreadId} {log : Log} {level : LogLevel} {message : CString} :
      s.stage t = .idle → s.mutex.phase t = .outside →
      Step s [] []
        { s with
          stage := update s.stage t (.passing (.message log level message) log level message) }
  | messagef {s : LogSystem} {t : ThreadId} {log : Log} {level : LogLevel} {fmt : List UInt8}
      {args : List Arg} : s.stage t = .idle → s.mutex.phase t = .outside → Matches fmt args →
      0 ∉ fmt →
      Step s [] [] { s with stage := update s.stage t (.formatting log level fmt args) }
  | format {s : LogSystem} {t : ThreadId} {log : Log} {level : LogLevel} {fmt : List UInt8}
      {args : List Arg} {message : CString} : s.stage t = .formatting log level fmt args →
      s.enabled log.id = true → Kernel.format fmt args = .ok message.text →
      Step s [] []
        { s with
          stage := update s.stage t
            (.passing (.messagef log level fmt args) log level message) }
  | formatDisabled {s : LogSystem} {t : ThreadId} {log : Log} {level : LogLevel}
      {fmt : List UInt8} {args : List Arg} : s.stage t = .formatting log level fmt args →
      s.enabled log.id = false → Step s [] [] { s with stage := update s.stage t .idle }
  | component {s : LogSystem} {t : ThreadId} {request : Request} {id : Nat} {name : CString}
      {parent : Log} {level : LogLevel} {message text : CString} :
      s.stage t = .passing request (.component id name parent) level message →
      s.enabled (some id) = true → ComponentLog.format name message = .ok text.text →
      Step s [] [] { s with stage := update s.stage t (.passing request parent level text) }
  | disabled {s : LogSystem} {t : ThreadId} {request : Request} {log : Log} {level : LogLevel}
      {message : CString} : s.stage t = .passing request log level message →
      s.enabled log.id = false → Step s [] [] { s with stage := update s.stage t .idle }
  | noStream {s : LogSystem} {t : ThreadId} {request : Request} {level : LogLevel}
      {message : CString} : s.stage t = .passing request .syslog level message →
      s.hasStream = false → Step s [] [] { s with stage := update s.stage t .idle }
  | syslog {s : LogSystem} {t : ThreadId} {request : Request} {level : LogLevel}
      {message : CString} {events : List (Mutex.Event UInt8)}
      {mutex : Mutex.System UInt8 (List UInt8)} :
      s.stage t = .passing request .syslog level message → s.enabled none = true →
      s.hasStream = true → events = [.called t (SysLog.write s.colour level message.text)] →
      Mutex.Step put s.mutex events mutex →
      Step s [(t, request)] events
        { s with stage := update s.stage t .idle, mutex := mutex }
  | mutex {s : LogSystem} {events : List (Mutex.Event UInt8)}
      {mutex : Mutex.System UInt8 (List UInt8)} : Mutex.Step put s.mutex events mutex →
      Mutex.called events = [] → Step s [] events { s with mutex := mutex }
  /-- `enable` and `disable` -/
  | setEnabled {s : LogSystem} {id : LogId} {enabled : Bool} :
      Step s [] [] { s with enabled := update s.enabled id enabled }

/-- From `s₀`, with the requests that came to `_mtx` and what happened there. -/
inductive Runs (s₀ : LogSystem) : List (ThreadId × Request) →
    List (Mutex.Event UInt8) → LogSystem → Prop
  | start : Runs s₀ [] [] s₀
  | step {requests more : List (ThreadId × Request)}
      {events events' : List (Mutex.Event UInt8)} {s s' : LogSystem} :
      Runs s₀ requests events s → Step s more events' s' →
      Runs s₀ (requests ++ more) (events ++ events') s'

structure Start (s : LogSystem) : Prop where
  mutex : Mutex.Start s.mutex
  idle : ∀ t, s.stage t = .idle
  empty : s.mutex.shared = []

end LogSystem

/-! ### What a line says -/

def Request.level : Request → LogLevel
  | .message _ level _ => level
  | .messagef _ level _ _ => level

/-- The text of a log as its parent sees it. -/
def Log.route : Log → List UInt8 → List UInt8
  | .syslog, text => text
  | .component _ name parent, text => parent.route ((name.text ++ [58, 32] ++ text).take 511)

/-- The formatted text ends at its first NUL, if a `%c` has printed one. -/
def printed (fmt : List UInt8) (args : List Arg) : List UInt8 :=
  (((items fmt args).map (emit 511)).getD []).takeWhile (· ≠ 0)

def Request.text : Request → List UInt8
  | .message log _ said => log.route said.text
  | .messagef log _ fmt args => log.route (printed fmt args)

/-- The line that a request makes. -/
def Request.line (colour : Bool) (request : Request) : List UInt8 :=
  SysLog.write colour request.level request.text

/-! ### Texts -/

theorem cString_holding (b : Buffer) (text : List UInt8) :
    (b.holding (text ++ [0])).cString = .ok (text.takeWhile (· ≠ 0)) := by
  rw [Buffer.holding]
  generalize b.drop (text ++ [0]).length = rest
  induction text with
  | nil => rfl
  | cons c text ih =>
      by_cases nul : c = 0
      · subst nul
        rfl
      · rw [List.cons_append, List.map_cons, List.cons_append, Buffer.cString, if_neg nul, ih]
        simp [nul, Except.map]

theorem format_eq {fmt : List UInt8} {args : List Arg} (matched : Matches fmt args)
    (proper : 0 ∉ fmt) : Kernel.format fmt args = .ok (printed fmt args) := by
  obtain ⟨its, found⟩ := Option.isSome_iff_exists.mp matched
  have whole : (Buffer.new messageSize).length = messageSize := Buffer.length_new _
  have run := vsnprintf_eq (by decide) whole proper found
  rw [Kernel.format, run, printed, found]
  exact cString_holding _ _

theorem emit_str {s t : List UInt8} {its : List Item} (h : ∀ room, emit room its = t.take room)
    (room : Nat) : emit room (.str s 0 32 :: its) = (s ++ t).take room := by
  cases room with
  | zero => rfl
  | succ room =>
      have text : Item.text (.str s 0 32) (room + 1) = s.take (room + 1) := by
        simp [Item.text, strText]
      rw [emit_cons (Nat.succ_pos room), text, h, List.take_append, List.length_take]
      congr 2
      omega

theorem emit_char {t : List UInt8} {its : List Item} (h : ∀ room, emit room its = t.take room)
    (c : UInt8) (room : Nat) : emit room (.char c :: its) = (c :: t).take room := by
  cases room with
  | zero => rfl
  | succ room =>
      rw [emit_cons (Nat.succ_pos room), h]
      rfl

theorem component_items (name message : CString) :
    items componentFormat [.str name, .str message] =
      some [.str name.text 0 32, .char 58, .char 32, .str message.text 0 32] := rfl

theorem takeWhile_proper {text : List UInt8} (proper : 0 ∉ text) :
    text.takeWhile (· ≠ 0) = text := by
  rw [List.takeWhile_eq_self_iff]
  intro c mem
  simp only [decide_eq_true_eq]
  rintro rfl
  exact proper mem

theorem component_format (name message : CString) :
    ComponentLog.format name message =
      .ok ((name.text ++ [58, 32] ++ message.text).take 511) := by
  have matched : Matches componentFormat [.str name, .str message] := by
    rw [Matches, component_items]
    rfl
  have text : ∀ room, emit room [.str name.text 0 32, .char 58, .char 32, .str message.text 0 32] =
      (name.text ++ 58 :: 32 :: (message.text ++ [])).take room :=
    emit_str (emit_char (emit_char (emit_str (fun room => by simp) ) 32) 58)
  have proper : (0 : UInt8) ∉ name.text ++ 58 :: 32 :: message.text := by
    simp [name.proper, message.proper]
  rw [ComponentLog.format, format_eq matched (by decide), printed, component_items]
  simp only [Option.map_some, Option.getD_some, text, List.append_nil]
  rw [takeWhile_proper fun mem => proper (List.mem_of_mem_take mem)]
  simp

/-! ### Runs -/

/-- A text on its way is what the request says so far. -/
def Stage.OnTheWay : Stage → Prop
  | .idle => True
  | .formatting _ _ fmt args => Matches fmt args ∧ 0 ∉ fmt
  | .passing request log level message =>
      level = request.level ∧ log.route message.text = request.text

theorem onTheWay_update {stage : ThreadId → Stage} {new : Stage} (h : ∀ t, (stage t).OnTheWay)
    (own : new.OnTheWay) (t u : ThreadId) : (update stage t new u).OnTheWay := by
  by_cases same : u = t
  · subst same
    rw [update_self]
    exact own
  · rw [update_of_ne same]
    exact h u

namespace LogSystem
variable {s₀ s s' : LogSystem} {requests more : List (ThreadId × Request)}
  {events events' : List (Mutex.Event UInt8)} {t : ThreadId}

theorem Step.onTheWay (h : ∀ t, (s.stage t).OnTheWay) (step : Step s more events s') :
    ∀ t, (s'.stage t).OnTheWay := by
  cases step with
  | message _ _ =>
      refine onTheWay_update h ?_ _
      exact ⟨rfl, rfl⟩
  | messagef _ _ matched proper =>
      refine onTheWay_update h ?_ _
      exact ⟨matched, proper⟩
  | @format t log level fmt args message at_t enabled text =>
      have own := h t
      rw [at_t] at own
      have same := (format_eq own.1 own.2).symm.trans text
      refine onTheWay_update h ?_ t
      refine ⟨rfl, ?_⟩
      rw [← Except.ok.inj same]
      rfl
  | @component t request id name parent level message text at_t enabled formatted =>
      have own := h t
      rw [at_t] at own
      have same := (component_format name message).symm.trans formatted
      refine onTheWay_update h ?_ t
      refine ⟨own.1, ?_⟩
      rw [← Except.ok.inj same]
      exact own.2
  | formatDisabled _ _ | disabled _ _ | noStream _ _ | syslog _ _ _ _ _ =>
      refine onTheWay_update h ?_ _
      trivial
  | mutex _ _ => exact h
  | setEnabled => exact h

theorem Step.constant (step : Step s more events s') : s'.colour = s.colour := by
  cases step <;> rfl

theorem Step.calls (h : ∀ t, (s.stage t).OnTheWay) (step : Step s more events s') :
    Mutex.called events = more.map fun r => (r.1, r.2.line s.colour) := by
  cases step with
  | @syslog t request level message events mutex at_t _ _ called _ =>
      have own := h t
      rw [at_t] at own
      have text : message.text = request.text := own.2
      rw [called, own.1, text]
      rfl
  | mutex _ none => exact none
  | _ => rfl

theorem Step.mutex_step (step : Step s more events s') :
    Mutex.Step put s.mutex events s'.mutex ∨ events = [] ∧ s'.mutex = s.mutex := by
  cases step with
  | syslog _ _ _ _ step => exact .inl step
  | mutex step _ => exact .inl step
  | _ => exact .inr ⟨rfl, rfl⟩

theorem Runs.mutex (run : Runs s₀ requests events s) : Mutex.Runs put s₀.mutex events s.mutex := by
  induction run with
  | start => exact .start
  | step _ step ih =>
      rcases step.mutex_step with step | ⟨none, same⟩
      · exact ih.step step
      · rw [none, same, List.append_nil]
        exact ih

/-- By induction on the run, with the texts that are on their way. -/
theorem Runs.calls (start : Start s₀) (run : Runs s₀ requests events s) :
    (∀ t, (s.stage t).OnTheWay) ∧ s.colour = s₀.colour ∧
      Mutex.called events = requests.map fun r => (r.1, r.2.line s₀.colour) := by
  induction run with
  | start =>
      refine ⟨fun t => ?_, rfl, rfl⟩
      rw [start.idle t]
      trivial
  | step _ step ih =>
      obtain ⟨way, colour, called⟩ := ih
      refine ⟨step.onTheWay way, step.constant.trans colour, ?_⟩
      rw [Mutex.called_append, called, step.calls way, colour, List.map_append]

theorem perform_put (body stream : List UInt8) :
    Sections.perform put body stream = stream ++ body := by
  induction body generalizing stream with
  | nil => exact (List.append_nil stream).symm
  | cons c body ih =>
      change Sections.perform put body (put c stream) = _
      rw [ih, put, List.append_assoc]
      rfl

theorem performAll_put (sections : List (ThreadId × List UInt8)) (stream : List UInt8) :
    Sections.performAll put sections stream = stream ++ sections.flatMap Prod.snd := by
  induction sections generalizing stream with
  | nil => exact (List.append_nil stream).symm
  | cons line sections ih =>
      change Sections.performAll put sections (Sections.perform put line.2 stream) = _
      rw [ih, perform_put, List.append_assoc, List.flatMap_cons]

/-- Whatever the interleaving, the stream holds whole lines, each thread's in the order of its
requests, but for what is left of the line of the thread under `_mtx`. -/
theorem log_lines (start : Start s₀) (run : Runs s₀ requests events s) :
    ∃ (lines : List (ThreadId × List UInt8)) (rest : List UInt8),
      s.mutex.shared ++ rest = lines.flatMap Prod.snd ∧
      (rest = [] ∨ ∃ t, (s.mutex.phase t).section = some rest ∧ s.mutex.mutex.locked ≠ 0) ∧
      ∀ t, (requests.filter (·.1 = t)).map (fun r => (r.1, r.2.line s₀.colour)) =
        lines.filter (·.1 = t) ++ (s.mutex.phase t).pending t := by
  obtain ⟨_, _, called⟩ := run.calls start
  obtain ⟨serial, order⟩ := Mutex.sections_serial start.mutex run.mutex
  refine ⟨Mutex.began events, ?_⟩
  have ordered : ∀ t, (requests.filter (·.1 = t)).map (fun r => (r.1, r.2.line s₀.colour)) =
      (Mutex.began events).filter (·.1 = t) ++ (s.mutex.phase t).pending t := by
    intro t
    rw [← order t, called, List.filter_map]
    rfl
  rw [start.empty] at serial
  cases serial with
  | free _ _ shared =>
      refine ⟨[], ?_, .inl rfl, ordered⟩
      rw [List.append_nil]
      exact shared.trans (performAll_put _ [])
  | held t past rest done locked phase _ begun shared =>
      refine ⟨rest, ?_, .inr ⟨t, phase, bne_iff_ne.mp locked⟩, ordered⟩
      rw [begun, List.flatMap_append]
      rw [performAll_put, perform_put] at shared
      change s.mutex.sections.shared ++ rest = _
      rw [shared, List.append_assoc]
      simp

/-- The thread under `_mtx` writes on, while the others wait. -/
theorem Runs.writes {bytes rest : List UInt8} (run : Runs s₀ requests events s)
    (inside : s.mutex.phase t = .inside (bytes ++ rest)) :
    ∃ s', Runs s₀ requests events s' ∧ s'.stage = s.stage ∧ s'.mutex.mutex = s.mutex.mutex ∧
      s'.mutex.phase = update s.mutex.phase t (.inside rest) ∧
      s'.mutex.shared = s.mutex.shared ++ bytes := by
  induction bytes generalizing s with
  | nil =>
      rw [List.nil_append] at inside
      refine ⟨s, run, rfl, rfl, ?_, (List.append_nil _).symm⟩
      rw [← inside, update_eq_self]
  | cons c bytes ih =>
      have wrote := run.step (.mutex (.act inside) rfl)
      rw [List.append_nil, List.append_nil] at wrote
      obtain ⟨s', run', stage, mutex, phase, shared⟩ := ih wrote (update_self ..)
      refine ⟨s', run', stage, mutex, phase.trans (update_idem ..), shared.trans ?_⟩
      exact List.append_assoc ..

def boot : LogSystem where
  enabled := fun _ => true
  colour := false
  hasStream := true
  stage := fun _ => .idle
  mutex := { mutex := { locked := 0, owner := 0 }, phase := fun _ => .outside, shared := [] }

theorem boot_start : Start boot where
  mutex := ⟨rfl, fun _ => rfl⟩
  idle := fun _ => rfl
  empty := rfl

/-- `OK!` -/
def okMessage : CString := ⟨[79, 75, 33], by decide⟩

def okRequest : Request := .message .syslog .info okMessage

/-- `no` -/
def noMessage : CString := ⟨[110, 111], by decide⟩

def fsLog : Log := .component 0 ⟨[102, 115], by decide⟩ .syslog

def noRequest : Request := .message fsLog .error noMessage

/-- `fs: no` -/
def passedMessage : CString := ⟨[102, 115, 58, 32, 110, 111], by decide⟩

/-- Both threads have called the lock, and the first has written its line when the second starts
on its own. -/
theorem boot_runs : ∃ s, Runs boot [(0, okRequest), (1, noRequest)]
    [.called 0 (okRequest.line false), .called 1 (noRequest.line false),
      .began 0 (okRequest.line false), .began 1 (noRequest.line false)] s ∧
      s.mutex.shared = okRequest.line false ++ [32, 32] := by
  have asked₀ := Runs.start.step (@Step.message boot 0 .syslog .info okMessage rfl rfl)
  have asked₁ := asked₀.step (@Step.message _ 1 fsLog .error noMessage rfl rfl)
  have passed₁ := asked₁.step
    (@Step.component _ 1 noRequest 0 _ .syslog .error noMessage passedMessage rfl rfl
      (component_format _ _))
  have called₀ := passed₁.step
    (@Step.syslog _ 0 okRequest .info okMessage _ _ rfl rfl rfl rfl (.call rfl))
  have called₁ := called₀.step
    (@Step.syslog _ 1 noRequest .error passedMessage _ _ rfl rfl rfl rfl (.call rfl))
  have began₀ := called₁.step (.mutex (.testAndSet (t := 0) rfl rfl) rfl)
  have waited₁ := began₀.step (.mutex (.wait (t := 1) rfl (by decide)) rfl)
  have inside₀ := waited₁.step (.mutex (.setOwner (t := 0) rfl) rfl)
  obtain ⟨s, wrote₀, _, locked, phase, shared⟩ :=
    inside₀.writes (t := 0)
      (show _ = Mutex.Phase.inside (okRequest.line false ++ []) by rw [List.append_nil]; rfl)
  have left₀ := wrote₀.step (.mutex (.unlock (t := 0) (by rw [phase]; rfl)) rfl)
  have began₁ := left₀.step (.mutex (.testAndSet (t := 1) (by rw [phase]; rfl) rfl) rfl)
  have inside₁ := began₁.step (.mutex (.setOwner (t := 1) rfl) rfl)
  obtain ⟨s', wrote₁, _, _, _, written⟩ := inside₁.writes (t := 1)
    (show _ = Mutex.Phase.inside ([32, 32] ++ (noRequest.line false).drop 2) from rfl)
  exact ⟨s', wrote₁, written.trans (congrArg (· ++ [32, 32]) shared)⟩

theorem log_lines_boot : ∃ (s : LogSystem) (lines : List (ThreadId × List UInt8))
    (rest : List UInt8), s.mutex.shared ++ rest = lines.flatMap Prod.snd ∧
      (∀ t, ([(0, okRequest), (1, noRequest)].filter (·.1 = t)).map
          (fun r => (r.1, r.2.line false)) =
        lines.filter (·.1 = t) ++ (s.mutex.phase t).pending t) ∧
      s.mutex.shared = okRequest.line false ++ [32, 32] := by
  obtain ⟨s, run, written⟩ := boot_runs
  obtain ⟨lines, rest, whole, _, order⟩ := log_lines boot_start run
  exact ⟨s, lines, rest, whole, order, written⟩

end LogSystem
end Infos.Kernel
