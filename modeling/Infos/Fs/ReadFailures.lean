import Infos.Fs.TarfsDecode
import Infos.Fs.TarfsPread

/-!
# Failing reads

`Coupled` compares a program on a device with the same program on the device
without failures: as long as no call fails they run alike.
-/
namespace Infos.Fs
open Infos.Lib Infos.Util

namespace Device

/-- The same blocks, and every call succeeds. -/
def reliable (dev : Device) : Device := { dev with succeeds := fun _ _ => true }

/-- None of these calls failed. -/
def Served (dev : Device) : List ReadCall → Prop
  | [] => True
  | c :: log => dev.succeeds log.length c = true ∧ dev.Served log

theorem Served.of_append {dev : Device} {calls log : List ReadCall}
    (h : dev.Served (calls ++ log)) : dev.Served log := by
  induction calls with
  | nil => exact h
  | cons c calls ih => exact ih h.2

end Device

/-- `x` runs like `y` unless a call of theirs fails. -/
structure Coupled {σ α : Type} (dev : Device) (x y : DeviceExec σ α) : Prop where
  grows : ∀ s log, ∃ calls, (x.runOn s log).2 = calls ++ log
  grows' : ∀ s log, ∃ calls, (y.runOn s log).2 = calls ++ log
  same : ∀ s log, dev.Served (x.runOn s log).2 ∨ dev.Served (y.runOn s log).2 →
    x.runOn s log = y.runOn s log

namespace Coupled
variable {σ α β : Type} {dev : Device} {x y : DeviceExec σ α} {f g : α → DeviceExec σ β}

theorem served_iff (h : Coupled dev x y) (s : σ) (log : List ReadCall) :
    dev.Served (x.runOn s log).2 ↔ dev.Served (y.runOn s log).2 :=
  ⟨fun served => h.same s log (.inl served) ▸ served,
    fun served => (h.same s log (.inr served)).symm ▸ served⟩

theorem grows_bind (hf : ∀ a s log, ∃ calls, ((f a).runOn s log).2 = calls ++ log) (s : σ)
    (log : List ReadCall) : ∃ calls, ((x >>= f).runOn s log).2 = calls ++ (x.runOn s log).2 := by
  rw [Calls.runOn_bind]
  rcases x.runOn s log with ⟨_ | ⟨a, s'⟩, log'⟩
  · exact ⟨[], rfl⟩
  · exact hf a s' log'

theorem grows_seq (hx : ∀ s log, ∃ calls, (x.runOn s log).2 = calls ++ log)
    (hf : ∀ a s log, ∃ calls, ((f a).runOn s log).2 = calls ++ log) (s : σ)
    (log : List ReadCall) : ∃ calls, ((x >>= f).runOn s log).2 = calls ++ log := by
  obtain ⟨later, grown⟩ := grows_bind (x := x) hf s log
  obtain ⟨first, grown'⟩ := hx s log
  exact ⟨later ++ first, by rw [grown, grown', List.append_assoc]⟩

theorem grows_zoom {τ : Type} (hx : ∀ s log, ∃ calls, (x.runOn s log).2 = calls ++ log)
    (part : τ → σ) (replace : τ → σ → τ) (s : τ) (log : List ReadCall) :
    ∃ calls, ((Calls.zoom part replace x).runOn s log).2 = calls ++ log := by
  obtain ⟨calls, grown⟩ := hx (part s) log
  refine ⟨calls, ?_⟩
  rw [Calls.runOn_zoom, ← grown]
  rcases x.runOn (part s) log with ⟨_ | ⟨a, t⟩, log'⟩ <;> rfl

theorem bind (hx : Coupled dev x y) (hf : ∀ a, Coupled dev (f a) (g a)) :
    Coupled dev (x >>= f) (y >>= g) := by
  constructor
  case grows => exact grows_seq hx.grows fun a => (hf a).grows
  case grows' => exact grows_seq hx.grows' fun a => (hf a).grows'
  case same =>
    intro s log served
    obtain ⟨later, grown⟩ := grows_bind (x := x) (fun a => (hf a).grows) s log
    obtain ⟨later', grown'⟩ := grows_bind (x := y) (fun a => (hf a).grows') s log
    have first : x.runOn s log = y.runOn s log := by
      apply hx.same s log
      rw [grown, grown'] at served
      exact served.imp Device.Served.of_append Device.Served.of_append
    rw [Calls.runOn_bind, Calls.runOn_bind] at served ⊢
    rw [first] at served ⊢
    rcases ran : y.runOn s log with ⟨_ | ⟨a, s'⟩, log'⟩
    · rfl
    · rw [ran] at served
      exact (hf a).same s' log' served

theorem refl_of_silent (h : x.Silent) : Coupled dev x x where
  grows s log := ⟨[], h s log⟩
  grows' s log := ⟨[], h s log⟩
  same _ _ _ := rfl

theorem ret (a : α) : Coupled dev (pure a : DeviceExec σ α) (pure a) :=
  refl_of_silent (.ret a)

theorem throw (e : Fault) : Coupled dev (throw e : DeviceExec σ α) (throw e) :=
  refl_of_silent fun _ _ => rfl

theorem ofExec (x : Exec σ α) : Coupled dev (Calls.ofExec x) (Calls.ofExec x) :=
  refl_of_silent (.ofExec x)

theorem zoom {τ : Type} (h : Coupled dev x y) (part : τ → σ) (replace : τ → σ → τ) :
    Coupled dev (Calls.zoom part replace x) (Calls.zoom part replace y) := by
  constructor
  case grows => exact grows_zoom h.grows part replace
  case grows' => exact grows_zoom h.grows' part replace
  case same =>
    intro s log served
    rw [Calls.runOn_zoom, Calls.runOn_zoom] at served ⊢
    rw [h.same (part s) log]
    revert served
    apply Or.imp
    · rcases x.runOn (part s) log with ⟨_ | ⟨a, t⟩, log'⟩ <;> exact id
    · rcases y.runOn (part s) log with ⟨_ | ⟨a, t⟩, log'⟩ <;> exact id

end Coupled

/-! ### The programs -/

section Programs
variable {σ : Type} (dev : Device)

theorem readBlocks_coupled (offset count : Nat) :
    Coupled dev (dev.readBlocks offset count : DeviceExec σ Bool)
      (dev.reliable.readBlocks offset count) where
  grows _ _ := ⟨[⟨offset, count⟩], rfl⟩
  grows' _ _ := ⟨[⟨offset, count⟩], rfl⟩
  same s log served := by
    rw [Device.readBlocks_run, Device.readBlocks_run] at served ⊢
    rw [(served.elim And.left And.left : dev.succeeds log.length ⟨offset, count⟩ = true)]
    rfl

theorem readHeader_coupled (offset : Nat) (buffer : Option Block) :
    Coupled dev (dev.readHeader offset buffer : DeviceExec σ (Option Block))
      (dev.reliable.readHeader offset buffer) :=
  (readBlocks_coupled dev offset 1).bind fun _ => .ret _

theorem readHead_coupled (spare offset : Nat) (head : Option Block) :
    Coupled dev (dev.readHead spare offset head : DeviceExec σ (Option Block))
      (dev.reliable.readHead spare offset head) := by
  refine (readBlocks_coupled dev offset 1).bind fun ok => .refl_of_silent ?_
  intro s log
  split_ifs <;> rfl

theorem readInto_coupled (offset count : Nat) (buffer : Memory) :
    Coupled dev (dev.readInto offset count buffer : DeviceExec σ Memory)
      (dev.reliable.readInto offset count buffer) := by
  refine (readBlocks_coupled dev offset count).bind fun ok => .refl_of_silent ?_
  intro s log
  split_ifs <;> rfl

theorem readHeaders_coupled (spare : Nat) (root : NodeId) (fuel : Nat) (offset : Int) (zeroSeen : Bool)
    (head : Option Block) :
    Coupled dev (dev.readHeaders spare root fuel offset zeroSeen head)
      (dev.reliable.readHeaders spare root fuel offset zeroSeen head) := by
  induction fuel generalizing offset zeroSeen head with
  | zero => exact .throw _
  | succ fuel ih =>
      unfold Device.readHeaders
      by_cases inside : toUInt64 offset < dev.blockCount
      · rw [if_pos inside, if_pos (show toUInt64 offset < dev.reliable.blockCount from inside)]
        refine (readHead_coupled dev spare _ head).bind fun read => ?_
        cases read with
        | none => exact .throw _
        | some block =>
            dsimp only
            split_ifs
            · exact .ret ()
            · exact ih _ _ _
            · exact (Coupled.ofExec _).bind fun _ => ih _ _ _
      · rw [if_neg inside, if_neg (show ¬ toUInt64 offset < dev.reliable.blockCount from inside)]
        exact .ret ()

theorem mount_coupled (spare : Nat) : Coupled dev (dev.mount spare) (dev.reliable.mount spare) := by
  have built : Coupled dev (dev.buildTree spare) (dev.reliable.buildTree spare) :=
    (Coupled.ofExec _).bind fun root =>
      (readHeaders_coupled dev spare root _ _ _ _).bind fun _ => .ret root
  refine (Coupled.refl_of_silent fun _ _ => rfl).bind fun fs => ?_
  cases fs.rootNode with
  | some root => exact .ret _
  | none =>
      refine (built.zoom _ _).bind fun root => ?_
      exact (Coupled.refl_of_silent fun _ _ => rfl).bind fun _ => .ret _

/-- Opening a file and reading from it. -/
def openAndRead (dev : Device) (header size off : Nat) : DeviceExec σ (Int × Memory) := do
  let f ← dev.newFile header
  f.pread dev size off

theorem pread_coupled (f : TarFSFile) (size off : Nat) :
    Coupled dev (f.pread dev size off : DeviceExec σ _) (f.pread dev.reliable size off) := by
  refine (Coupled.ofExec _).bind fun fileSize => ?_
  dsimp only
  split_ifs
  · exact .ret _
  · exact (readInto_coupled dev _ _ _).bind fun _ => (Coupled.ofExec _).bind fun _ => .ret _

theorem openAndRead_coupled (header size off : Nat) :
    Coupled dev (openAndRead dev header size off : DeviceExec σ _)
      (openAndRead dev.reliable header size off) := by
  have opened : Coupled dev (dev.newFile header : DeviceExec σ _) (dev.reliable.newFile header) :=
    (readHeader_coupled dev header none).bind fun _ => .ret _
  exact opened.bind fun f => pread_coupled dev f size off

end Programs

/-! ### What is reported -/

/-- `mount` returns a tree only if each of its reads succeeded, and NULL if one failed. -/
def MountReports (spare : Nat) (dev : Device) : Prop :=
  ∀ r log, (dev.mount spare).runOn ⟨.initial, none⟩ [] = (r, log) →
    dev.Served log ∨ ∃ fs, r = .ok (none, fs)

/-- A file that is opened is read with a positive count only if each read succeeded, and with
none if one failed. -/
def PreadReports (dev : Device) (header size off : Nat) : Prop :=
  ∀ r log, (openAndRead dev header size off).runOn () [] = (r, log) →
    dev.Served log ∨ ∃ count bytes, count ≤ 0 ∧ r = .ok ((count, bytes), ())

section Reports
variable {σ : Type} {spare : Nat} {dev : Device} {s s' : σ} {log log' : List ReadCall}

theorem mount_not_null {fs fs' : TarFS} :
    ((dev.mount spare).runOn fs log).1 ≠ .ok (none, fs') := by
  intro null
  unfold Device.mount at null
  rw [Calls.runOn_bind_ok (Calls.runOn_get fs log)] at null
  cases root : fs.rootNode with
  | some root' =>
      simp only [root] at null
      cases null
  | none =>
      simp only [root, Calls.runOn_bind] at null
      revert null
      rcases Calls.runOn _ fs log with ⟨_ | ⟨a, fs₁⟩, log₁⟩ <;> exact nofun

/-- A read that asked the device for something never returns a count that is not positive. -/
theorem pread_positive {f : TarFSFile} {size off : Nat} {count : Int} {bytes : Memory}
    (run : (f.pread dev size off : DeviceExec σ _).runOn s log = (.ok ((count, bytes), s'), log'))
    (asked : log' ≠ log) : 0 < count := by
  cases sized : f.size with
  | error e =>
      unfold TarFSFile.pread at run
      rw [sized] at run
      cases run
  | ok fileSize =>
      obtain ⟨-, same | ⟨some, count, -, -⟩⟩ := pread_returned sized run
      · exact absurd same.2.2.2 asked
      · omega

/-- Where a call failed, nothing is reported. -/
theorem openAndRead_unreported {header size off : Nat} {count : Int} {bytes : Memory} {u : Unit}
    (run : (openAndRead dev header size off).runOn () [] = (.ok ((count, bytes), u), log))
    (failed : ¬ dev.Served log) : 0 < count := by
  have opened : (dev.newFile header : DeviceExec Unit _).runOn () [] =
      (.ok (⟨if dev.succeeds 0 ⟨header, 1⟩ then some (dev.block header) else none,
        (header + 1) % 2 ^ 32, 0⟩, ()), [⟨header, 1⟩]) := rfl
  rw [openAndRead, Calls.runOn_bind_ok opened] at run
  cases answer : dev.succeeds 0 ⟨header, 1⟩ with
  | false =>
      rw [answer] at run
      cases run
  | true =>
      refine pread_positive run ?_
      rintro rfl
      exact failed ⟨answer, trivial⟩

/-- Failures of reads are reported only where there are none: the calls that would be made on
the device if none failed all succeed. -/
theorem failures_reported_iff (spare : Nat) (dev : Device) :
    (MountReports spare dev ↔ dev.Served ((dev.reliable.mount spare).runOn ⟨.initial, none⟩ []).2) ∧
      ∀ header size off, PreadReports dev header size off ↔
        dev.Served ((openAndRead dev.reliable header size off).runOn () []).2 := by
  constructor
  · rw [← (mount_coupled dev spare).served_iff]
    constructor
    · intro reports
      rcases reports _ _ (Prod.eta _).symm with served | ⟨fs, null⟩
      · exact served
      · exact absurd null mount_not_null
    · rintro served r log run
      rw [run] at served
      exact .inl served
  · intro header size off
    rw [← (openAndRead_coupled dev header size off).served_iff]
    constructor
    · intro reports
      rcases reports _ _ (Prod.eta _).symm with served | ⟨count, bytes, none, run⟩
      · exact served
      · by_contra failed
        exact absurd (openAndRead_unreported (Prod.ext run rfl) failed) (Int.not_lt.mpr none)
    · rintro served r log run
      rw [run] at served
      exact .inl served

end Reports

/-- The header of a file of five bytes, then its block and another; the second call fails. -/
def failingDevice : Device where
  block b :=
    if b = 0 then (zeroFile 97 a_ne_zero a_ne_slash 5 (by decide)).headerBlock else zeroBlock
  blockCount := 3
  succeeds n _ := n = 0

/-- `mount` enters the stale header a second time, and a read of the file returns its size. -/
theorem failures_unreported :
    ¬ MountReports 12 failingDevice ∧ ¬ PreadReports failingDevice 0 5 0 := by
  constructor
  · intro reports
    have asked : ((failingDevice.mount 12).runOn ⟨.initial, none⟩ []).2 = [⟨2, 1⟩, ⟨0, 1⟩] := by
      decide +kernel
    obtain ⟨r, log, ran⟩ : ∃ r log, (failingDevice.mount 12).runOn ⟨.initial, none⟩ [] = (r, log) :=
      ⟨_, _, (Prod.eta _).symm⟩
    rw [ran] at asked
    dsimp only at asked
    rcases reports r log ran with served | ⟨fs, null⟩
    · rw [asked] at served
      exact absurd served.1 (by decide)
    · exact mount_not_null ((congrArg Prod.fst ran).trans null)
  · intro reports
    have asked : ((openAndRead failingDevice 0 5 0).runOn () []).2 = [⟨1, 1⟩, ⟨0, 1⟩] := by
      decide +kernel
    obtain ⟨r, log, ran⟩ : ∃ r log, (openAndRead failingDevice 0 5 0).runOn () [] = (r, log) :=
      ⟨_, _, (Prod.eta _).symm⟩
    rw [ran] at asked
    dsimp only at asked
    have failed : ¬ failingDevice.Served log := by
      rw [asked]
      exact fun served => absurd served.1 (by decide)
    rcases reports r log ran with served | ⟨count, bytes, low, rfl⟩
    · exact failed served
    · exact absurd (openAndRead_unreported ran failed) (Int.not_lt.mpr low)

end Infos.Fs
