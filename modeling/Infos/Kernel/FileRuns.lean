import Infos.Fs.TarfsDirectory
import Infos.Kernel.FileCalls

/-!
# Handles among processes

An object is reached through one handle, and only by the process that got it. So what other
processes do changes neither the files of a program nor what it has written.
-/
namespace Infos.Kernel.FileCalls
open Infos.Lib Infos.Util Infos.Kernel.Om Infos.Fs.Namespace Function
open Infos.Fs (Device DeviceExec Memory Name NodeId ReadCall TarFSFile TarState)

/-- A directory of the archive is the one that `TarFSDirectory` fills from the children's nodes in
memory, wherever they lie. -/
theorem directoryOf_tar {m : Mounts} {n : NodeId}
    {calls : List (MapHeap.Call HashType NodeId)} {s : MapHeap.MapState HashType NodeId}
    {t : MapHeap.Shape HashType NodeId} (reached : MapHeap.Reached calls s t)
    (bare : MapHeap.bare t = (m.tar.nodes n).children.root)
    (few : (MapHeap.visited t).length < 2 ^ 31)
    (plain : ¬ (m.tar.nodes n).hasBlockOffset = true) :
    ∃ d directory, (Fs.TarFSDirectory.new m.tar).run s = .ok (d, s) ∧
      directoryOf m (.tarFS n) = some directory ∧
      d.entries = directory.entries.map (fun e => ⟨e.name, some e.size⟩) ∧
      ∀ count, d.readEntries count = .ok ((List.range count).map fun i => d.entries[i]?) := by
  obtain ⟨d, run, lists⟩ := Fs.TarFSDirectory.new_lists reached m.tar few
  refine ⟨d, _, run, if_neg plain, ?_, lists.reads⟩
  rw [lists.entries, visited, ← bare, MapHeap.visited_bare, List.map_map, List.map_map]
  rfl

/-- The tree is as the kernel started with it, and no object has two handles. -/
structure Inv (m : Mounts) (root : NodeId) (w : World) : Prop where
  rooted : Rooted m root w.tree
  sound : w.om.objects.Sound
  known : ∀ h d, w.om.objects.tryGetValue h = some d →
    h < w.om.nextHandle ∧ ∃ o < w.nextObject, d.object = some o
  apart : ∀ h h' d d', w.om.objects.tryGetValue h = some d →
    w.om.objects.tryGetValue h' = some d' → d.object = d'.object → h = h'

/-- The handle `h`, given to thread `t`, stands for an object. -/
def Owns (t : ThreadId) (h : Nat) (object : Object) (w : World) : Prop :=
  ∃ o, w.om.objects.tryGetValue h = some ⟨t, some o⟩ ∧ w.objects o = object

/-- What a call of thread `t` leaves: the objects of other processes and what others wrote. -/
structure Leaves {π : Type} (process : ThreadId → π) (t : ThreadId) (w w' : World) : Prop where
  handles : ∀ h d, w.om.objects.tryGetValue h = some d → w'.om.objects.tryGetValue h = some d
  objects : ∀ h d o, w.om.objects.tryGetValue h = some d → d.object = some o →
    process d.owner ≠ process t → w'.objects o = w.objects o
  written : ∃ own, w'.written = w.written ++ own ∧ ∀ e ∈ own, e.1 = t
  count : w.om.nextHandle ≤ w'.om.nextHandle ∧ w'.om.nextHandle ≤ w.om.nextHandle + 1

section Steps
variable {π : Type} {hw : Hardware} {process : ThreadId → π}
  {m : Mounts} {root : NodeId} {w w' w'' : World} {t me : ThreadId} {h : Nat} {o : ObjectId}
  {object object' : Object} {log log' : List ReadCall}

theorem Inv.boot {tree : Tree} (rooted : Rooted m root tree) : Inv m root (.boot tree) :=
  ⟨rooted, Map.empty_sound, nofun, nofun⟩

theorem Leaves.refl (w : World) : Leaves process t w w where
  handles _ _ there := there
  objects _ _ _ _ _ _ := rfl
  written := ⟨[], (List.append_nil _).symm, fun _ none => absurd none List.not_mem_nil⟩
  count := ⟨Nat.le_refl _, Nat.le_succ _⟩

theorem Leaves.owns (l : Leaves process t w w') (other : process me ≠ process t)
    (owns : Owns me h object w) : Owns me h object w' := by
  obtain ⟨o, there, value⟩ := owns
  exact ⟨o, l.handles h _ there, (l.objects h _ o there rfl other).trans value⟩

/-- What one thread has written, to which device. -/
def World.writtenBy (w : World) (t : ThreadId) : List (DeviceId × List UInt8) :=
  (w.written.filter fun e => e.1 = t).map Prod.snd

theorem Leaves.writtenBy (l : Leaves process t w w') (other : me ≠ t) :
    w'.writtenBy me = w.writtenBy me := by
  obtain ⟨own, whole, mine⟩ := l.written
  have none : own.filter (fun e => e.1 = me) = [] := by
    rw [List.filter_eq_nil_iff]
    intro e mem same
    exact other ((of_decide_eq_true same).symm.trans (mine e mem))
  rw [World.writtenBy, whole, List.filter_append, none, List.append_nil]
  rfl

/-! ### Parts of calls -/

theorem Inv.tree (inv : Inv m root w) {tree : Tree} (rooted : Rooted m root tree) :
    Inv m root { w with tree } :=
  ⟨rooted, inv.sound, inv.known, inv.apart⟩

theorem Leaves.tree (w : World) (tree : Tree) : Leaves process t w { w with tree } where
  handles _ _ there := there
  objects _ _ _ _ _ _ := rfl
  written := ⟨[], (List.append_nil _).symm, fun _ none => absurd none List.not_mem_nil⟩
  count := ⟨Nat.le_refl _, Nat.le_succ _⟩

theorem Inv.setObject (inv : Inv m root w) (o : ObjectId) (object : Object) :
    Inv m root (w.setObject o object) :=
  ⟨inv.rooted, inv.sound, inv.known, inv.apart⟩

theorem Inv.setObject_leaves [DecidableEq π] (inv : Inv m root w)
    (mine : getObjectSecure process w.om t h = some o) (object : Object) :
    Leaves process t w (w.setObject o object) where
  handles _ _ there := there
  objects h' d o' there named other := by
    refine update_of_ne ?_ _ _
    rintro rfl
    unfold getObjectSecure at mine
    cases found : w.om.objects.tryGetValue h with
    | none =>
        rw [found] at mine
        cases mine
    | some e =>
        rw [found] at mine
        dsimp only at mine
        split_ifs at mine with same
        have same' : h' = h := inv.apart h' h d e there found (named.trans mine.symm)
        subst same'
        cases there.symm.trans found
        exact same other
  written := ⟨[], (List.append_nil _).symm, fun _ none => absurd none List.not_mem_nil⟩
  count := ⟨Nat.le_refl _, Nat.le_succ _⟩

theorem setObject_owns (owned : w.om.objects.tryGetValue h = some ⟨t, some o⟩) (object : Object) :
    Owns t h object (w.setObject o object) :=
  ⟨o, owned, update_self _ _ _⟩

theorem Inv.setObject_owns_other (inv : Inv m root w) {h' : Nat} {t' : ThreadId}
    (owned : w.om.objects.tryGetValue h = some ⟨t, some o⟩) (object : Object)
    (owns : Owns t' h' object' w) (other : h' ≠ h) : Owns t' h' object' (w.setObject o object) := by
  obtain ⟨o', there, value⟩ := owns
  have apart : o' ≠ o := by
    rintro rfl
    exact other (inv.apart h' h _ _ there owned rfl)
  exact ⟨o', there, (update_of_ne apart _ _).trans value⟩

theorem Inv.register_run (inv : Inv m root w) (process : ThreadId → π) (t : ThreadId)
    (few : w.om.nextHandle + 1 < 2 ^ 64) (object : Object) (log : List ReadCall) :
    ∃ w', (register t object).runOn w log = (.ok (w.om.nextHandle, w'), log) ∧ Inv m root w' ∧
      Leaves process t w w' ∧ Owns t w.om.nextHandle object w' ∧
      (∀ t' h' object', Owns t' h' object' w → h' ≠ w.om.nextHandle ∧ Owns t' h' object' w') ∧
      w'.written = w.written := by
  obtain ⟨objects, added, sound, values⟩ :=
    Map.add_spec w.om.nextHandle ⟨t, some w.nextObject⟩ inv.sound
  let w' : World := { w with
    om := ⟨w.om.nextHandle + 1, objects⟩
    objects := update w.objects w.nextObject object
    nextObject := w.nextObject + 1 }
  have registered : registerObject t (some w.nextObject) w.om = .ok (w.om.nextHandle, w'.om) := by
    rw [registerObject, added, Nat.mod_eq_of_lt few]
    rfl
  have fresh : ∀ h' d, w.om.objects.tryGetValue h' = some d → h' ≠ w.om.nextHandle := by
    intro h' d there
    exact Nat.ne_of_lt (inv.known h' d there).1
  have handles : ∀ h' d, w.om.objects.tryGetValue h' = some d →
      w'.om.objects.tryGetValue h' = some d := by
    intro h' d there
    change objects.tryGetValue h' = some d
    rw [values, update_of_ne (fresh h' d there)]
    exact there
  have new : w'.om.objects.tryGetValue w.om.nextHandle = some ⟨t, some w.nextObject⟩ := by
    change objects.tryGetValue w.om.nextHandle = _
    rw [values, update_self]
  have cases : ∀ h' d, w'.om.objects.tryGetValue h' = some d →
      h' = w.om.nextHandle ∧ d = ⟨t, some w.nextObject⟩ ∨
        w.om.objects.tryGetValue h' = some d := by
    intro h' d there
    change objects.tryGetValue h' = some d at there
    rw [values, update_apply] at there
    split_ifs at there with here
    · cases there
      exact .inl ⟨here, rfl⟩
    · exact .inr there
  refine ⟨w', ?_, ⟨inv.rooted, sound, ?_, ?_⟩, ⟨handles, ?_, ?_, ?_⟩,
    ⟨w.nextObject, new, update_self _ _ _⟩, ?_, rfl⟩
  · rw [register, Calls.runOn_bind_ok (Calls.runOn_get w log)]
    rw [Calls.runOn_ofExec_bind_ok (show (lift _ : Exec World _).run w =
      .ok ((w.om.nextHandle, w'.om), w) by rw [registered]; rfl)]
    rfl
  · intro h' d there
    rcases cases h' d there with ⟨rfl, rfl⟩ | old
    · exact ⟨Nat.lt_succ_self _, w.nextObject, Nat.lt_succ_self _, rfl⟩
    · obtain ⟨less, o', bound, named⟩ := inv.known h' d old
      exact ⟨Nat.lt_succ_of_lt less, o', Nat.lt_succ_of_lt bound, named⟩
  · intro h₁ h₂ d₁ d₂ there₁ there₂ same
    rcases cases h₁ d₁ there₁ with ⟨rfl, rfl⟩ | old₁ <;>
      rcases cases h₂ d₂ there₂ with ⟨rfl, rfl⟩ | old₂
    · rfl
    · obtain ⟨-, o', bound, named⟩ := inv.known h₂ d₂ old₂
      cases same.trans named
      exact absurd bound (Nat.lt_irrefl _)
    · obtain ⟨-, o', bound, named⟩ := inv.known h₁ d₁ old₁
      cases same.symm.trans named
      exact absurd bound (Nat.lt_irrefl _)
    · exact inv.apart h₁ h₂ d₁ d₂ old₁ old₂ same
  · intro h' d o' there named _
    obtain ⟨-, o'', bound, named'⟩ := inv.known h' d there
    cases named.symm.trans named'
    exact update_of_ne (Nat.ne_of_lt bound) _ _
  · exact ⟨[], (List.append_nil _).symm, fun _ none => absurd none List.not_mem_nil⟩
  · exact ⟨Nat.le_succ _, Nat.le_refl _⟩
  · rintro t' h' object' ⟨o', there, value⟩
    obtain ⟨-, o'', bound, named⟩ := inv.known h' _ there
    cases named
    have kept : w'.objects o' = w.objects o' := update_of_ne (Nat.ne_of_lt bound) _ _
    exact ⟨fresh h' _ there, o', handles h' _ there, kept.trans value⟩

/-- What a call may do that leaves other processes alone. -/
def Keeps {π : Type} (m : Mounts) (root : NodeId) (process : ThreadId → π) (t : ThreadId)
    (w w' : World) : Prop :=
  Inv m root w' ∧ Leaves process t w w'

theorem Keeps.refl (inv : Inv m root w) : Keeps m root process t w w := ⟨inv, .refl w⟩

theorem Inv.terminals_keeps (inv : Inv m root w) (typed : DeviceId → List UInt8)
    {own : List (ThreadId × DeviceId × List UInt8)} (mine : ∀ e ∈ own, e.1 = t) :
    Keeps m root process t w { w with typed, written := w.written ++ own } :=
  ⟨⟨inv.rooted, inv.sound, inv.known, inv.apart⟩, fun _ _ there => there, fun _ _ _ _ _ _ => rfl,
    ⟨own, rfl, mine⟩, Nat.le_refl _, Nat.le_succ _⟩

theorem Inv.typed_keeps (inv : Inv m root w) (typed : DeviceId → List UInt8) :
    Keeps m root process t w { w with typed } := by
  have keeps : Keeps m root process t w { w with typed, written := w.written ++ [] } :=
    inv.terminals_keeps typed fun _ none => absurd none List.not_mem_nil
  rwa [List.append_nil] at keeps

theorem Inv.setObject_keeps [DecidableEq π] (inv : Inv m root w)
    (mine : getObjectSecure process w.om t h = some o) (object : Object) :
    Keeps m root process t w (w.setObject o object) :=
  ⟨inv.setObject o object, inv.setObject_leaves mine object⟩

theorem nodeAt_kept {path : List UInt8} {r : Option PFSNode} (inv : Inv m root w)
    (run : (nodeAt path).runOn w log = (.ok (r, w'), log')) :
    ∃ tree, w' = { w with tree } ∧ Rooted m root tree := by
  unfold nodeAt at run
  obtain ⟨v, w₁, log₁, looked, rest⟩ := Calls.of_runOn_bind_ok run
  obtain ⟨tree, found, rfl⟩ := Calls.of_runOn_zoom_ok looked
  rw [Calls.runOn_ofExec] at found
  have rooted := inv.rooted.lookupNode_kept (Prod.mk.inj found).1
  cases v with
  | none =>
      cases rest
      exact ⟨tree, rfl, rooted⟩
  | some v =>
      cases rest
      exact ⟨tree, rfl, rooted⟩

theorem openNode_tar {dev : Device} {n : NodeId} {tar tar' : TarState} {f : Option TarFSFile}
    (run : (dev.openNode n).runOn tar log = (.ok (f, tar'), log')) : tar' = tar := by
  unfold Device.openNode at run
  obtain ⟨s, s₁, log₁, got, rest⟩ := Calls.of_runOn_bind_ok run
  cases got
  dsimp only at rest
  split_ifs at rest
  · obtain ⟨file, s₂, log₂, made, rest⟩ := Calls.of_runOn_bind_ok rest
    unfold Device.newFile Device.readHeader Device.readBlocks at made
    cases made
    cases rest
    rfl
  · cases rest
    rfl

theorem openNode_kept {pn : PFSNode} {r : Option Object}
    (run : (openNode hw pn).runOn w log = (.ok (r, w'), log')) : w' = w := by
  cases pn with
  | tarFS n =>
      unfold openNode at run
      obtain ⟨f, w₁, log₁, opened, rest⟩ := Calls.of_runOn_bind_ok run
      obtain ⟨tar, found, rfl⟩ := Calls.of_runOn_zoom_ok opened
      obtain rfl := openNode_tar found
      cases rest
      rfl
  | _ =>
      cases run
      rfl

theorem handleFor_kept (inv : Inv m root w) (few : w.om.nextHandle + 1 < 2 ^ 64) {tree : Tree}
    (rooted : Rooted m root tree) {handle : Nat} {object : Option Object}
    (run : (handleFor t object).runOn { w with tree } log = (.ok (handle, w'), log')) :
    Keeps m root process t w w' := by
  cases object with
  | none =>
      obtain ⟨-, rfl, -⟩ := Calls.of_runOn_pure_ok run
      exact ⟨inv.tree rooted, .tree w tree⟩
  | some object =>
      obtain ⟨w₁, made, inv₁, leaves, -⟩ :=
        (inv.tree rooted).register_run process t few object log
      obtain ⟨result, -⟩ := Prod.mk.inj (run.symm.trans made)
      obtain ⟨-, rfl⟩ := Prod.mk.inj (Except.ok.inj result)
      exact ⟨inv₁, leaves.handles, leaves.objects, leaves.written, leaves.count⟩

theorem sysOpen_kept {path : List UInt8} {r : Nat} (inv : Inv m root w)
    (few : w.om.nextHandle + 1 < 2 ^ 64)
    (run : (sysOpen hw t path).runOn w log = (.ok (r, w'), log')) :
    Keeps m root process t w w' := by
  unfold sysOpen at run
  obtain ⟨pn, w₁, log₁, looked, rest⟩ := Calls.of_runOn_bind_ok run
  obtain ⟨tree, rfl, rooted⟩ := nodeAt_kept inv looked
  cases pn with
  | none =>
      cases rest
      exact ⟨inv.tree rooted, .tree w tree⟩
  | some pn =>
      obtain ⟨f, w₂, log₂, opened, rest⟩ := Calls.of_runOn_bind_ok rest
      obtain rfl := openNode_kept opened
      exact handleFor_kept inv few rooted rest

theorem sysOpendir_kept {path : List UInt8} {r : Nat} (inv : Inv m root w)
    (few : w.om.nextHandle + 1 < 2 ^ 64)
    (run : (sysOpendir t path).runOn w log = (.ok (r, w'), log')) :
    Keeps m root process t w w' := by
  unfold sysOpendir at run
  obtain ⟨pn, w₁, log₁, looked, rest⟩ := Calls.of_runOn_bind_ok run
  obtain ⟨tree, rfl, rooted⟩ := nodeAt_kept inv looked
  cases pn with
  | none =>
      cases rest
      exact ⟨inv.tree rooted, .tree w tree⟩
  | some pn =>
      obtain ⟨s, w₂, log₂, got, rest⟩ := Calls.of_runOn_bind_ok rest
      cases got
      exact handleFor_kept inv few rooted rest

section Handles
variable [DecidableEq π] {size : Nat} {bytes : List UInt8}

theorem withObject_kept {α : Type} {r missing : α} {body : ObjectId → Object → DeviceExec World α}
    (inv : Inv m root w)
    (kept : ∀ o, getObjectSecure process w.om t h = some o →
      (body o (w.objects o)).runOn w log = (.ok (r, w'), log') → Keeps m root process t w w')
    (run : (withObject process t h missing body).runOn w log = (.ok (r, w'), log')) :
    Keeps m root process t w w' := by
  unfold withObject at run
  obtain ⟨s, w₁, log₁, got, rest⟩ := Calls.of_runOn_bind_ok run
  cases got
  cases mine : getObjectSecure process w.om t h with
  | none =>
      rw [mine] at rest
      cases rest
      exact .refl inv
  | some o =>
      rw [mine] at rest
      exact kept o mine rest

theorem sysRead_kept {r : Int × Memory} (inv : Inv m root w)
    (run : (sysRead hw process t h size).runOn w log = (.ok (r, w'), log')) :
    Keeps m root process t w w' := by
  refine withObject_kept inv (fun o mine rest => ?_) run
  cases object : w.objects o with
  | tarFSFile f =>
      rw [object] at rest
      obtain ⟨f', -, rfl⟩ := Calls.of_runOn_zoom_ok rest
      exact inv.setObject_keeps mine _
  | terminalFile d =>
      rw [object] at rest
      dsimp only at rest
      unfold readTerminal at rest
      obtain ⟨s, w₁, log₁, got, rest⟩ := Calls.of_runOn_bind_ok rest
      cases got
      split_ifs at rest
      · cases rest
      · obtain ⟨⟨⟩, w₂, log₂, stored, rest⟩ := Calls.of_runOn_bind_ok rest
        cases stored
        obtain ⟨-, rfl, -⟩ := Calls.of_runOn_pure_ok rest
        exact inv.typed_keeps _
  | directory d =>
      rw [object] at rest
      cases rest

theorem sysWrite_kept {r : Int} (inv : Inv m root w)
    (run : (sysWrite hw process t h bytes).runOn w log = (.ok (r, w'), log')) :
    Keeps m root process t w w' := by
  refine withObject_kept inv (fun o mine rest => ?_) run
  cases object : w.objects o with
  | tarFSFile f =>
      rw [object] at rest
      cases rest
      exact .refl inv
  | terminalFile d =>
      rw [object] at rest
      dsimp only at rest
      split_ifs at rest
      · obtain ⟨⟨⟩, w₂, log₂, stored, rest⟩ := Calls.of_runOn_bind_ok rest
        cases stored
        obtain ⟨-, rfl, -⟩ := Calls.of_runOn_pure_ok rest
        exact inv.terminals_keeps w.typed fun e only => by rw [List.mem_singleton.mp only]
      · cases rest
        exact .refl inv
  | directory d =>
      rw [object] at rest
      cases rest

theorem sysClose_kept {r : Int} (inv : Inv m root w)
    (run : (sysClose process t h).runOn w log = (.ok (r, w'), log')) :
    Keeps m root process t w w' := by
  refine withObject_kept inv (fun o mine rest => ?_) run
  cases object : w.objects o with
  | directory d =>
      rw [object] at rest
      cases rest
  | _ =>
      rw [object] at rest
      cases rest
      exact .refl inv

theorem sysReaddir_kept {r : Option (List UInt8 × Nat)} (inv : Inv m root w)
    (run : (sysReaddir process t h).runOn w log = (.ok (r, w'), log')) :
    Keeps m root process t w w' := by
  refine withObject_kept inv (fun o mine rest => ?_) run
  cases object : w.objects o with
  | directory d =>
      rw [object] at rest
      dsimp only at rest
      cases entry : d.entries[d.currentEntry]? with
      | none =>
          rw [entry] at rest
          cases rest
          exact .refl inv
      | some e =>
          rw [entry] at rest
          cases rest
          exact inv.setObject_keeps mine _
  | _ =>
      rw [object] at rest
      cases rest

theorem sysClosedir_kept {r : Int} (inv : Inv m root w)
    (run : (sysClosedir process t h).runOn w log = (.ok (r, w'), log')) :
    Keeps m root process t w w' := by
  refine withObject_kept inv (fun o mine rest => ?_) run
  cases object : w.objects o with
  | directory d =>
      rw [object] at rest
      dsimp only at rest
      split_ifs at rest
      · cases rest
        exact inv.setObject_keeps mine _
      · cases rest
        exact .refl inv
  | _ =>
      rw [object] at rest
      cases rest

/-- No call reaches what another process has open, or writes in another thread's name. -/
theorem serve_kept {c : Call} {r : c.Answer} (inv : Inv m root w)
    (few : w.om.nextHandle + 1 < 2 ^ 64)
    (run : (serve hw process t c).runOn w log = (.ok (r, w'), log')) :
    Keeps m root process t w w' := by
  cases c with
  | openFile path => exact sysOpen_kept inv few run
  | read h size => exact sysRead_kept inv run
  | write h bytes => exact sysWrite_kept inv run
  | close h => exact sysClose_kept inv run
  | opendir path => exact sysOpendir_kept inv few run
  | readdir h => exact sysReaddir_kept inv run
  | closedir h => exact sysClosedir_kept inv run

/-! ### What others do -/

/-- The act is none of the process of `me`. -/
def Act.Foreign (process : ThreadId → π) (me : ThreadId) : Act → Prop
  | .call caller _ => process me ≠ process caller
  | .keys _ _ => True

/-- What a program has open and has written is as others left it. -/
structure Undisturbed (m : Mounts) (root : NodeId) (me : ThreadId) (w w' : World) : Prop where
  inv : Inv m root w'
  owns : ∀ h object, Owns me h object w → Owns me h object w'
  written : w'.writtenBy me = w.writtenBy me
  count : w'.om.nextHandle ≤ w.om.nextHandle + 1

theorem perform_undisturbed {op : Act} (inv : Inv m root w) (few : w.om.nextHandle + 1 < 2 ^ 64)
    (foreign : op.Foreign process me)
    (run : (perform hw process op).runOn w log = (.ok ((), w'), log')) :
    Undisturbed m root me w w' := by
  cases op with
  | keys device buffer =>
      cases run
      have keeps : Keeps m root process me w _ := inv.typed_keeps (update w.typed device buffer)
      exact ⟨keeps.1, fun h object owns => owns, rfl, Nat.le_succ _⟩
  | call caller c =>
      unfold perform at run
      obtain ⟨s, w₁, log₁, got, rest⟩ := Calls.of_runOn_bind_ok run
      cases got
      split_ifs at rest
      · cases rest
        exact ⟨inv, fun h object owns => owns, rfl, Nat.le_succ _⟩
      · obtain ⟨r, w₂, log₂, served, rest⟩ := Calls.of_runOn_bind_ok rest
        cases rest
        obtain ⟨inv', leaves⟩ := serve_kept inv few served
        have other : me ≠ caller := fun same => foreign (congrArg process same)
        exact ⟨inv', fun h object owns => leaves.owns foreign owns, leaves.writtenBy other,
          leaves.count.2⟩

end Handles

end Steps
end Infos.Kernel.FileCalls
