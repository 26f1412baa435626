import Infos.Fs.InternalDriver
import Infos.Fs.LookupNode
import Infos.Fs.TarfsSame
import Infos.Kernel.DeviceManager

/-!
# The tree of the running system

What `start_kernel_threadproc` mounts: a tmpfs at the root, the devices under `dev` and the boot
device under `usr`. Afterwards programs only look paths up.
-/
namespace Infos.Fs.Namespace
open Infos.Lib Infos.Util Function
open Infos.Fs.Vfs (PfsId VfsId)
open Infos.Kernel (DeviceManager DeviceId)

inductive PFSNode where
  | rootFS
  | tempFS (p : PfsId)
  | deviceFSRoot
  | deviceFS (device : DeviceId)
  | tarFS (n : NodeId)
  deriving DecidableEq

/-- What the file systems keep. -/
structure Mounts where
  temp : LookupNode.TempFS
  devices : DeviceManager
  tar : TarState

abbrev Tree := LookupNode.State Mounts PFSNode

/-- Every `get_child` takes the hash of the name only. -/
def Mounts.child (m : Mounts) : PFSNode → HashType → Option PFSNode
  | .rootFS, _ => none
  | .tempFS p, k => ((m.temp.nodes p).children.tryGetValue k).map .tempFS
  | .deviceFSRoot, k => (m.devices.devices.tryGetValue k).map .deviceFS
  | .deviceFS _, _ => none
  | .tarFS n, k => (m.tar.childAt (n, k)).map .tarFS

def mkdir (m : Mounts) (pn : PFSNode) (name : Name) : Except Fault (Option PFSNode × Mounts) :=
  match pn with
  | .tempFS p => do
      let (dir, temp) ← LookupNode.tmpfs.mkdir m.temp p name
      .ok (dir.map .tempFS, { m with temp })
  | _ => .ok (none, m)

def filesystems : LookupNode.Filesystems Mounts PFSNode where
  getChild m pn name := m.child pn (getHash name)
  mkdir := mkdir

/-! ### Starting the kernel -/

inductive Filesystem where
  | rootFS
  | tempFS
  | deviceFS
  | tarFS (dev : Device)

structure FilesystemRegistration where
  name : Name
  creationFn : Option DeviceId → Except Fault (Option Filesystem)

section Boot
-- the device as a block device, if its class is one
variable (blockDevice : DeviceId → Option Device)
-- the bytes behind `head` in the stack frame of `build_tree` that hold nothing else
variable (spare : Nat)

def tarfsCreate : Option DeviceId → Except Fault (Option Filesystem)
  | none => .error .nullDeref
  | some device => .ok ((blockDevice device).map .tarFS)

/-- `tarfs`, `devfs`, `tmpfs` and `rootfs` -/
def registrations : List FilesystemRegistration :=
  [⟨[116, 97, 114, 102, 115], tarfsCreate blockDevice⟩,
    ⟨[100, 101, 118, 102, 115], fun _ => .ok (some .deviceFS)⟩,
    ⟨[116, 109, 112, 102, 115], fun _ => .ok (some .tempFS)⟩,
    ⟨[114, 111, 111, 116, 102, 115], fun _ => .ok (some .rootFS)⟩]

def lookupFs (fstype : Name) : Option FilesystemRegistration :=
  (registrations blockDevice).find? fun reg => Vfs.strncmp reg.name fstype 16 == 0

/-- `fs->mount()` -/
def Filesystem.mount : Filesystem → DeviceExec Tree PFSNode
  | .rootFS => pure .rootFS
  | .tempFS => do
      let s ← get
      let t := s.pfs.temp
      set { s with pfs := { s.pfs with
        temp := ⟨update t.nodes t.next ⟨[], .empty⟩, t.next + 1⟩ } }
      pure (.tempFS t.next)
  | .deviceFS => pure .deviceFSRoot
  | .tarFS dev => do
      let root ← Calls.zoom (fun _ => TarState.initial)
        (fun s tar => { s with pfs := { s.pfs with tar } }) (dev.buildTree spare)
      pure (.tarFS root)

/-- `VFSNode::mount`; `false` stands for NULL. -/
def mount (v : VfsId) (fstype : Name) (dev : Option DeviceId) : DeviceExec Tree Bool :=
  match lookupFs blockDevice fstype with
  | none => pure false
  | some fsreg => do
      match ← Calls.ofExec (lift (fsreg.creationFn dev)) with
      | none => pure false
      | some fs => do
          let pn ← fs.mount spare
          Calls.ofExec (LookupNode.mount v pn)
          pure true

/-- `if (!...) arch_abort();` -/
def orAbort (ok : Bool) : DeviceExec Tree Unit := if ok then pure () else throw .aborted

def orAbortNull {α : Type} : Option α → DeviceExec Tree α
  | none => throw .aborted
  | some a => pure a

/-- The name `dev` -/
def devName : Name := [100, 101, 118]

/-- The name `usr` -/
def usrName : Name := [117, 115, 114]

/-- The text `internal_driver`, in an array of 16 bytes. -/
def defaultFstype : Name :=
  [105, 110, 116, 101, 114, 110, 97, 108, 95, 100, 114, 105, 118, 101, 114]

/-- `start_kernel_threadproc` from `vfs().init()` to the mount of the boot device. -/
def startTree (bootDeviceName bootFstype : Name) : DeviceExec Tree Unit := do
  -- the node 0 wraps the root of `rootfs`
  Calls.ofExec (LookupNode.mount 0 .rootFS)
  let root ← orAbortNull (← Calls.ofExec (LookupNode.lookupNode filesystems [47]))
  orAbort (← mount blockDevice spare root [116, 109, 112, 102, 115] none)
  let dev ← orAbortNull (← Calls.ofExec (LookupNode.mkdir filesystems root devName))
  orAbort (← mount blockDevice spare dev [100, 101, 118, 102, 115] none)
  let usr ← orAbortNull (← Calls.ofExec (LookupNode.mkdir filesystems root usrName))
  if bootDeviceName = [] then throw .aborted
  let bootDevice ← orAbortNull ((← get).pfs.devices.tryGetDeviceByName bootDeviceName)
  let bootFstype := if bootFstype = [] then defaultFstype else bootFstype
  orAbort (← mount blockDevice spare usr bootFstype (some bootDevice))

end Boot

/-- The devices are registered and nothing is mounted. -/
def initial (devices : DeviceManager) : Tree where
  pfs := ⟨⟨fun _ => ⟨[], .empty⟩, 0⟩, devices, .initial⟩
  vnodes _ := ⟨none, .empty⟩
  nextV := 1

/-! ### What a path means -/

/-- What is mounted in the root directory. -/
def mounted (root : NodeId) (k : HashType) : Option PFSNode :=
  if k = getHash devName then some .deviceFSRoot
  else if k = getHash usrName then some (.tarFS root)
  else none

/-- The node below `v`, which wraps `pn`. -/
def Mounts.below (m : Mounts) (root : NodeId) (v : VfsId) (pn : PFSNode) (k : HashType) :
    Option PFSNode :=
  if v = 0 then mounted root k else m.child pn k

/-- Where hashes lead to inside of one file system. -/
def Mounts.resolve (m : Mounts) (pn : PFSNode) (ks : List HashType) : Option PFSNode :=
  descend Prod.mk id (fun slot => m.child slot.1 slot.2) pn ks

def Mounts.resolveFrom (m : Mounts) (root : NodeId) (v : VfsId) (pn : PFSNode) :
    List HashType → Option PFSNode
  | [] => some pn
  | k :: ks => (m.below root v pn k).bind fun q => m.resolve q ks

/-- What names mean below `dev`. -/
def Mounts.deviceMeaning (m : Mounts) : List Name → Option PFSNode
  | [] => some .deviceFSRoot
  | [device] => (m.devices.tryGetDeviceByName device).map .deviceFS
  | _ :: _ :: _ => none

/-- What names mean once the kernel has started: the registered devices below `dev`, the nodes of
the archive below `usr`, and nothing else below the root. -/
def Mounts.meaning (m : Mounts) (root : NodeId) : List Name → Option PFSNode
  | [] => some (.tempFS 0)
  | top :: names =>
      if getHash top = getHash devName then m.deviceMeaning names
      else if getHash top = getHash usrName then (m.tar.resolve root names).map .tarFS
      else none

section Meaning
variable {m : Mounts} {root n : NodeId} {ks : List HashType}

theorem resolve_tarFS : m.resolve (.tarFS n) ks = (m.tar.locate n ks).map .tarFS := by
  induction ks generalizing n with
  | nil => rfl
  | cons k ks ih =>
      change ((m.tar.childAt (n, k)).map PFSNode.tarFS).bind (fun q => m.resolve q ks) =
        ((m.tar.childAt (n, k)).bind fun u => m.tar.locate u ks).map .tarFS
      cases m.tar.childAt (n, k) with
      | none => rfl
      | some u => exact ih

theorem resolve_deviceFSRoot (names : List Name) :
    m.resolve .deviceFSRoot (keys names) = m.deviceMeaning names := by
  cases names with
  | nil => rfl
  | cons device names =>
      change ((m.devices.tryGetDeviceByName device).map PFSNode.deviceFS).bind
        (fun q => m.resolve q (keys names)) = _
      cases names with
      | nil =>
          change _ = (m.devices.tryGetDeviceByName device).map PFSNode.deviceFS
          cases m.devices.tryGetDeviceByName device <;> rfl
      | cons name names =>
          change _ = none
          cases m.devices.tryGetDeviceByName device <;> rfl

theorem getHash_devName : getHash devName ≠ getHash usrName := by decide +kernel

theorem resolveFrom_root (m : Mounts) (root : NodeId) (p : List Name) :
    m.resolveFrom root 0 (.tempFS 0) (keys p) = m.meaning root p := by
  cases p with
  | nil => rfl
  | cons top names =>
      change (mounted root (getHash top)).bind (fun q => m.resolve q (keys names)) = _
      rw [mounted, Mounts.meaning]
      split_ifs
      · exact resolve_deviceFSRoot names
      · rw [resolve_eq_locate]
        exact resolve_tarFS
      · rfl

end Meaning

/-! ### One look-up -/

/-- A new node `p` below `v`, under a name that was not cached. -/
structure Wrapped (s s' : Tree) (v : VfsId) (name : Name) (p : PFSNode) : Prop where
  nextV : s'.nextV = s.nextV + 1
  pfs : s'.pfs = s.pfs
  made : s'.vnodes s.nextV = ⟨some p, .empty⟩
  parent : (s'.vnodes v).pn = (s.vnodes v).pn
  linked : (s'.vnodes v).children.tryGetValue =
    update (s.vnodes v).children.tryGetValue (getHash name) (some s.nextV)
  others : ∀ w, w ≠ v → w ≠ s.nextV → s'.vnodes w = s.vnodes w

section Child
variable {s : Tree} {v : VfsId} {pn p : PFSNode} {name : Name}

theorem getChild_cached {c : VfsId} (wraps : (s.vnodes v).pn = some pn)
    (cached : (s.vnodes v).children.tryGetValue (getHash name) = some c) :
    (LookupNode.getChild filesystems v name).run s = .ok (some c, s) := by
  rw [LookupNode.getChild, bind_ok (run_get_eq s)]
  simp only [wraps, cached]
  rfl

theorem getChild_absent (wraps : (s.vnodes v).pn = some pn)
    (uncached : (s.vnodes v).children.tryGetValue (getHash name) = none)
    (absent : s.pfs.child pn (getHash name) = none) :
    (LookupNode.getChild filesystems v name).run s = .ok (none, s) := by
  rw [LookupNode.getChild, bind_ok (run_get_eq s)]
  simp only [wraps, uncached, filesystems, absent]
  rfl

theorem getChild_wraps (sound : (s.vnodes v).children.Sound) (old : v < s.nextV)
    (wraps : (s.vnodes v).pn = some pn)
    (uncached : (s.vnodes v).children.tryGetValue (getHash name) = none)
    (found : s.pfs.child pn (getHash name) = some p) :
    ∃ s', (LookupNode.getChild filesystems v name).run s = .ok (some s.nextV, s') ∧
      Wrapped s s' v name p := by
  have other : v ≠ s.nextV := Nat.ne_of_lt old
  let s₁ : Tree :=
    { s with vnodes := update s.vnodes s.nextV ⟨some p, .empty⟩, nextV := s.nextV + 1 }
  have same : s₁.vnodes v = s.vnodes v := update_of_ne other _ _
  obtain ⟨children, added, _, values⟩ := Map.add_spec (getHash name) s.nextV sound
  let s₂ : Tree := { s₁ with vnodes := update s₁.vnodes v ⟨(s.vnodes v).pn, children⟩ }
  have made : (LookupNode.newVFSNode p).run s = .ok (s.nextV, s₁) := rfl
  have linked : (LookupNode.addCached v name s.nextV).run s₁ = .ok ((), s₂) := by
    rw [LookupNode.addCached, bind_ok (run_get_eq s₁), same, added]
    rfl
  have record : s₂.vnodes v = ⟨(s.vnodes v).pn, children⟩ := update_self _ _ _
  refine ⟨s₂, ?_, ⟨rfl, rfl, ?_, ?_, ?_, ?_⟩⟩
  · rw [LookupNode.getChild, bind_ok (run_get_eq s)]
    simp only [wraps, uncached, filesystems, found]
    rw [bind_ok made, bind_ok linked]
    rfl
  · exact (update_of_ne other.symm _ _).trans (update_self _ _ _)
  · rw [record]
  · rw [record]
    exact values
  · exact fun w notV notNew => (update_of_ne notV _ _).trans (update_of_ne notNew _ _)

end Child

/-! ### Looking paths up after the start -/

/-- The nodes wrap what the paths to them mean, and what is mounted at the root is cached. -/
structure Rooted (m : Mounts) (root : NodeId) (s : Tree) : Prop where
  inv : LookupNode.Inv s
  mounts : s.pfs = m
  top : (s.vnodes 0).pn = some (.tempFS 0)
  wrapped : ∀ v < s.nextV, ∃ pn, (s.vnodes v).pn = some pn
  cached : ∀ v pn k c, (s.vnodes v).pn = some pn →
    (s.vnodes v).children.tryGetValue k = some c → (s.vnodes c).pn = m.below root v pn k
  bare : ∀ k, (s.vnodes 0).children.tryGetValue k = none →
    mounted root k = none ∧ m.child (.tempFS 0) k = none

section Lookups
variable {m : Mounts} {root : NodeId} {s s' : Tree} {v : VfsId} {pn p q : PFSNode} {name : Name}

theorem Wrapped.kept {x : VfsId} (w : Wrapped s s' v name p) (old : x ≠ s.nextV) :
    (s'.vnodes x).pn = (s.vnodes x).pn := by
  by_cases here : x = v
  · rw [here, w.parent]
  · rw [w.others x here old]

theorem Wrapped.rooted (w : Wrapped s s' v name p) (h : Rooted m root s) (inv : LookupNode.Inv s')
    (old : v < s.nextV) (wraps : (s.vnodes v).pn = some pn)
    (below : m.below root v pn (getHash name) = some p) : Rooted m root s' where
  inv := inv
  mounts := w.pfs.trans h.mounts
  top := (w.kept (Nat.ne_of_lt h.inv.pos)).trans h.top
  wrapped x bound := by
    by_cases new : x = s.nextV
    · exact ⟨p, by rw [new, w.made]⟩
    · rw [w.nextV] at bound
      rw [w.kept new]
      exact h.wrapped x (Nat.lt_of_le_of_ne (Nat.lt_succ_iff.mp bound) new)
  cached x pn' k c wraps' cached := by
    by_cases new : x = s.nextV
    · rw [new, w.made] at cached
      cases cached
    rw [w.kept new] at wraps'
    by_cases here : x = v
    · subst here
      cases wraps'.symm.trans wraps
      rw [w.linked, update_apply] at cached
      split_ifs at cached with named
      · cases cached
        rw [w.made, named, below]
      · have newer := h.inv.newer x k c cached
        rw [w.kept (Nat.ne_of_lt newer.2)]
        exact h.cached x pn k c wraps cached
    · rw [w.others x here new] at cached
      have newer := h.inv.newer x k c cached
      rw [w.kept (Nat.ne_of_lt newer.2)]
      exact h.cached x pn' k c wraps' cached
  bare k none := by
    by_cases top : 0 = v
    · subst top
      rw [w.linked, update_apply] at none
      split_ifs at none
      exact h.bare k none
    · rw [w.others 0 top (Nat.ne_of_lt h.inv.pos)] at none
      exact h.bare k none

theorem Rooted.below_eq (h : Rooted m root s) {k : HashType} (wraps : (s.vnodes v).pn = some pn)
    (uncached : (s.vnodes v).children.tryGetValue k = none) :
    m.below root v pn k = m.child pn k := by
  unfold Mounts.below
  split_ifs with top
  · subst top
    cases wraps.symm.trans h.top
    rw [(h.bare k uncached).1, (h.bare k uncached).2]
  · rfl

theorem Rooted.getChild_none (h : Rooted m root s) (wraps : (s.vnodes v).pn = some pn)
    (absent : m.below root v pn (getHash name) = none) :
    (LookupNode.getChild filesystems v name).run s = .ok (none, s) := by
  cases hit : (s.vnodes v).children.tryGetValue (getHash name) with
  | some c =>
      obtain ⟨q, there⟩ := h.wrapped c (h.inv.newer v _ c hit).2
      rw [h.cached v pn _ c wraps hit, absent] at there
      cases there
  | none =>
      rw [h.below_eq wraps hit, ← h.mounts] at absent
      exact getChild_absent wraps hit absent

theorem Rooted.getChild_some (h : Rooted m root s) (old : v < s.nextV)
    (wraps : (s.vnodes v).pn = some pn) (found : m.below root v pn (getHash name) = some q) :
    ∃ c s', (LookupNode.getChild filesystems v name).run s = .ok (some c, s') ∧
      Rooted m root s' ∧ v < c ∧ c < s'.nextV ∧ (s'.vnodes c).pn = some q := by
  cases hit : (s.vnodes v).children.tryGetValue (getHash name) with
  | some c =>
      have newer := h.inv.newer v _ c hit
      refine ⟨c, s, getChild_cached wraps hit, h, newer.1, newer.2, ?_⟩
      rw [h.cached v pn _ c wraps hit, found]
  | none =>
      have child := found
      rw [h.below_eq wraps hit, ← h.mounts] at child
      obtain ⟨s', run, w⟩ := getChild_wraps (h.inv.sound v) old wraps hit child
      have rooted := w.rooted h (h.inv.getChild_kept old run) old wraps found
      refine ⟨s.nextV, s', run, rooted, old, ?_, by rw [w.made]⟩
      rw [w.nextV]
      exact Nat.lt_succ_self _

theorem resolveFrom_below (m : Mounts) (root : NodeId) (inner : v ≠ 0) (pn : PFSNode)
    (ks : List HashType) : m.resolveFrom root v pn ks = m.resolve pn ks := by
  cases ks with
  | nil => rfl
  | cons k ks =>
      rw [Mounts.resolveFrom, Mounts.below, if_neg inner]
      rfl

theorem Rooted.follow (h : Rooted m root s) (old : v < s.nextV)
    (wraps : (s.vnodes v).pn = some pn) (names : List Name) :
    ∃ r s', (LookupNode.follow filesystems v names).run s = .ok (r, s') ∧ Rooted m root s' ∧
      (r.map fun c => (s'.vnodes c).pn) = (m.resolveFrom root v pn (keys names)).map some := by
  induction names generalizing s v pn with
  | nil => exact ⟨some v, s, rfl, h, congrArg some wraps⟩
  | cons name names ih =>
      have step : m.resolveFrom root v pn (keys (name :: names)) =
        (m.below root v pn (getHash name)).bind fun q => m.resolve q (keys names) := rfl
      rw [step, LookupNode.follow]
      cases found : m.below root v pn (getHash name) with
      | none =>
          refine ⟨none, s, ?_, h, rfl⟩
          rw [bind_ok (h.getChild_none wraps found)]
          rfl
      | some q =>
          obtain ⟨c, s₁, run, rooted, newer, bound, there⟩ := h.getChild_some old wraps found
          obtain ⟨r, s₂, run', rooted', ends⟩ := ih rooted bound there
          refine ⟨r, s₂, ?_, rooted', ?_⟩
          · rw [bind_ok run]
            exact run'
          · rw [ends, resolveFrom_below m root (Nat.ne_of_gt (Nat.zero_lt_of_lt newer))]
            rfl

/-- A path leads to the node that its names mean, up to its first empty name. -/
theorem Rooted.lookupNode (h : Rooted m root s) {rest : List UInt8} (proper : 0 ∉ rest)
    (short : ∀ c ∈ leading 47 rest, c.length < 256) :
    ∃ r s', (LookupNode.lookupNode filesystems (47 :: rest)).run s = .ok (r, s') ∧
      Rooted m root s' ∧
      (r.map fun c => (s'.vnodes c).pn) = (m.meaning root (leading 47 rest)).map some := by
  obtain ⟨r, s', run, rooted, ends⟩ := h.follow h.inv.pos h.top (leading 47 rest)
  rw [resolveFrom_root] at ends
  refine ⟨r, s', ?_, rooted, ends⟩
  rw [(h.inv.lookupNode_run filesystems proper).1 (LookupNode.fits_of_short short)]
  exact run

theorem Rooted.lookupNode_kept (h : Rooted m root s) {path : List UInt8} {r : Option VfsId}
    (run : (LookupNode.lookupNode filesystems path).run s = .ok (r, s')) : Rooted m root s' := by
  rw [← LookupNode.lookupNode_text] at run
  have proper := notMem_takeWhile 0 path
  cases text : path.takeWhile (· ≠ 0) with
  | nil =>
      rw [text] at run
      cases run
      exact h
  | cons c rest =>
      rw [text] at run proper
      have clean : (c :: rest).takeWhile (· ≠ 0) = c :: rest := by
        rw [← text, List.takeWhile_idem]
      by_cases absolute : c = 47
      · subst absolute
        have rest0 : 0 ∉ rest := fun mem => proper (List.mem_cons_of_mem 47 mem)
        obtain ⟨fits, long⟩ := h.inv.lookupNode_run filesystems rest0
        by_cases short : s.Fits filesystems (.vnode 0) (leading 47 rest)
        · obtain ⟨_, t, run', rooted, _⟩ := h.follow h.inv.pos h.top (leading 47 rest)
          rw [fits short, run'] at run
          cases run
          exact rooted
        · rw [long short] at run
          cases run
      · rw [LookupNode.lookupNode, clean] at run
        simp only [ne_eq, absolute, not_false_eq_true, if_true] at run
        cases run
        exact h

end Lookups

/-! ### The start -/

section Start
variable {blockDevice : DeviceId → Option Device} {s s₁ : Tree} {v : VfsId}
  {log log₁ : List ReadCall}

def mounting (s : Tree) (v : VfsId) (pn : PFSNode) : Tree :=
  { s with vnodes := update s.vnodes v ⟨some pn, .empty⟩ }

@[simp] theorem mounting_self (s : Tree) (v : VfsId) (pn : PFSNode) :
    (mounting s v pn).vnodes v = ⟨some pn, .empty⟩ := update_self _ _ _

theorem mounting_of_ne {w : VfsId} (s : Tree) (other : w ≠ v) (pn : PFSNode) :
    (mounting s v pn).vnodes w = s.vnodes w := update_of_ne other _ _

theorem mount_run {spare : Nat} {fstype : Name} {dev : Option DeviceId} {fsreg : FilesystemRegistration}
    {fs : Filesystem} {pn : PFSNode} (found : lookupFs blockDevice fstype = some fsreg)
    (created : fsreg.creationFn dev = .ok (some fs))
    (mounts : (fs.mount spare).runOn s log = (.ok (pn, s₁), log₁)) :
    (mount blockDevice spare v fstype dev).runOn s log = (.ok (true, mounting s₁ v pn), log₁) := by
  unfold mount
  rw [found]
  dsimp only
  rw [Calls.runOn_ofExec_bind_ok (y := lift (fsreg.creationFn dev)) (by rw [created]; rfl)]
  dsimp only
  rw [Calls.runOn_bind_ok mounts]
  rfl

theorem mkdir_run {p : PfsId} (name : Name) (inv : LookupNode.Inv s) (old : v < s.nextV)
    (wraps : (s.vnodes v).pn = some (.tempFS p)) (present : p ≠ s.pfs.temp.next)
    (sound : (s.pfs.temp.nodes p).children.Sound)
    (uncached : (s.vnodes v).children.tryGetValue (getHash name) = none) :
    ∃ temp s', (LookupNode.mkdir filesystems v name).run s = .ok (some s.nextV, s') ∧
      LookupNode.Inv s' ∧
      Wrapped { s with pfs := { s.pfs with temp } } s' v name (.tempFS s.pfs.temp.next) ∧
      temp.next = s.pfs.temp.next + 1 ∧ (temp.nodes p).children.Sound ∧
      (temp.nodes p).children.tryGetValue =
        update (s.pfs.temp.nodes p).children.tryGetValue (getHash name) (some s.pfs.temp.next) := by
  obtain ⟨children, added, sound', values⟩ :=
    Map.add_spec (getHash name) s.pfs.temp.next sound
  let nodes := update s.pfs.temp.nodes s.pfs.temp.next ⟨name, .empty⟩
  have parent : nodes p = s.pfs.temp.nodes p := update_of_ne present _ _
  let temp : LookupNode.TempFS :=
    ⟨update nodes p { nodes p with children }, s.pfs.temp.next + 1⟩
  have entry : (temp.nodes p).children = children :=
    congrArg Vfs.TempFSNode.children (update_self p { nodes p with children } nodes)
  let s₁ : Tree := { s with pfs := { s.pfs with temp } }
  have made : mkdir s.pfs (.tempFS p) name =
      .ok (some (.tempFS s.pfs.temp.next), { s.pfs with temp }) := by
    have dir : LookupNode.tmpfs.mkdir s.pfs.temp p name = .ok (some s.pfs.temp.next, temp) := by
      change (nodes p).children.add (getHash name) s.pfs.temp.next >>= _ = _
      rw [parent, added]
      rfl
    rw [mkdir, dir]
    rfl
  have child : s₁.pfs.child (.tempFS p) (getHash name) = some (.tempFS s.pfs.temp.next) := by
    change ((temp.nodes p).children.tryGetValue (getHash name)).map PFSNode.tempFS = _
    rw [entry, values, update_self]
    rfl
  obtain ⟨s', run, w⟩ := getChild_wraps (s := s₁) (inv.sound v) old wraps uncached child
  have whole : (LookupNode.mkdir filesystems v name).run s = .ok (some s.nextV, s') := by
    have lifted : (lift (filesystems.mkdir s.pfs (.tempFS p) name) : Exec Tree _).run s =
        .ok ((some (.tempFS s.pfs.temp.next), { s.pfs with temp }), s) := by
      rw [show filesystems.mkdir s.pfs (.tempFS p) name = _ from made]
      rfl
    rw [LookupNode.mkdir, bind_ok (run_get_eq s)]
    simp only [wraps]
    rw [bind_ok lifted]
    dsimp only
    rw [bind_ok (run_set_eq s s₁)]
    exact run
  refine ⟨temp, s', whole, inv.mkdir_kept old whole, w, rfl, ?_, ?_⟩
  · rw [entry]
    exact sound'
  · rw [entry]
    exact values

theorem node_cases (v : Nat) : v = 0 ∨ v = 1 ∨ v = 2 ∨ 3 ≤ v := by omega

theorem rooted_of_records {s : Tree} {root : NodeId} (inv : LookupNode.Inv s)
    (nextV : s.nextV = 3)
    (top : (s.vnodes 0).pn = some (.tempFS 0)) (devices : s.vnodes 1 = ⟨some .deviceFSRoot, .empty⟩)
    (archive : s.vnodes 2 = ⟨some (.tarFS root), .empty⟩)
    (others : ∀ w, 3 ≤ w → s.vnodes w = ⟨none, .empty⟩)
    (linked : (s.vnodes 0).children.tryGetValue =
      update (update (fun _ => none) (getHash devName) (some 1)) (getHash usrName) (some 2))
    (made : ∀ k, k ≠ getHash devName → k ≠ getHash usrName → s.pfs.child (.tempFS 0) k = none) :
    Rooted s.pfs root s where
  inv := inv
  mounts := rfl
  top := top
  wrapped v bound := by
    rw [nextV] at bound
    rcases node_cases v with rfl | rfl | rfl | other
    · exact ⟨_, top⟩
    · exact ⟨_, by rw [devices]⟩
    · exact ⟨_, by rw [archive]⟩
    · exact absurd bound (Nat.not_lt.mpr other)
  cached v pn k c wraps cached := by
    rcases node_cases v with rfl | rfl | rfl | other
    · cases wraps.symm.trans top
      rw [Mounts.below, if_pos rfl, mounted]
      rw [linked, update_apply, update_apply] at cached
      split_ifs at cached with usr dev
      · cases cached
        rw [archive, usr, if_neg getHash_devName.symm, if_pos rfl]
      · cases cached
        rw [devices, if_pos dev]
    · rw [devices] at cached
      cases cached
    · rw [archive] at cached
      cases cached
    · rw [others v other] at cached
      cases cached
  bare k none := by
    rw [linked, update_apply, update_apply] at none
    split_ifs at none with usr dev
    rw [mounted, if_neg dev, if_neg usr]
    exact ⟨rfl, made k dev usr⟩

/-- The text `tarfs` -/
def tarfsName : Name := [116, 97, 114, 102, 115]

/-- The root directory while the kernel starts: `n` nodes, and `names` are the directories in it. -/
structure RootDir (s : Tree) (n : Nat) (names : HashType → Option VfsId) : Prop where
  inv : LookupNode.Inv s
  nextV : s.nextV = n
  top : (s.vnodes 0).pn = some (.tempFS 0)
  linked : (s.vnodes 0).children.tryGetValue = names
  sound : (s.pfs.temp.nodes 0).children.Sound
  next : 0 ≠ s.pfs.temp.next
  only : ∀ k, names k = none → (s.pfs.temp.nodes 0).children.tryGetValue k = none
  others : ∀ w, n ≤ w → s.vnodes w = ⟨none, .empty⟩

theorem RootDir.mounting {n : Nat} {names : HashType → Option VfsId} (h : RootDir s n names)
    (inner : 0 ≠ v) (old : v < n) (pn : PFSNode) : RootDir (mounting s v pn) n names where
  inv := h.inv.mount_kept v pn
  nextV := h.nextV
  top := by
    rw [mounting_of_ne s inner]
    exact h.top
  linked := by
    rw [mounting_of_ne s inner]
    exact h.linked
  sound := h.sound
  next := h.next
  only := h.only
  others w bound := (mounting_of_ne s (Nat.ne_of_gt (Nat.lt_of_lt_of_le old bound)) pn).trans
    (h.others w bound)

theorem RootDir.archive {n : Nat} {names : HashType → Option VfsId} (h : RootDir s n names)
    (tar : TarState) : RootDir { s with pfs := { s.pfs with tar } } n names :=
  ⟨⟨h.inv.pos, h.inv.sound, h.inv.newer⟩, h.nextV, h.top, h.linked, h.sound, h.next, h.only,
    h.others⟩

theorem RootDir.mkdir {n : Nat} {names : HashType → Option VfsId} (h : RootDir s n names)
    (name : Name) (new : names (getHash name) = none) :
    ∃ s', (LookupNode.mkdir filesystems 0 name).run s = .ok (some n, s') ∧
      RootDir s' (n + 1) (update names (getHash name) (some n)) ∧
      s'.pfs.devices = s.pfs.devices ∧ s'.pfs.tar = s.pfs.tar ∧
      ∀ w, w ≠ 0 → w ≠ n → s'.vnodes w = s.vnodes w := by
  obtain ⟨temp, s', run, inv, w, next, sound, made⟩ :=
    mkdir_run name h.inv h.inv.pos h.top h.next h.sound (by rw [h.linked]; exact new)
  have nextV : s'.nextV = s.nextV + 1 := w.nextV
  have pfs : s'.pfs = { s.pfs with temp } := w.pfs
  rw [h.nextV] at run nextV
  have others : ∀ x, x ≠ 0 → x ≠ n → s'.vnodes x = s.vnodes x := by
    intro x top other
    refine w.others x top ?_
    rw [show ({ s with pfs := { s.pfs with temp } } : Tree).nextV = n from h.nextV]
    exact other
  refine ⟨s', run, ⟨inv, nextV, w.parent.trans h.top, ?_, ?_, ?_, ?_, ?_⟩, ?_, ?_, others⟩
  · rw [w.linked]
    change update (s.vnodes 0).children.tryGetValue (getHash name) (some s.nextV) = _
    rw [h.linked, h.nextV]
  · rw [pfs]
    exact sound
  · rw [pfs]
    change 0 ≠ temp.next
    rw [next]
    exact (Nat.succ_ne_zero _).symm
  · intro k none
    rw [pfs]
    change (temp.nodes 0).children.tryGetValue k = _
    rw [update_apply] at none
    rw [made, update_apply]
    split_ifs at none ⊢
    exact h.only k none
  · intro x bound
    have positive : 0 < n := h.nextV ▸ h.inv.pos
    rw [others x (Nat.ne_of_gt (by omega)) (Nat.ne_of_gt bound)]
    exact h.others x (Nat.le_of_succ_le bound)
  · rw [pfs]
  · rw [pfs]

/-- The root directory before any directory is in it. -/
def bareRoot (devices : DeviceManager) : Tree :=
  mounting { mounting (initial devices) 0 .rootFS with
    pfs := ⟨⟨update (fun _ => ⟨[], .empty⟩) 0 ⟨[], .empty⟩, 1⟩, devices, .initial⟩ } 0 (.tempFS 0)

theorem bareRoot_dir (devices : DeviceManager) : RootDir (bareRoot devices) 1 fun _ => none := by
  have start : LookupNode.Inv (initial devices) := LookupNode.Inv.start
    (show (LookupNode.machine filesystems).start (initial devices) from ⟨rfl, fun _ => rfl⟩)
  have wrapped := (start.mount_kept 0 .rootFS).mount_kept 0 (.tempFS 0)
  refine ⟨⟨wrapped.pos, wrapped.sound, wrapped.newer⟩, rfl, rfl, rfl, Map.empty_sound,
    Nat.zero_ne_one, fun _ _ => rfl, ?_⟩
  intro w bound
  have inner : w ≠ 0 := Nat.ne_of_gt bound
  exact (update_of_ne inner _ _).trans (update_of_ne inner _ _)

section Archive
variable {devices : DeviceManager} {bootDeviceName : Name} {device : DeviceId} {dev : Device}
  {spare : Nat} {root : NodeId} {tar : TarState} {s₄ s₆ : Tree}

theorem mount_tarfs (block : blockDevice device = some dev)
    (built : (dev.buildTree spare).runOn .initial log = (.ok (root, tar), log₁)) (s : Tree) :
    (mount blockDevice spare v tarfsName (some device)).runOn s log =
      (.ok (true, mounting { s with pfs := { s.pfs with tar } } v (.tarFS root)), log₁) := by
  have read : (Calls.zoom (fun _ => TarState.initial)
      (fun (s : Tree) tar => { s with pfs := { s.pfs with tar } }) (dev.buildTree spare)).runOn s log =
      (.ok (root, { s with pfs := { s.pfs with tar } }), log₁) := by
    rw [Calls.runOn_zoom, built]
  have mounts : ((Filesystem.tarFS dev).mount spare).runOn s log =
      (.ok (.tarFS root, { s with pfs := { s.pfs with tar } }), log₁) := by
    rw [Filesystem.mount, Calls.runOn_bind_ok read]
    rfl
  have created : tarfsCreate blockDevice (some device) = .ok (some (.tarFS dev)) := by
    rw [tarfsCreate, block]
    rfl
  exact mount_run (show lookupFs blockDevice tarfsName =
    some ⟨tarfsName, tarfsCreate blockDevice⟩ from rfl) created mounts

theorem startTree_steps (named : bootDeviceName ≠ [])
    (found : s₆.pfs.devices.tryGetDeviceByName bootDeviceName = some device)
    (block : blockDevice device = some dev)
    (built : (dev.buildTree spare).runOn .initial log = (.ok (root, tar), log₁))
    (mkdev : (LookupNode.mkdir filesystems 0 devName).run (bareRoot devices) = .ok (some 1, s₄))
    (mkusr : (LookupNode.mkdir filesystems 0 usrName).run (mounting s₄ 1 .deviceFSRoot) =
      .ok (some 2, s₆)) :
    (startTree blockDevice spare bootDeviceName tarfsName).runOn (initial devices) log =
      (.ok ((), mounting { s₆ with pfs := { s₆.pfs with tar } } 2 (.tarFS root)), log₁) := by
  let s₁ := mounting (initial devices) 0 .rootFS
  have tmpfs : (mount blockDevice spare 0 [116, 109, 112, 102, 115] none).runOn s₁ log =
      (.ok (true, bareRoot devices), log) := mount_run rfl rfl rfl
  have devfs : (mount blockDevice spare 1 [100, 101, 118, 102, 115] none).runOn s₄ log =
      (.ok (true, mounting s₄ 1 .deviceFSRoot), log) := mount_run rfl rfl rfl
  have pass : ∀ (s : Tree) (log : List ReadCall), (orAbort true).runOn s log = (.ok ((), s), log) :=
    fun _ _ => rfl
  have there : ∀ {α : Type} (a : α) (s : Tree), (orAbortNull (some a)).runOn s log =
      (.ok (a, s), log) := fun _ _ => rfl
  unfold startTree
  rw [Calls.runOn_ofExec_bind_ok (show (LookupNode.mount 0 PFSNode.rootFS).run (initial devices) =
    .ok ((), s₁) from rfl)]
  rw [Calls.runOn_ofExec_bind_ok (show (LookupNode.lookupNode filesystems [47]).run s₁ =
    .ok (some 0, s₁) from rfl)]
  rw [Calls.runOn_bind_ok (there 0 s₁), Calls.runOn_bind_ok tmpfs, Calls.runOn_bind_ok (pass _ _)]
  rw [Calls.runOn_ofExec_bind_ok mkdev, Calls.runOn_bind_ok (there 1 s₄)]
  rw [Calls.runOn_bind_ok devfs, Calls.runOn_bind_ok (pass _ _)]
  rw [Calls.runOn_ofExec_bind_ok mkusr, Calls.runOn_bind_ok (there 2 s₆), if_neg named]
  dsimp only
  rw [Calls.runOn_bind_ok (Calls.runOn_get s₆ log), found, Calls.runOn_bind_ok (there device s₆)]
  rw [if_neg (show tarfsName ≠ [] from List.cons_ne_nil _ _),
    Calls.runOn_bind_ok (mount_tarfs block built s₆)]
  exact pass _ _

theorem startTree_run (named : bootDeviceName ≠ [])
    (found : devices.tryGetDeviceByName bootDeviceName = some device)
    (block : blockDevice device = some dev)
    (built : (dev.buildTree spare).runOn .initial log = (.ok (root, tar), log₁)) :
    ∃ s, (startTree blockDevice spare bootDeviceName tarfsName).runOn (initial devices) log =
        (.ok ((), s), log₁) ∧
      Rooted s.pfs root s ∧ s.pfs.devices = devices ∧ s.pfs.tar = tar := by
  obtain ⟨s₄, mkdev, h₄, devices₄, -, others₄⟩ := (bareRoot_dir devices).mkdir devName rfl
  have h₅ := h₄.mounting Nat.zero_ne_one (Nat.lt_succ_self 1) .deviceFSRoot
  have fresh : update (fun _ => none) (getHash devName) (some 1) (getHash usrName) = none :=
    update_of_ne getHash_devName.symm _ _
  obtain ⟨s₆, mkusr, h₆, devices₆, -, others₆⟩ := h₅.mkdir usrName fresh
  have registry : s₆.pfs.devices = devices := devices₆.trans devices₄
  have h₇ := (h₆.archive tar).mounting (v := 2) (by decide) (Nat.lt_succ_self 2) (.tarFS root)
  refine ⟨_, startTree_steps named (registry ▸ found) block built mkdev mkusr,
    rooted_of_records h₇.inv h₇.nextV h₇.top ?_ (mounting_self _ 2 _) h₇.others h₇.linked ?_,
    registry, rfl⟩
  · rw [mounting_of_ne _ (by decide)]
    change s₆.vnodes 1 = _
    rw [others₆ 1 Nat.one_ne_zero (by decide)]
    exact mounting_self s₄ 1 _
  · intro k dev usr
    have none : update (update (fun _ => none) (getHash devName) (some 1)) (getHash usrName)
        (some 2) k = none := by
      rw [update_of_ne usr, update_of_ne dev]
    change ((s₆.pfs.temp.nodes 0).children.tryGetValue k).map PFSNode.tempFS = _
    rw [h₆.only k none]
    rfl

/-- Paths that are looked up one after another. -/
def lookupAll : List (List UInt8) → Exec Tree Unit
  | [] => pure ()
  | path :: paths => do
      let _ ← LookupNode.lookupNode filesystems path
      lookupAll paths

theorem Rooted.lookupAll {m : Mounts} {paths : List (List UInt8)} {s s' : Tree}
    (h : Rooted m root s) (run : (lookupAll paths).run s = .ok ((), s')) : Rooted m root s' := by
  induction paths generalizing s with
  | nil =>
      cases run
      exact h
  | cons path paths ih =>
      obtain ⟨r, s₁, first, rest⟩ := of_bind_ok run
      exact ih (h.lookupNode_kept first) rest

/-- The kernel starts, and whatever has been looked up since, a path leads to what its names up to
the first empty one mean. -/
theorem paths_fixed (named : bootDeviceName ≠ [])
    (found : devices.tryGetDeviceByName bootDeviceName = some device)
    (block : blockDevice device = some dev)
    (built : (dev.buildTree spare).runOn .initial log = (.ok (root, tar), log₁)) :
    ∃ s, (startTree blockDevice spare bootDeviceName tarfsName).runOn (initial devices) log =
        (.ok ((), s), log₁) ∧ s.pfs.devices = devices ∧ s.pfs.tar = tar ∧
      ∀ paths s', (lookupAll paths).run s = .ok ((), s') →
        ∀ rest, 0 ∉ rest → (∀ c ∈ leading 47 rest, c.length < 256) →
          ∃ r s'', (LookupNode.lookupNode filesystems (47 :: rest)).run s' = .ok (r, s'') ∧
            (r.map fun v => (s''.vnodes v).pn) =
              (s.pfs.meaning root (leading 47 rest)).map some := by
  obtain ⟨s, run, rooted, devices', tar'⟩ := startTree_run named found block built
  refine ⟨s, run, devices', tar', fun paths s' looked rest proper short => ?_⟩
  obtain ⟨r, s'', run', -, ends⟩ := (rooted.lookupAll looked).lookupNode proper short
  exact ⟨r, s'', run', ends⟩

end Archive

/-- The name `ata0` -/
def ataName : Name := [97, 116, 97, 48]

/-- A registry with a single device, from which the kernel starts. -/
theorem paths_fixed_ata :
    ∃ (devices : DeviceManager) (tar : TarState) (log : List ReadCall) (s : Tree),
      (startTree (fun _ => some helloDevice.device) 12 ataName tarfsName).runOn
        (initial devices) [] = (.ok ((), s), log) ∧ s.pfs.devices = devices ∧ s.pfs.tar = tar ∧
      ∀ paths s', (lookupAll paths).run s = .ok ((), s') →
        ∀ rest, 0 ∉ rest → (∀ c ∈ leading 47 rest, c.length < 256) →
          ∃ r s'', (LookupNode.lookupNode filesystems (47 :: rest)).run s' = .ok (r, s'') ∧
            (r.map fun v => (s''.vnodes v).pn) =
              (s.pfs.meaning 0 (leading 47 rest)).map some := by
  let blank : DeviceManager := ⟨.empty, fun _ => [], fun _ => 0⟩
  have sound : blank.devices.Sound := Map.empty_sound
  obtain ⟨devices, -, -, values⟩ := Kernel.addDevice_run sound ataName 0
  have found : ({ blank with devices } : DeviceManager).tryGetDeviceByName ataName = some 0 := by
    rw [DeviceManager.tryGetDeviceByName, values]
    exact update_self _ _ _
  obtain ⟨tar, log, built, -⟩ := archive_built (Nat.le_refl 12) helloArchive
  exact ⟨{ blank with devices }, tar, log, paths_fixed (List.cons_ne_nil _ _) found rfl built⟩

end Start

end Infos.Fs.Namespace
