import Infos.Lib.Machine
import Infos.Util.Map
import Infos.Util.String

/-!
# The virtual file system over tmpfs

A VFS node caches its children; each wraps a node of a physical file system. A
node pointer is its number in its heap.
-/
namespace Infos.Fs.Vfs
open Infos.Lib Infos.Util Function

abbrev Name := List UInt8

abbrev PfsId := Nat

abbrev VfsId := Nat

structure TempFSNode where
  name : Name
  children : Map HashType PfsId

structure VFSNode where
  parent : Option VfsId
  pn : Option PfsId
  children : Map HashType VfsId

/-- `mounts` is what was mounted on each node last; no function reads it. -/
structure VfsState where
  pnodes : PfsId → TempFSNode
  nextP : PfsId
  vnodes : VfsId → VFSNode
  nextV : VfsId
  mounts : VfsId → Option PfsId

/-- Two kinds of file systems: those made by `tmpfs_create`, and any whose `mount` returns NULL. -/
inductive Filesystem where
  | tempFS
  | unmountable
  deriving DecidableEq, Repr

structure FilesystemRegistration (δ : Type) where
  name : Name
  creationFn : Option δ → Option Filesystem

/-- The loop of `strncmp`. -/
def strncmpLoop : List UInt8 → List UInt8 → Nat → Int
  | c :: str1, d :: str2, n + 1 => if c ≠ d then -1 else strncmpLoop str1 str2 n
  | _, _, _ => 0

def strncmp (str1 str2 : List UInt8) (n : Nat) : Int :=
  if str1.length ≠ str2.length then -1 else strncmpLoop str1 str2 n

def lookupFs {δ : Type} (filesystems : List (FilesystemRegistration δ)) (fstype : Name) :
    Option (FilesystemRegistration δ) :=
  filesystems.find? fun reg => strncmp reg.name fstype 16 == 0

/-! ### Physical nodes -/

def newTempNode (name : Name) : Exec VfsState PfsId := do
  let s ← get
  set { s with pnodes := update s.pnodes s.nextP ⟨name, .empty⟩, nextP := s.nextP + 1 }
  pure s.nextP

def VfsState.tempGetChild (s : VfsState) (p : PfsId) (name : Name) : Option PfsId :=
  (s.pnodes p).children.tryGetValue (getHash name)

def tempMkdir (p : PfsId) (name : Name) : Exec VfsState PfsId := do
  let dir ← newTempNode name
  let s ← get
  let children ← lift ((s.pnodes p).children.add (getHash name) dir)
  set { s with pnodes := update s.pnodes p { s.pnodes p with children } }
  pure dir

/-- `fs->mount()` -/
def Filesystem.mount : Filesystem → Exec VfsState (Option PfsId)
  | .tempFS => do pure (some (← newTempNode []))
  | .unmountable => pure none

/-! ### VFS nodes -/

def newVFSNode (parent : VfsId) (pn : PfsId) : Exec VfsState VfsId := do
  let s ← get
  set { s with
    vnodes := update s.vnodes s.nextV ⟨some parent, some pn, .empty⟩
    nextV := s.nextV + 1 }
  pure s.nextV

def addCached (v : VfsId) (name : Name) (child : VfsId) : Exec VfsState Unit := do
  let s ← get
  let children ← lift ((s.vnodes v).children.add (getHash name) child)
  set { s with vnodes := update s.vnodes v { s.vnodes v with children } }

def getChild (v : VfsId) (name : Name) : Exec VfsState (Option VfsId) := do
  let s ← get
  match (s.vnodes v).pn with
  | none => pure none
  | some pn =>
      match (s.vnodes v).children.tryGetValue (getHash name) with
      | some child => pure (some child)
      | none =>
          match s.tempGetChild pn name with
          | none => pure none
          | some assoc => do
              let child ← newVFSNode v assoc
              addCached v name child
              pure (some child)

def mkdir (v : VfsId) (name : Name) : Exec VfsState (Option VfsId) := do
  match ((← get).vnodes v).pn with
  | none => pure none
  | some pn => do
      let _ ← tempMkdir pn name
      getChild v name

def mount {δ : Type} (filesystems : List (FilesystemRegistration δ)) (v : VfsId) (fstype : Name)
    (dev : Option δ) : Exec VfsState (Option Filesystem) := do
  match lookupFs filesystems fstype with
  | none => pure none
  | some fsreg =>
      match fsreg.creationFn dev with
      | none => pure none
      | some fs => do
          match ← fs.mount with
          | none => pure none
          | some pn => do
              modify fun s => { s with
                vnodes := update s.vnodes v { s.vnodes v with pn := some pn, children := .empty }
                mounts := update s.mounts v (some pn) }
              pure (some fs)

/-- A root node that wraps the root of a new tmpfs. -/
def VfsState.initial : VfsState where
  pnodes := fun _ => ⟨[], .empty⟩
  nextP := 1
  vnodes := fun v => ⟨none, if v = 0 then some 0 else none, .empty⟩
  nextV := 1
  mounts := fun _ => none

/-! ### Runs -/

inductive Op (δ : Type) where
  | getChild (v : VfsId) (name : Name)
  | mkdir (v : VfsId) (name : Name)
  | mount (v : VfsId) (fstype : Name) (dev : Option δ)

def Op.run {δ : Type} (filesystems : List (FilesystemRegistration δ)) : Op δ → Exec VfsState Unit
  | .getChild v name => do let _ ← Vfs.getChild v name
  | .mkdir v name => do let _ ← Vfs.mkdir v name
  | .mount v fstype dev => do let _ ← Vfs.mount filesystems v fstype dev

def VfsState.cached (s : VfsState) (v : VfsId) (name : Name) : Option VfsId :=
  (s.vnodes v).children.tryGetValue (getHash name)

/-- Calls on existing nodes, with the given names; `mkdir` only where nothing is cached. -/
def Op.Valid {δ : Type} (names : Set Name) (s : VfsState) : Op δ → Prop
  | .getChild v name => v < s.nextV ∧ name ∈ names
  | .mkdir v name => v < s.nextV ∧ name ∈ names ∧ s.cached v name = none
  | .mount v _ _ => v < s.nextV

def machine {δ : Type} (filesystems : List (FilesystemRegistration δ)) (names : Set Name) :
    Machine VfsState (Op δ) Unit where
  start s := s = .initial
  valid := Op.Valid names
  run := Op.run filesystems

/-- The physical node of `v` has the child `p`, whose name is `name`. -/
def VfsState.HasChild (s : VfsState) (v : VfsId) (name : Name) (p : PfsId) : Prop :=
  ∃ q k, (s.vnodes v).pn = some q ∧ (s.pnodes q).children.tryGetValue k = some p ∧
    (s.pnodes p).name = name

/-- What the three calls do in `s`. A child that was mounted on wraps what was mounted last. -/
structure Coherent {δ : Type} (filesystems : List (FilesystemRegistration δ)) (names : Set Name)
    (s : VfsState) : Prop where
  getChild : ∀ v < s.nextV, ∀ name ∈ names, ∃ r s', (Vfs.getChild v name).run s = .ok (r, s') ∧
    (r = none ↔ ∀ p, ¬ s.HasChild v name p) ∧
    ∀ c, r = some c → ∃ p, s.HasChild v name p ∧ (s'.vnodes c).pn = some ((s.mounts c).getD p)
  mkdir : ∀ v < s.nextV, ∀ name ∈ names, s.cached v name = none →
    ∃ r s', (Vfs.mkdir v name).run s = .ok (r, s') ∧
      ∀ c, r = some c → ∃ p, s.nextP ≤ p ∧ s'.HasChild v name p ∧ (s'.vnodes c).pn = some p
  mount : ∀ v < s.nextV, ∀ fstype dev,
    ∃ r s', (Vfs.mount filesystems v fstype dev).run s = .ok (r, s') ∧ (r = none → s' = s)

/-- A table in which a new record was made at `n` and then the one at `q` changed. -/
theorem written_cases {α : Type} (f : Nat → α) {q n : Nat} (other : q ≠ n) (new old : α)
    (x : Nat) :
    x = q ∧ update (update f n new) q old x = old ∨
    x ≠ q ∧ x = n ∧ update (update f n new) q old x = new ∨
    x ≠ q ∧ x ≠ n ∧ update (update f n new) q old x = f x := by
  by_cases here : x = q
  · subst here
    exact .inl ⟨rfl, update_self _ _ _⟩
  · rw [update_of_ne here]
    by_cases made : x = n
    · subst made
      exact .inr (.inl ⟨here, rfl, update_self _ _ _⟩)
    · exact .inr (.inr ⟨here, made, update_of_ne made _ _⟩)

end Infos.Fs.Vfs
