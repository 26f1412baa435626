import Infos.Fs.TarfsTree
import Infos.Fs.VfsCoherence
import Infos.Kernel.DeviceManager
import Infos.Lib.Directories

/-!
# Names in directories

The four tables of names: the nodes of TarFS and tmpfs, the cache of a VFS node
and the device registry. All are keyed by the hash of the name alone.
-/
namespace Infos.Fs
open Infos.Lib Infos.Util Function

/-- Nodes of TarFS, to which children are added. -/
def tarDirectories : Directories TarState NodeId Name NodeId where
  start s := ∀ n, (s.nodes n).children = .empty
  add s n name child s' := (addChild n name child).run s = .ok ((), s')
  other _ _ := False
  lookup := TarState.getChild

/-- Directories of tmpfs, in which directories are made. -/
def tempDirectories : Directories Vfs.VfsState Vfs.PfsId Name Vfs.PfsId where
  start s := s = .initial
  add s p name dir s' := p < s.nextP ∧ (Vfs.tempMkdir p name).run s = .ok (dir, s')
  other _ _ := False
  lookup := Vfs.VfsState.tempGetChild

/-- The cache of VFS nodes: `get_child` adds what it did not find. -/
def vfsDirectories : Directories Vfs.VfsState Vfs.VfsId Name Vfs.VfsId where
  start s := s = .initial
  add s v name child s' := v < s.nextV ∧ s.cached v name = none ∧
    (Vfs.getChild v name).run s = .ok (some child, s')
  other s s' := ∃ p name dir, p < s.nextP ∧ (Vfs.tempMkdir p name).run s = .ok (dir, s')
  lookup := Vfs.VfsState.cached

/-- The registry of devices, with their names and aliases. -/
def deviceDirectories : Directories Kernel.DeviceManager Unit Name Kernel.DeviceId where
  start dm := dm.devices = .empty
  add dm _ name device dm' :=
    (∃ c ok, (Kernel.registerDevice c device ok).run dm = .ok (ok, dm') ∧ name = dm'.name device) ∨
      (Kernel.addDeviceAlias name device).run dm = .ok (true, dm')
  other _ _ := False
  lookup dm _ name := dm.tryGetDeviceByName name

section Tables

theorem tarDirectories_byHash : tarDirectories.ByHash getHash := by
  apply Directories.byHash_of_table (fun s n k => (s.nodes n).children.tryGetValue k)
    fun s => ∀ n, (s.nodes n).children.Sound
  · intro s start
    refine ⟨fun n => ?_, fun n k => ?_⟩
    · rw [start n]
      exact Map.empty_sound
    · rw [start n]
      rfl
  · intro s n name child s' sound run
    obtain ⟨children, added, sound', values⟩ := Map.add_spec (getHash name) child (sound n)
    have linked : (addChild n name child).run s =
        .ok ((), s.modifyNode n fun node => { node with children }) := by
      rw [addChild, bind_ok (run_get_eq s), added]
      rfl
    cases run.symm.trans linked
    refine ⟨fun m => ?_, fun m k => ?_⟩
    · by_cases here : m = n
      · rw [here, modifyNode_self]
        exact sound'
      · rw [modifyNode_of_ne here]
        exact sound m
    · by_cases here : m = n
      · rw [here, modifyNode_self]
        dsimp only
        rw [values, update_apply]
        simp only [true_and]
      · rw [modifyNode_of_ne here, if_neg fun e => here e.1]
  · exact fun _ _ _ no => no.elim
  · exact fun _ _ _ _ => rfl

theorem deviceDirectories_byHash : deviceDirectories.ByHash getHash := by
  apply Directories.byHash_of_table (fun dm _ k => dm.devices.tryGetValue k)
    fun dm => dm.devices.Sound
  · intro dm start
    have empty : dm.devices = .empty := start
    rw [empty]
    exact ⟨Map.empty_sound, fun _ _ => rfl⟩
  · rintro dm _ name device dm' sound (⟨c, ok, run, rfl⟩ | run)
    · obtain ⟨_, run', sound', values⟩ := Kernel.registerDevice_run sound c device ok
      cases run.symm.trans run'
      refine ⟨sound', fun _ k => ?_⟩
      rw [values, update_apply]
      simp only [true_and]
    · obtain ⟨_, run', sound', values⟩ := Kernel.addDeviceAlias_run sound name device
      cases run.symm.trans run'
      refine ⟨sound', fun _ k => ?_⟩
      rw [values, update_apply]
      simp only [true_and]
  · exact fun _ _ _ no => no.elim
  · exact fun _ _ _ _ => rfl

theorem tempDirectories_byHash : tempDirectories.ByHash getHash := by
  apply Directories.byHash_of_table Vfs.VfsState.childAt (Vfs.Tree Set.univ)
  · rintro _ rfl
    have initial : Vfs.Inv Set.univ .initial {0} := .initial
    exact ⟨initial.tree, fun _ _ => rfl⟩
  · rintro s p name dir s' tree ⟨old, run⟩
    obtain ⟨s₁, run', made⟩ := tree.mkdir_run old name
    cases run.symm.trans run'
    exact ⟨made.tree tree old (Set.mem_univ _), made.child⟩
  · exact fun _ _ _ no => no.elim
  · exact fun _ _ _ _ => rfl

/-- What the cache needs of a state, whatever its entries wrap. -/
structure Cached (s : Vfs.VfsState) : Prop where
  tree : Vfs.Tree Set.univ s
  sound : ∀ v, (s.vnodes v).children.Sound
  unused : ∀ v, s.nextV ≤ v → ∀ k, s.cachedAt v k = none

theorem vfsDirectories_byHash : vfsDirectories.ByHash getHash := by
  apply Directories.byHash_of_table Vfs.VfsState.cachedAt Cached
  · rintro _ rfl
    have inv : Vfs.Inv Set.univ .initial {0} := .initial
    exact ⟨⟨inv.tree, inv.sound, fun v unused => (inv.unused v unused).2.2⟩, fun _ _ => rfl⟩
  · rintro s v name child s' h ⟨old, free, run⟩
    cases at_v : (s.vnodes v).pn with
    | none => cases run.symm.trans (Vfs.getChild_unbacked name at_v)
    | some q =>
        cases found : s.tempGetChild q name with
        | none => cases run.symm.trans (Vfs.getChild_absent at_v free found)
        | some p =>
            obtain ⟨s₁, run', wrap⟩ :=
              Vfs.getChild_wrap h.sound (h.unused _ le_rfl) old at_v free found
            cases run.symm.trans run'
            refine ⟨⟨wrap.tree h.tree, wrap.sound, ?_⟩, wrap.cached⟩
            intro w unused k
            rw [wrap.nextV] at unused
            rw [wrap.cached, if_neg, h.unused w (Nat.le_of_succ_le unused)]
            rintro ⟨rfl, _⟩
            exact Nat.lt_irrefl _ (old.trans unused)
  · rintro s s' h ⟨p, name, dir, old, run⟩
    obtain ⟨s₁, run', made⟩ := h.tree.mkdir_run old name
    cases run.symm.trans run'
    have same : Vfs.VfsState.cachedAt s' = Vfs.VfsState.cachedAt s := by
      unfold Vfs.VfsState.cachedAt
      rw [made.vnodes]
    refine ⟨⟨made.tree h.tree old (Set.mem_univ _), made.vnodes ▸ h.sound, ?_⟩, same⟩
    rw [same, made.nextV]
    exact h.unused
  · exact fun _ _ _ _ => rfl

end Tables

/-- A lookup finds the object added last under a name with the same hash; so it is exact for a
name that no other added name shares its hash with. -/
def HashedNames {σ κ α : Type} [DecidableEq κ] (D : Directories σ κ Name α) : Prop :=
  D.ByHash getHash ∧ ∀ adds s, D.Reach adds s → ∀ name,
    (∀ e ∈ adds, getHash e.2.1 = getHash name → e.2.1 = name) →
    ∀ d obj, D.lookup s d name = some obj → (d, name, obj) ∈ adds

theorem HashedNames.of_byHash {σ κ α : Type} [DecidableEq κ] {D : Directories σ κ Name α}
    (h : D.ByHash getHash) : HashedNames D :=
  ⟨h, fun _ _ reached _ apart _ _ found => h.exact_of_apart reached apart found⟩

/-- All four tables tell names apart by their hashes. -/
theorem names_by_hash :
    HashedNames tarDirectories ∧ HashedNames tempDirectories ∧ HashedNames vfsDirectories ∧
      HashedNames deviceDirectories :=
  ⟨.of_byHash tarDirectories_byHash, .of_byHash tempDirectories_byHash,
    .of_byHash vfsDirectories_byHash, .of_byHash deviceDirectories_byHash⟩

/-- Two names of 20 letters, digits and dashes with the same hash. -/
def nameA : Name :=
  [56, 121, 110, 48, 105, 89, 67, 75, 89, 72, 108, 73, 106, 52, 45, 66, 119, 80, 113, 107]

def nameB : Name :=
  [71, 82, 101, 76, 85, 114, 77, 52, 119, 77, 113, 102, 103, 57, 121, 122, 86, 51, 75, 81]

/-- In each table an object added under `nameA` is found under `nameB`. -/
theorem names_confused :
    ¬ tarDirectories.Exact ∧ ¬ tempDirectories.Exact ∧ ¬ vfsDirectories.Exact ∧
      ¬ deviceDirectories.Exact := by
  have ne : nameB ≠ nameA := by decide
  refine ⟨?_, ?_, ?_, ?_⟩
  · obtain ⟨_, s, run, found⟩ := of_endsWith (x := addChild 0 nameA 1) (s := .initial)
      (p := fun _ s => s.getChild 0 nameB = some 1) (by decide +kernel)
    have empty : tarDirectories.Reach [] .initial := .start fun _ => rfl
    exact Directories.not_exact empty run (of_decide_eq_true found) ne
  · obtain ⟨dir, s, run, found⟩ := of_endsWith (x := Vfs.tempMkdir 0 nameA) (s := .initial)
      (p := fun dir s => s.tempGetChild 0 nameB = some dir) (by decide +kernel)
    have empty : tempDirectories.Reach [] .initial := .start rfl
    exact Directories.not_exact empty ⟨Nat.one_pos, run⟩ (of_decide_eq_true found) ne
  · obtain ⟨child, s, run, found⟩ := of_endsWith
      (x := do let _ ← Vfs.tempMkdir 0 nameA; Vfs.getChild 0 nameA) (s := .initial)
      (p := fun child s => child = some 1 ∧ s.cached 0 nameB = some 1) (by decide +kernel)
    obtain ⟨rfl, look⟩ := of_decide_eq_true found
    obtain ⟨dir, s₁, made, run⟩ := of_bind_ok run
    have empty : vfsDirectories.Reach [] s₁ :=
      .other (.start rfl) ⟨0, nameA, dir, Nat.one_pos, made⟩
    have free : 0 < s₁.nextV ∧ s₁.cached 0 nameA = none := by
      cases made
      exact ⟨Nat.one_pos, rfl⟩
    exact Directories.not_exact empty ⟨free.1, free.2, run⟩ look ne
  · obtain ⟨r, dm, run, found⟩ := of_endsWith (x := Kernel.addDeviceAlias nameA 7)
      (s := ⟨.empty, fun _ => [], fun _ => 0⟩)
      (p := fun r dm => r = true ∧ dm.tryGetDeviceByName nameB = some 7) (by decide +kernel)
    obtain ⟨rfl, look⟩ := of_decide_eq_true found
    have empty : deviceDirectories.Reach [] ⟨.empty, fun _ => [], fun _ => 0⟩ := .start rfl
    exact Directories.not_exact (d := ()) empty (.inr run) look ne

end Infos.Fs
