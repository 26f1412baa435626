import Infos.Fs.VfsRuns

/-!
# Coherence of the VFS cache
-/
namespace Infos.Fs.Vfs
open Infos.Lib Infos.Util Function

section Calls
variable {names : Set Name} {s s' : VfsState} {W : Set PfsId} {v c : VfsId} {q p : PfsId}
  {name : Name}

/-! ### `get_child`, path by path -/

theorem getChild_unbacked (name : Name) (at_v : (s.vnodes v).pn = none) :
    (getChild v name).run s = .ok (none, s) := by
  unfold getChild
  rw [bind_ok (run_get_eq s), at_v]
  rfl

theorem getChild_hit (at_v : (s.vnodes v).pn = some q) (hit : s.cached v name = some c) :
    (getChild v name).run s = .ok (some c, s) := by
  unfold getChild
  rw [bind_ok (run_get_eq s)]
  simp only [at_v, show (s.vnodes v).children.tryGetValue (getHash name) = some c from hit]
  rfl

theorem getChild_absent (at_v : (s.vnodes v).pn = some q) (free : s.cached v name = none)
    (absent : s.tempGetChild q name = none) : (getChild v name).run s = .ok (none, s) := by
  unfold getChild
  rw [bind_ok (run_get_eq s)]
  simp only [at_v, show (s.vnodes v).children.tryGetValue (getHash name) = none from free, absent]
  rfl

theorem Inv.fresh (h : Inv names s W) (k : HashType) : s.cachedAt s.nextV k = none :=
  (h.unused _ le_rfl).2.2 k

theorem getChild_wrap (sound : ∀ w, (s.vnodes w).children.Sound)
    (fresh : ∀ k, s.cachedAt s.nextV k = none) (old : v < s.nextV)
    (at_v : (s.vnodes v).pn = some q) (free : s.cached v name = none)
    (child : s.tempGetChild q name = some p) :
    ∃ s', (getChild v name).run s = .ok (some s.nextV, s') ∧ Wrapped s s' v name p := by
  obtain ⟨s', run, wrapped⟩ := wrap_run sound fresh old name p
  refine ⟨s', ?_, wrapped⟩
  unfold getChild
  rw [bind_ok (run_get_eq s)]
  simp only [at_v, show (s.vnodes v).children.tryGetValue (getHash name) = none from free, child]
  exact run

/-! ### The three calls -/

theorem Tree.hasChild_iff (h : Tree names s) (noCollision : Set.InjOn getHash names)
    (known : name ∈ names) (at_v : (s.vnodes v).pn = some q) :
    s.HasChild v name p ↔ s.tempGetChild q name = some p := by
  constructor
  · rintro ⟨q', k, at_v', child, rfl⟩
    cases at_v.symm.trans at_v'
    obtain ⟨rfl, _⟩ := h.key q k p child
    exact child
  · intro child
    obtain ⟨hash, named⟩ := h.key q _ p child
    exact ⟨q, getHash name, at_v, child, noCollision named known hash⟩

theorem Inv.getChild_run (h : Inv names s W) (noCollision : Set.InjOn getHash names)
    (old : v < s.nextV) (known : name ∈ names) :
    ∃ r s' W', (getChild v name).run s = .ok (r, s') ∧ Inv names s' W' ∧
      (r = none ↔ ∀ p, ¬ s.HasChild v name p) ∧
      ∀ c, r = some c → ∃ p, s.HasChild v name p ∧ (s'.vnodes c).pn = some ((s.mounts c).getD p) := by
  cases at_v : (s.vnodes v).pn with
  | none =>
      refine ⟨none, s, W, getChild_unbacked name at_v, h, iff_of_true rfl ?_, nofun⟩
      rintro p ⟨q, k, at_v', _⟩
      exact absurd (at_v.symm.trans at_v') nofun
  | some q =>
      have has {p : PfsId} := h.tree.hasChild_iff (p := p) noCollision known at_v
      cases hit : s.cached v name with
      | some c =>
          obtain ⟨q', p, at_v', child, _, _, wraps⟩ := h.cached v _ c hit
          cases at_v.symm.trans at_v'
          have child : s.HasChild v name p := has.mpr child
          refine ⟨some c, s, W, getChild_hit at_v hit, h, iff_of_false nofun fun no => no p child, ?_⟩
          rintro _ ⟨⟩
          exact ⟨p, child, wraps⟩
      | none =>
          cases child : s.tempGetChild q name with
          | none =>
              refine ⟨none, s, W, getChild_absent at_v hit child, h, iff_of_true rfl ?_, nofun⟩
              intro p found
              exact absurd (child.symm.trans (has.mp found)) nofun
          | some p =>
              obtain ⟨s', run, wrap⟩ := getChild_wrap h.sound h.fresh old at_v hit child
              refine ⟨_, s', _, run, wrap.inv h old at_v child hit, ?_, ?_⟩
              · exact iff_of_false nofun fun no => no p (has.mpr child)
              · rintro _ ⟨⟩
                rw [wrap.pn, if_pos rfl, (h.unused _ le_rfl).2.1]
                exact ⟨p, has.mpr child, rfl⟩

theorem Inv.mkdir_run (h : Inv names s W) (old : v < s.nextV) (known : name ∈ names)
    (free : s.cached v name = none) :
    ∃ r s' W', (mkdir v name).run s = .ok (r, s') ∧ Inv names s' W' ∧
      ∀ c, r = some c → ∃ p, s.nextP ≤ p ∧ s'.HasChild v name p ∧ (s'.vnodes c).pn = some p := by
  cases at_v : (s.vnodes v).pn with
  | none =>
      refine ⟨none, s, W, ?_, h, nofun⟩
      unfold mkdir
      rw [bind_ok (run_get_eq s), at_v]
      rfl
  | some q =>
      have old_q : q < s.nextP := h.bound q (h.wrapped v q at_v)
      obtain ⟨s₁, run₁, made⟩ := h.tree.mkdir_run old_q name
      have h₁ : Inv names s₁ W := made.inv h at_v known free
      have at_v₁ : (s₁.vnodes v).pn = some q := made.vnodes ▸ at_v
      have free₁ : s₁.cached v name = none := by
        unfold VfsState.cached
        rw [made.vnodes]
        exact free
      have child : s₁.tempGetChild q name = some s.nextP :=
        (made.child q (getHash name)).trans (if_pos ⟨rfl, rfl⟩)
      have old₁ : v < s₁.nextV := made.nextV ▸ old
      obtain ⟨s', run', wrap⟩ := getChild_wrap h₁.sound h₁.fresh old₁ at_v₁ free₁ child
      refine ⟨some s₁.nextV, s', _, ?_, wrap.inv h₁ old₁ at_v₁ child free₁, ?_⟩
      · unfold mkdir
        rw [bind_ok (run_get_eq s), at_v]
        exact (bind_ok run₁).trans run'
      · rintro _ ⟨⟩
        refine ⟨s.nextP, le_rfl, ⟨q, getHash name, ?_, ?_, ?_⟩, ?_⟩
        · rw [wrap.pn, if_neg (Nat.ne_of_lt old₁)]
          exact at_v₁
        · exact (wrap.child _ _).trans child
        · rw [wrap.pnodes, made.name, if_pos rfl]
        · rw [wrap.pn, if_pos rfl]

theorem Inv.mount_total {δ : Type} (h : Inv names s W) (old : v < s.nextV)
    (filesystems : List (FilesystemRegistration δ)) (fstype : Name) (dev : Option δ) :
    ∃ r s' W', (mount filesystems v fstype dev).run s = .ok (r, s') ∧ Inv names s' W' ∧
      (r = none → s' = s) := by
  unfold mount
  cases lookupFs filesystems fstype with
  | none => exact ⟨none, s, W, rfl, h, fun _ => rfl⟩
  | some fsreg =>
      dsimp only
      cases fsreg.creationFn dev with
      | none => exact ⟨none, s, W, rfl, h, fun _ => rfl⟩
      | some fs =>
          cases fs with
          | unmountable => exact ⟨none, s, W, rfl, h, fun _ => rfl⟩
          | tempFS =>
              obtain ⟨s₁, s', run, rfl, mounted⟩ := h.mount_run v
              refine ⟨some .tempFS, _, _, ?_, mounted.inv h old, nofun⟩
              exact bind_ok run

/-- Every reached state keeps the two trees together. -/
theorem reach_inv {δ : Type} {filesystems : List (FilesystemRegistration δ)}
    (noCollision : Set.InjOn getHash names) (h : (machine filesystems names).Reach s) :
    ∃ W, Inv names s W := by
  apply Machine.Reach.invariant (I := fun s => ∃ W, Inv names s W) ?_ ?_ h
  · rintro _ rfl
    exact ⟨_, .initial⟩
  · rintro s s' op _ ⟨W, inv⟩ valid run
    cases op with
    | getChild v name =>
        obtain ⟨r, s₁, W', run', inv', _⟩ := inv.getChild_run noCollision valid.1 valid.2
        cases run.symm.trans (bind_ok run')
        exact ⟨W', inv'⟩
    | mkdir v name =>
        obtain ⟨r, s₁, W', run', inv', _⟩ := inv.mkdir_run valid.1 valid.2.1 valid.2.2
        cases run.symm.trans (bind_ok run')
        exact ⟨W', inv'⟩
    | mount v fstype dev =>
        obtain ⟨r, s₁, W', run', inv', _⟩ := inv.mount_total valid filesystems fstype dev
        cases run.symm.trans (bind_ok run')
        exact ⟨W', inv'⟩

end Calls

/-- In every reached state `get_child` finds the physical children, through what is mounted on
them, `mkdir` returns the directory it made and a mount that fails changes nothing. -/
theorem vfs_cache_coherent {δ : Type} (filesystems : List (FilesystemRegistration δ))
    (names : Set Name) (noCollision : Set.InjOn getHash names) {s : VfsState}
    (h : (machine filesystems names).Reach s) : Coherent filesystems names s := by
  obtain ⟨W, inv⟩ := reach_inv noCollision h
  constructor
  case getChild =>
    intro v old name known
    obtain ⟨r, s', _, run, _, result⟩ := inv.getChild_run noCollision old known
    exact ⟨r, s', run, result⟩
  case mkdir =>
    intro v old name known free
    obtain ⟨r, s', _, run, _, result⟩ := inv.mkdir_run old known free
    exact ⟨r, s', run, result⟩
  case mount =>
    intro v old fstype dev
    obtain ⟨r, s', _, run, _, result⟩ := inv.mount_total old filesystems fstype dev
    exact ⟨r, s', run, result⟩

/-- The registration of tmpfs. -/
def tmpfsRegistration : FilesystemRegistration Unit :=
  ⟨[116, 109, 112, 102, 115], fun _ => some .tempFS⟩

theorem vfs_cache_coherent_mounted :
    ∃ s, (machine [tmpfsRegistration] {[97]}).Reach s ∧ s.nextV = 2 ∧
      Coherent [tmpfsRegistration] {[97]} s := by
  obtain ⟨_, s, run, made⟩ := of_endsWith (x := Op.run [tmpfsRegistration] (.mkdir 0 [97]))
    (s := .initial) (p := fun _ s => s.nextV = 2) (by decide +kernel)
  have start : (machine [tmpfsRegistration] {[97]}).Reach .initial := .start rfl
  have valid : (machine [tmpfsRegistration] {[97]}).valid .initial (.mkdir 0 [97]) :=
    ⟨Nat.one_pos, rfl, rfl⟩
  have h : (machine [tmpfsRegistration] {[97]}).Reach s := start.step valid run
  have noCollision : Set.InjOn getHash {([97] : Name)} := Set.injOn_singleton _ _
  exact ⟨s, h, of_decide_eq_true made, vfs_cache_coherent _ _ noCollision h⟩

/-- The directory `a` is mounted on: `get_child` returns the root mounted there, not the child.
The directory `a` is made a second time: `mkdir` returns the first one. -/
theorem vfs_cache_incoherent :
    endsWith
      (do
        let _ ← mkdir 0 [97]
        let _ ← mount [tmpfsRegistration] 1 [116, 109, 112, 102, 115] none
        getChild 0 [97])
      .initial (fun r s => r = some 1 ∧ s.tempGetChild 0 [97] = some 1 ∧
        (s.vnodes 1).pn = some 2) = true ∧
    endsWith
      (do
        let _ ← mkdir 0 [97]
        mkdir 0 [97])
      .initial (fun r s => r = some 1 ∧ s.tempGetChild 0 [97] = some 2 ∧
        (s.vnodes 1).pn = some 1) = true := by
  decide +kernel

end Infos.Fs.Vfs
