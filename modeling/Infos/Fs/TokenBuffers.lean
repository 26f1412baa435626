import Infos.Fs.LookupNode
import Infos.Util.CommandLine

/-!
# Tokens in local arrays

`component` and `setting` have no bound on what is copied into them, `key` and
`value` have one.
-/
namespace Infos.Fs.LookupNode
open Infos.Lib Infos.Util
open Infos.Util.CommandLine (parse process settings)

section Tokens
variable {σ π φ : Type} {fs : Filesystems σ π} {s : State σ π}

theorem follow_inside (reached : (machine fs).Reach s) (names : List Vfs.Name) :
    (follow fs 0 names).run s ≠ .error .outOfBounds := by
  obtain ⟨r, s', run, _⟩ := (Reach.inv reached).follow_run fs (Reach.inv reached).pos names
  rw [run]
  nofun

theorem lookupNode_inside_iff (reached : (machine fs).Reach s) (spath : List UInt8) :
    (lookupNode fs spath).run s ≠ .error .outOfBounds ↔
      ∀ rest, spath.takeWhile (· ≠ 0) = 47 :: rest → s.Fits fs (.vnode 0) (leading 47 rest) := by
  rw [← lookupNode_text]
  have proper := notMem_takeWhile 0 spath
  have again := List.takeWhile_idem (p := fun c : UInt8 => decide (c ≠ 0)) (l := spath)
  generalize spath.takeWhile (· ≠ 0) = path at proper again ⊢
  cases path with
  | nil =>
      refine iff_of_true (fun run => ?_) fun rest split => ?_
      · cases run
      · cases split
  | cons c rest =>
      by_cases absolute : c = 47
      · subst absolute
        have rest0 : 0 ∉ rest := fun mem => proper (List.mem_cons_of_mem 47 mem)
        obtain ⟨fits, long⟩ := (Reach.inv reached).lookupNode_run fs rest0
        constructor
        · intro inside rest' split
          cases split
          exact Classical.byContradiction fun large => inside (long large)
        · intro all
          rw [fits (all rest rfl)]
          exact follow_inside reached _
      · refine iff_of_true ?_ fun rest' split => absurd (List.cons.inj split).1 absolute
        rw [lookupNode, again]
        simp only [ne_eq, absolute, not_false_eq_true, if_true]
        intro run
        cases run

theorem parse_inside_iff {cmdline : List UInt8} (proper : 0 ∉ cmdline)
    (regs : List (CommandLineArgumentRegistration φ)) :
    parse regs cmdline ≠ .error .outOfBounds ↔
      ∀ token ∈ settings cmdline, token.length < 128 := by
  rw [CommandLine.parse_eq proper]
  by_cases fits : ∀ token ∈ settings cmdline, token.length < 128
  · rw [if_pos fits]
    exact iff_of_true nofun fits
  · rw [if_neg fits]
    exact iff_of_false (fun inside => inside rfl) fits

/-- `process` is always inside its arrays, `lookup_node` and `parse` exactly for short tokens. -/
theorem tokens_inside_iff (reached : (machine fs).Reach s) (spath : List UInt8)
    {cmdline setting : List UInt8} (line : 0 ∉ cmdline) (text : 0 ∉ setting)
    (regs : List (CommandLineArgumentRegistration φ)) :
    (lookupNode fs spath).run s ≠ .error .outOfBounds ∧ parse regs cmdline ≠ .error .outOfBounds ∧
        process regs setting ≠ .error .outOfBounds ↔
      (∀ rest, spath.takeWhile (· ≠ 0) = 47 :: rest → s.Fits fs (.vnode 0) (leading 47 rest)) ∧
        ∀ token ∈ settings cmdline, token.length < 128 := by
  have inside : process regs setting ≠ .error .outOfBounds := by
    rw [CommandLine.process_eq text]
    nofun
  rw [lookupNode_inside_iff reached, parse_inside_iff line]
  exact ⟨fun h => ⟨h.1, h.2.1⟩, fun h => ⟨h.1, h.2, inside⟩⟩

end Tokens

theorem tokens_inside_root :
    (lookupNode tmpfs [47, 97]).run tmpfsRoot ≠ .error .outOfBounds ∧
        parse [⟨some [107], ()⟩] [107, 61, 118] ≠ .error .outOfBounds ∧
        process [⟨some [107], ()⟩] [107, 61, 118] ≠ .error .outOfBounds ↔
      (∀ rest, ([47, 97] : List UInt8).takeWhile (· ≠ 0) = 47 :: rest →
        tmpfsRoot.Fits tmpfs (.vnode 0) (leading 47 rest)) ∧
        ∀ token ∈ settings [107, 61, 118], token.length < 128 :=
  tokens_inside_iff tmpfsRoot_reached [47, 97] (by decide) (by decide) [⟨some [107], ()⟩]

theorem lookupNode_long {n : Nat} (long : 256 ≤ n) :
    (lookupNode tmpfs (47 :: List.replicate n 97)).run tmpfsRoot = .error .outOfBounds := by
  have proper : 0 ∉ List.replicate n (97 : UInt8) := by simp
  refine ((Reach.inv tmpfsRoot_reached).lookupNode_run tmpfs proper).2 fun fits => ?_
  have some : n ≠ 0 := by omega
  have name : leading 47 (List.replicate n (97 : UInt8)) = [] ++ List.replicate n 97 :: [] := by
    rw [leading, List.splitOn_eq_singleton (by simp)]
    simp [some]
  have short := fits [] _ [] name rfl
  rw [List.length_replicate] at short
  omega

theorem parse_long {n : Nat} (long : 128 ≤ n) :
    parse [⟨some [107], ()⟩] (List.replicate n 107) = .error .outOfBounds := by
  have some : List.replicate n (107 : UInt8) ≠ [] := by
    rw [ne_eq, List.replicate_eq_nil_iff]
    omega
  have part : settings (List.replicate n 107) = [List.replicate n 107] :=
    components_part some (by simp)
  rw [CommandLine.parse_eq (by simp), if_neg]
  intro short
  have := short (List.replicate n 107) (by simp [part])
  rw [List.length_replicate] at this
  omega

/-- A slash and 256 bytes, and a setting of 128. -/
theorem tokens_outside :
    (lookupNode tmpfs (47 :: List.replicate 256 97)).run tmpfsRoot = .error .outOfBounds ∧
      parse [⟨some [107], ()⟩] (List.replicate 128 107) = .error .outOfBounds :=
  ⟨lookupNode_long le_rfl, parse_long le_rfl⟩

end Infos.Fs.LookupNode
