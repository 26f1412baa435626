import Infos.Fs.TarfsRuns
import Mathlib.Data.List.Nodup

/-!
# What a mounted archive shows

The tree that `build_tree` makes against the entries of the archive: the paths
that resolve, the files that open, and the names, kinds and sizes of the nodes.
-/
namespace Infos.Fs
open Infos.Lib Infos.Util Function

def paths (xs : List Placed) : List (List Name) := xs.map fun x => x.entry.path

/-- No two different names below one path have the same hash. -/
def Apart (ps : List (List Name)) : Prop :=
  ∀ p ∈ ps, ∀ q ∈ ps, ∀ l c d, l ++ [c] <+: p → l ++ [d] <+: q → getHash c = getHash d → c = d

section Apart
variable {ps : List (List Name)} {p q a b : List Name}

/-- Under it, prefixes of paths are told apart by their hashes. -/
theorem Apart.eq_of_keys (h : Apart ps) (hp : p ∈ ps) (hq : q ∈ ps) (ha : a <+: p) (hb : b <+: q)
    (same : keys a = keys b) : a = b := by
  induction a using List.reverseRecOn generalizing b with
  | nil => exact (List.map_eq_nil_iff.mp same.symm).symm
  | append_singleton a c ih =>
      rcases List.eq_nil_or_concat' b with rfl | ⟨b, d, rfl⟩
      · exact absurd same (by simp [keys])
      · rw [keys_append, keys_append] at same
        obtain ⟨init, last⟩ := List.append_inj' same rfl
        obtain rfl := ih ((List.prefix_append a [c]).trans ha) ((List.prefix_append b [d]).trans hb)
          init
        rw [h p hp q hq a c d ha hb (List.head_eq_of_cons_eq last)]

theorem Apart.cons_self (h : Apart ps) (hp : p ∈ ps) : Apart (p :: ps) := by
  intro q hq r hr
  refine h q ?_ r ?_
  · exact (List.mem_cons.mp hq).elim (fun e => e ▸ hp) id
  · exact (List.mem_cons.mp hr).elim (fun e => e ▸ hp) id

end Apart

/-! ### The view of a list of entries -/

section View
variable {xs pre post : List Placed} {x : Placed} {v : View} {ks : List HashType} {q : List Name}

theorem View.here_foldl :
    (xs.foldl View.add v).here q ↔ v.here q ∨ ∃ x ∈ xs, q <+: x.entry.path := by
  induction xs generalizing v with
  | nil => simp
  | cons x xs ih =>
      rw [List.foldl_cons, ih]
      change (v.here q ∨ q <+: x.entry.path) ∨ _ ↔ _
      simp [or_assoc]

theorem View.size_foldl (other : ∀ x ∈ xs, keys x.entry.path ≠ ks) :
    (xs.foldl View.add v).size ks = v.size ks := by
  induction xs generalizing v with
  | nil => rfl
  | cons x xs ih =>
      rw [List.foldl_cons, ih fun y mem => other y (List.mem_cons_of_mem x mem)]
      exact update_of_ne (other x List.mem_cons_self).symm _ _

theorem View.block_foldl (other : ∀ x ∈ xs, x.entry.kind = .file → keys x.entry.path ≠ ks) :
    (xs.foldl View.add v).block ks = v.block ks := by
  induction xs generalizing v with
  | nil => rfl
  | cons x xs ih =>
      rw [List.foldl_cons, ih fun y mem => other y (List.mem_cons_of_mem x mem)]
      change update v.block (keys x.entry.path) (x.block.or _) ks = _
      rw [update_apply, Placed.block]
      split_ifs with same file
      · exact absurd same.symm (other x List.mem_cons_self file)
      · rw [same, Option.none_or]
      · rfl

/-- The last entry at a path decides. -/
theorem View.size_last (last : ∀ y ∈ post, keys y.entry.path ≠ keys x.entry.path) :
    (View.of (pre ++ x :: post)).size (keys x.entry.path) = x.entry.data.length := by
  rw [View.of, List.foldl_append, List.foldl_cons, View.size_foldl last]
  exact update_self _ _ _

theorem View.block_last (last : ∀ y ∈ post, keys y.entry.path ≠ keys x.entry.path)
    (file : x.entry.kind = .file) :
    (View.of (pre ++ x :: post)).block (keys x.entry.path) = some x.header := by
  rw [View.of, List.foldl_append, List.foldl_cons, View.block_foldl fun y mem _ => last y mem]
  apply (update_self _ _ _).trans
  rw [Placed.block, if_pos file]
  rfl

theorem View.block_mem {b : Nat} (block : (View.of xs).block ks = some b) :
    ∃ x ∈ xs, x.entry.kind = .file ∧ keys x.entry.path = ks ∧ x.header = b := by
  induction xs using List.reverseRecOn with
  | nil => cases block
  | append_singleton xs x ih =>
      rw [View.of, List.foldl_append] at block
      change update (View.of xs).block (keys x.entry.path) (x.block.or _) ks = some b at block
      rw [update_apply] at block
      have old : (View.of xs).block ks = some b → ∃ y ∈ xs ++ [x],
          y.entry.kind = .file ∧ keys y.entry.path = ks ∧ y.header = b := by
        intro block
        obtain ⟨y, mem, rest⟩ := ih block
        exact ⟨y, List.mem_append_left _ mem, rest⟩
      by_cases same : ks = keys x.entry.path
      · rw [if_pos same, Placed.block] at block
        by_cases file : x.entry.kind = .file
        · rw [if_pos file] at block
          exact ⟨x, List.mem_append_right _ List.mem_cons_self, file, same.symm,
            Option.some.inj block⟩
        · rw [if_neg file, Option.none_or, ← same] at block
          exact old block
      · rw [if_neg same] at block
        exact old block

theorem View.block_some (mem : x ∈ xs) (file : x.entry.kind = .file)
    (path : keys x.entry.path = ks) : ∃ b, (View.of xs).block ks = some b := by
  induction xs using List.reverseRecOn with
  | nil => cases mem
  | append_singleton xs y ih =>
      rw [View.of, List.foldl_append]
      change ∃ b, update (View.of xs).block (keys y.entry.path) (y.block.or _) ks = some b
      rw [update_apply]
      by_cases old : x ∈ xs
      · obtain ⟨b, block⟩ := ih old
        split_ifs with same
        · rw [← same]
          change ∃ b, y.block.or ((View.of xs).block ks) = some b
          rw [block]
          cases y.block with
          | none => exact ⟨b, rfl⟩
          | some b' => exact ⟨b', rfl⟩
        · exact ⟨b, block⟩
      · obtain rfl : x = y := by
          rcases List.mem_append.mp mem with mem | mem
          · exact absurd mem old
          · exact List.mem_singleton.mp mem
        rw [if_pos path.symm, Placed.block, if_pos file]
        exact ⟨x.header, rfl⟩

end View

/-! ### What is decoded -/

/-- The node's name, kind and size at a path. -/
def TarState.seen (s : TarState) (root : NodeId) (p : List Name) : Option (Name × Kind × Nat) :=
  (s.resolve root p).map fun n =>
    ((s.nodes n).name, if (s.nodes n).hasBlockOffset then .file else .directory, (s.nodes n).size)

/-- The tree that entries with distinct paths describe, whatever their order: a directory on the
way to an entry needs no entry of its own. -/
def treeOf (es : List Entry) (p : List Name) : Option (Name × Kind × Nat) :=
  if ∃ e ∈ es, p <+: e.path then
    match es.find? fun e => e.path = p with
    | some e => some (p.getLastD [], e.kind, e.data.length)
    | none => some (p.getLastD [], .directory, 0)
  else none

/-- Entries on a device, as an archive has them. -/
structure Archive (dev : BlockDevice) where
  entries : List Placed
  layout : Layout dev 0 entries
  kinds : ∀ x ∈ entries, ∀ y ∈ entries, x.entry.path = y.entry.path → x.entry.kind = y.entry.kind
  apart : Apart (paths entries)

/-- The tree below `root` is what the entries `xs` say. A path is asked for only where no other
name beside it has the same hash. -/
structure Decoded (dev : BlockDevice) (xs : List Placed) (s : TarState) (root : NodeId) : Prop where
  resolves : ∀ p, p ≠ [] → Apart (p :: paths xs) →
    ((∃ n, s.resolve root p = some n) ↔ ∃ x ∈ xs, p <+: x.entry.path)
  files : ∀ pre x post, xs = pre ++ x :: post → x.entry.kind = .file →
    (∀ y ∈ post, y.entry.path ≠ x.entry.path) →
    ∃ n head s', s.resolve root x.entry.path = some n ∧ dev.readBlock x.header = some head ∧
      (openNode dev n).run s = .ok (some ⟨some head, x.header + 1, 0⟩, s') ∧
      (s.nodes n).size = x.entry.data.length
  others : ∀ p, p ≠ [] → Apart (p :: paths xs) →
    (∀ x ∈ xs, x.entry.path = p → x.entry.kind ≠ .file) →
    ∀ n, s.resolve root p = some n → ∃ s', (openNode dev n).run s = .ok (none, s')
  tree : (paths xs).Nodup → ∀ p, p ≠ [] → Apart (p :: paths xs) →
    s.seen root p = treeOf (xs.map Placed.entry) p

/-- An entry whose header number does not fit an `int` is harmless only as a directory that an
earlier entry makes, and if paths are distinct only without data. -/
def LateImplied (xs : List Placed) : Prop :=
  ∀ x ∈ xs, 2 ^ 31 ≤ x.header → x.entry.kind = .directory ∧
    (∃ y ∈ xs, y.header < 2 ^ 31 ∧ x.entry.path <+: y.entry.path) ∧
    ((paths xs).Nodup → x.entry.data = [])

section Open
variable {dev : BlockDevice} {s : TarState} {n : NodeId} {b : Nat} {head : Block}

theorem openNode_none (none : (s.nodes n).header = Option.none) :
    (openNode dev n).run s = .ok (Option.none, s) := by
  have unset : ¬ (s.nodes n).hasBlockOffset = true := by
    intro set
    rw [TarFSNode.header, if_pos set] at none
    cases none
  rw [openNode, bind_ok (run_get_eq s), if_neg unset]
  rfl

theorem openNode_some (some : (s.nodes n).header = Option.some b)
    (read : dev.readBlock b = Option.some head) :
    (openNode dev n).run s =
      .ok (Option.some ⟨Option.some head, (b + 1) % 2 ^ 32, 0⟩, s.asked b) := by
  unfold TarFSNode.header at some
  split_ifs at some with set
  cases some
  have opened : (TarFSFile.new dev (s.nodes n).blockOffset).run s =
      .ok (⟨Option.some head, ((s.nodes n).blockOffset + 1) % 2 ^ 32, 0⟩,
        s.asked (s.nodes n).blockOffset) := by
    rw [TarFSFile.new, bind_ok (readInto_run read)]
    rfl
  rw [openNode, bind_ok (run_get_eq s), if_pos set, bind_ok opened]
  rfl

end Open

/-! ### The tree that was built -/

theorem mem_early {xs : List Placed} {x : Placed} : x ∈ early xs ↔ x ∈ xs ∧ x.header < 2 ^ 31 := by
  simp [early]

/-- The last element with a property. -/
theorem exists_last {α : Type} {P : α → Prop} {l : List α} {a : α} (mem : a ∈ l) (ha : P a) :
    ∃ pre b post, l = pre ++ b :: post ∧ P b ∧ ∀ c ∈ post, ¬ P c := by
  induction l generalizing a with
  | nil => cases mem
  | cons c l ih =>
      by_cases later : ∃ d ∈ l, P d
      · obtain ⟨d, mem', hd⟩ := later
        obtain ⟨pre, b, post, split, hb, last⟩ := ih mem' hd
        exact ⟨c :: pre, b, post, by rw [split, List.cons_append], hb, last⟩
      · have first : a = c := by
          rcases List.mem_cons.mp mem with rfl | mem'
          · rfl
          · exact absurd ⟨a, mem', ha⟩ later
        exact ⟨[], c, l, rfl, first ▸ ha, fun d mem' hd => later ⟨d, mem', hd⟩⟩

section Built
variable {dev : BlockDevice} {xs pre post : List Placed} {x : Placed} {s : TarState} {root n : NodeId}
  {p : List Name}

theorem mem_paths (mem : x ∈ xs) : x.entry.path ∈ paths xs := List.mem_map_of_mem mem

/-- Entries are told apart from an asked path by its hashes. -/
theorem Apart.path_eq (apart : Apart (p :: paths xs)) (mem : x ∈ xs)
    (same : keys x.entry.path = keys p) : x.entry.path = p :=
  apart.eq_of_keys (List.mem_cons_of_mem p (mem_paths mem)) List.mem_cons_self
    (List.prefix_refl _) (List.prefix_refl _) same

theorem Refines.resolve_present (h : Refines s root (View.of (early xs))) (mem : x ∈ early xs)
    (along : p <+: x.entry.path) : ∃ n, s.resolve root p = some n := by
  rw [resolve_eq_locate]
  exact h.present p (View.here_foldl.mpr (.inr ⟨x, mem, along⟩))

theorem Refines.resolve_only (h : Refines s root (View.of (early xs)))
    (apart : Apart (p :: paths xs))
    (reached : s.resolve root p = some n) :
    (p = [] ∨ ∃ x ∈ early xs, p <+: x.entry.path) ∧ (s.nodes n).name = p.getLastD [] := by
  rw [resolve_eq_locate] at reached
  obtain ⟨q, here, spelled, name⟩ := h.named _ n reached
  have same : q = p := by
    rcases View.here_foldl.mp here with root | ⟨x, mem, along⟩
    · have root : q = [] := root
      subst root
      exact (List.map_eq_nil_iff.mp spelled.symm).symm
    · exact apart.eq_of_keys (List.mem_cons_of_mem p (mem_paths (mem_early.mp mem).1))
        List.mem_cons_self along (List.prefix_refl p) spelled
  subst same
  exact ⟨View.here_foldl.mp here, name⟩

theorem Refines.size_at (h : Refines s root (View.of (early xs))) (apart : Apart (p :: paths xs))
    (split : early xs = pre ++ x :: post) (path : x.entry.path = p)
    (last : ∀ y ∈ post, y.entry.path ≠ p) (reached : s.resolve root p = some n) :
    (s.nodes n).size = x.entry.data.length := by
  rw [resolve_eq_locate] at reached
  rw [h.sizes _ n reached, split, ← path]
  refine View.size_last fun y mem same => last y mem (apart.path_eq ?_ (path ▸ same))
  have : y ∈ early xs := by simp [split, mem]
  exact (mem_early.mp this).1

theorem Refines.size_absent (h : Refines s root (View.of (early xs)))
    (apart : Apart (p :: paths xs)) (absent : ∀ y ∈ early xs, y.entry.path ≠ p)
    (reached : s.resolve root p = some n) : (s.nodes n).size = 0 := by
  rw [resolve_eq_locate] at reached
  rw [h.sizes _ n reached]
  exact View.size_foldl fun y mem same =>
    absent y mem (apart.path_eq (mem_early.mp mem).1 same)

theorem Refines.header_mem (h : Refines s root (View.of (early xs)))
    (apart : Apart (p :: paths xs)) (reached : s.resolve root p = some n) {b : Nat}
    (header : (s.nodes n).header = some b) :
    ∃ y ∈ early xs, y.entry.kind = .file ∧ y.entry.path = p ∧ y.header = b := by
  rw [resolve_eq_locate] at reached
  rw [h.blocks _ n reached] at header
  obtain ⟨y, mem, file, path, block⟩ := View.block_mem header
  exact ⟨y, mem, file, apart.path_eq (mem_early.mp mem).1 path, block⟩

theorem Refines.header_at (h : Refines s root (View.of (early xs))) (apart : Apart (p :: paths xs))
    (split : early xs = pre ++ x :: post) (path : x.entry.path = p) (file : x.entry.kind = .file)
    (last : ∀ y ∈ post, y.entry.path ≠ p) (reached : s.resolve root p = some n) :
    (s.nodes n).header = some x.header := by
  rw [resolve_eq_locate] at reached
  rw [h.blocks _ n reached, split, ← path]
  refine View.block_last (fun y mem same => last y mem (apart.path_eq ?_ (path ▸ same))) file
  have : y ∈ early xs := by simp [split, mem]
  exact (mem_early.mp this).1

theorem hasBlockOffset_iff {node : TarFSNode} :
    node.hasBlockOffset = true ↔ ∃ b, node.header = some b := by
  unfold TarFSNode.header
  split_ifs with set
  · exact ⟨fun _ => ⟨_, rfl⟩, fun _ => set⟩
  · exact ⟨fun h => absurd h set, fun ⟨_, h⟩ => nomatch h⟩

theorem Refines.file_iff (h : Refines s root (View.of (early xs))) (apart : Apart (p :: paths xs))
    (reached : s.resolve root p = some n) :
    (s.nodes n).hasBlockOffset = true ↔
      ∃ y ∈ early xs, y.entry.kind = .file ∧ y.entry.path = p := by
  rw [hasBlockOffset_iff]
  constructor
  · rintro ⟨b, header⟩
    obtain ⟨y, mem, file, path, -⟩ := h.header_mem apart reached header
    exact ⟨y, mem, file, path⟩
  · rintro ⟨y, mem, file, rfl⟩
    rw [resolve_eq_locate] at reached
    obtain ⟨b, block⟩ := View.block_some mem file rfl
    exact ⟨b, (h.blocks _ n reached).trans block⟩

theorem Refines.seen_eq (h : Refines s root (View.of (early xs))) (apart : Apart (p :: paths xs))
    (reached : s.resolve root p = some n) {kind : Kind} {size : Nat}
    (file : (∃ y ∈ early xs, y.entry.kind = .file ∧ y.entry.path = p) ↔ kind = .file)
    (sized : (s.nodes n).size = size) : s.seen root p = some (p.getLastD [], kind, size) := by
  rw [TarState.seen, reached, Option.map_some, (h.resolve_only apart reached).2, sized]
  have isFile := (h.file_iff apart reached).trans file
  cases kind with
  | file => rw [if_pos (isFile.mpr rfl)]
  | directory => rw [if_neg fun set => nomatch isFile.mp set]

end Built

section Distinct
variable {xs : List Placed} {x y : Placed} {p : List Name}

theorem eq_of_path (distinct : (paths xs).Nodup) (hx : x ∈ xs) (hy : y ∈ xs)
    (same : x.entry.path = y.entry.path) : x = y :=
  List.inj_on_of_nodup_map distinct hx hy same

/-- With distinct paths the tree shows the one entry at a path. -/
theorem treeOf_entry {es : List Entry} {e : Entry} (distinct : (es.map Entry.path).Nodup)
    (mem : e ∈ es) : treeOf es e.path = some (e.path.getLastD [], e.kind, e.data.length) := by
  have found : es.find? (fun e' => e'.path = e.path) = some e := by
    cases find : es.find? (fun e' => e'.path = e.path) with
    | none =>
        have := List.find?_eq_none.mp find e mem
        exact absurd (decide_eq_true rfl) this
    | some e' =>
        have path : e'.path = e.path := by simpa using List.find?_some find
        rw [List.inj_on_of_nodup_map distinct (List.mem_of_find?_eq_some find) mem path]
  rw [treeOf, if_pos ⟨e, mem, List.prefix_refl _⟩, found]

theorem treeOf_implied {es : List Entry} (along : ∃ e ∈ es, p <+: e.path)
    (none : ∀ e ∈ es, e.path ≠ p) : treeOf es p = some (p.getLastD [], .directory, 0) := by
  have missing : es.find? (fun e => e.path = p) = Option.none :=
    List.find?_eq_none.mpr fun e mem => by simpa using none e mem
  rw [treeOf, if_pos along, missing]

theorem treeOf_none {es : List Entry} (off : ¬ ∃ e ∈ es, p <+: e.path) : treeOf es p = none :=
  if_neg off

/-- The order of the entries does not matter. -/
theorem treeOf_perm {es es' : List Entry} (perm : es.Perm es')
    (distinct : (es.map Entry.path).Nodup) : treeOf es = treeOf es' := by
  have distinct' : (es'.map Entry.path).Nodup := (perm.map Entry.path).nodup_iff.mp distinct
  funext p
  by_cases along : ∃ e ∈ es, p <+: e.path
  · have along' : ∃ e ∈ es', p <+: e.path := by
      obtain ⟨e, mem, along⟩ := along
      exact ⟨e, perm.mem_iff.mp mem, along⟩
    by_cases entry : ∃ e ∈ es, e.path = p
    · obtain ⟨e, mem, rfl⟩ := entry
      rw [treeOf_entry distinct mem, treeOf_entry distinct' (perm.mem_iff.mp mem)]
    · have none : ∀ e ∈ es, e.path ≠ p := fun e mem path => entry ⟨e, mem, path⟩
      rw [treeOf_implied along none,
        treeOf_implied along' fun e mem => none e (perm.mem_iff.mpr mem)]
  · have off' : ¬ ∃ e ∈ es', p <+: e.path := by
      rintro ⟨e, mem, within⟩
      exact along ⟨e, perm.mem_iff.mpr mem, within⟩
    rw [treeOf_none along, treeOf_none off']

end Distinct

section Main
variable {dev : BlockDevice} {s : TarState} {root : NodeId} {p : List Name} {n : NodeId} {x : Placed}

namespace Archive
variable (A : Archive dev)

theorem distinct_entries (distinct : (paths A.entries).Nodup) :
    ((A.entries.map Placed.entry).map Entry.path).Nodup := by
  rw [List.map_map]
  exact distinct

theorem read_inside (mem : x ∈ A.entries) : ∃ head, dev.readBlock x.header = some head := by
  obtain ⟨head, read, -⟩ := A.layout.read mem
  exact ⟨head, read⟩

/-- The last entry at a path is not before the others. -/
theorem header_le {pre post : List Placed} {y : Placed} (split : A.entries = pre ++ x :: post)
    (mem : y ∈ A.entries) (notAfter : y ∉ post) : y.header ≤ x.header := by
  rw [split] at mem
  rcases List.mem_append.mp mem with before | mem
  · have order := A.layout.pairwise
    rw [split] at order
    exact ((List.pairwise_append.mp order).2.2 y before x List.mem_cons_self).le
  · rcases List.mem_cons.mp mem with rfl | after
    · exact le_rfl
    · exact absurd after notAfter

end Archive

variable {A : Archive dev} (h : Refines s root (View.of (early A.entries)))
include h

theorem resolve_iff (implied : LateImplied A.entries) (nonempty : p ≠ [])
    (apart : Apart (p :: paths A.entries)) :
    (∃ n, s.resolve root p = some n) ↔ ∃ x ∈ A.entries, p <+: x.entry.path := by
  constructor
  · rintro ⟨n, reached⟩
    rcases (h.resolve_only apart reached).1 with empty | ⟨x, mem, along⟩
    · exact absurd empty nonempty
    · exact ⟨x, (mem_early.mp mem).1, along⟩
  · rintro ⟨x, mem, along⟩
    by_cases late : 2 ^ 31 ≤ x.header
    · obtain ⟨-, ⟨y, mem', soon, within⟩, -⟩ := implied x mem late
      exact h.resolve_present (mem_early.mpr ⟨mem', soon⟩) (along.trans within)
    · exact h.resolve_present (mem_early.mpr ⟨mem, by omega⟩) along

/-- The node of an entry shows the entry. -/
theorem seen_entry (implied : LateImplied A.entries) (distinct : (paths A.entries).Nodup)
    (mem : x ∈ A.entries) :
    s.seen root x.entry.path =
      some (x.entry.path.getLastD [], x.entry.kind, x.entry.data.length) := by
  have apart := A.apart.cons_self (mem_paths mem)
  obtain ⟨n, reached⟩ := (resolve_iff h implied x.entry.nonempty apart).mpr
    ⟨x, mem, List.prefix_refl _⟩
  have only : ∀ y ∈ early A.entries, y.entry.path = x.entry.path → y = x := fun y soon =>
    eq_of_path distinct (mem_early.mp soon).1 mem
  by_cases late : 2 ^ 31 ≤ x.header
  · obtain ⟨directory, -, empty⟩ := implied x mem late
    have absent : ∀ y ∈ early A.entries, y.entry.path ≠ x.entry.path := by
      intro y soon same
      have bound := (mem_early.mp soon).2
      rw [only y soon same] at bound
      omega
    refine h.seen_eq apart reached ?_ ?_
    · rw [directory]
      exact ⟨fun ⟨y, soon, _, path⟩ => absurd path (absent y soon), nofun⟩
    · rw [h.size_absent apart absent reached, empty distinct]
      rfl
  · have soon : x ∈ early A.entries := mem_early.mpr ⟨mem, by omega⟩
    refine h.seen_eq apart reached ⟨?_, fun file => ⟨x, soon, file, rfl⟩⟩ ?_
    · rintro ⟨y, soon', file, path⟩
      rw [← only y soon' path]
      exact file
    · obtain ⟨pre, y, post, split, path, last⟩ :=
        exists_last (P := fun z => z.entry.path = x.entry.path) soon rfl
      obtain rfl := only y (by simp [split]) path
      exact h.size_at apart split rfl last reached

theorem decoded_of_lateImplied (implied : LateImplied A.entries) :
    Decoded dev A.entries s root where
  resolves p nonempty apart := resolve_iff h implied nonempty apart
  files pre x post split file last := by
    have mem : x ∈ A.entries := by simp [split]
    have soon : x.header < 2 ^ 31 := by
      by_contra late
      cases (implied x mem (by omega)).1.symm.trans file
    have apart := A.apart.cons_self (mem_paths mem)
    have split' : early A.entries = early pre ++ x :: early post := by
      rw [split, early, List.filter_append]
      change early pre ++ early (x :: post) = _
      rw [early_cons, if_pos soon]
    have last' : ∀ y ∈ early post, y.entry.path ≠ x.entry.path := fun y mem =>
      last y (mem_early.mp mem).1
    obtain ⟨n, reached⟩ := h.resolve_present (mem_early.mpr ⟨mem, soon⟩) (List.prefix_refl _)
    obtain ⟨head, read⟩ := A.read_inside mem
    refine ⟨n, head, s.asked x.header, reached, read, ?_, h.size_at apart split' rfl last' reached⟩
    have header := h.header_at apart split' rfl file last' reached
    rw [openNode_some header read, Nat.mod_eq_of_lt (by omega)]
  others p _ apart none n reached := by
    refine ⟨s, openNode_none ?_⟩
    rw [Option.eq_none_iff_forall_ne_some]
    intro b header
    obtain ⟨y, mem, file, path, -⟩ := h.header_mem apart reached header
    exact none y (mem_early.mp mem).1 path file
  tree distinct p nonempty apart := by
    by_cases along : ∃ x ∈ A.entries, p <+: x.entry.path
    · by_cases entry : ∃ x ∈ A.entries, x.entry.path = p
      · obtain ⟨x, mem, rfl⟩ := entry
        rw [seen_entry h implied distinct mem,
          treeOf_entry (A.distinct_entries distinct) (List.mem_map_of_mem mem)]
      · have absent : ∀ y ∈ A.entries, y.entry.path ≠ p := fun y mem path => entry ⟨y, mem, path⟩
        have absentEarly : ∀ y ∈ early A.entries, y.entry.path ≠ p := fun y mem =>
          absent y (mem_early.mp mem).1
        obtain ⟨n, reached⟩ := (resolve_iff h implied nonempty apart).mpr along
        obtain ⟨x, mem, within⟩ := along
        rw [treeOf_implied ⟨x.entry, List.mem_map_of_mem mem, within⟩ (by simpa using absent)]
        refine h.seen_eq apart reached ?_ (h.size_absent apart absentEarly reached)
        exact ⟨fun ⟨y, soon, _, path⟩ => absurd path (absentEarly y soon), nofun⟩
    · have lost : s.resolve root p = none := by
        rw [Option.eq_none_iff_forall_ne_some]
        intro n reached
        exact along ((resolve_iff h implied nonempty apart).mp ⟨n, reached⟩)
      rw [TarState.seen, lost, treeOf_none (by simpa using along)]
      rfl

theorem lateImplied_of_decoded (decoded : Decoded dev A.entries s root) :
    LateImplied A.entries := by
  intro x mem late
  have apart := A.apart.cons_self (mem_paths mem)
  refine ⟨?_, ?_, ?_⟩
  · cases kind : x.entry.kind with
    | directory => rfl
    | file =>
        obtain ⟨pre, y, post, split, path, last⟩ :=
          exists_last (P := fun z => z.entry.path = x.entry.path) mem rfl
        have mem' : y ∈ A.entries := by simp [split]
        have file : y.entry.kind = .file := (A.kinds y mem' x mem path).trans kind
        have order := A.header_le split mem fun after => last x after rfl
        obtain ⟨n, head, s', reached, -, run, -⟩ :=
          decoded.files pre y post split file fun z after => path ▸ last z after
        rw [path] at reached
        cases header : (s.nodes n).header with
        | none =>
            rw [openNode_none header] at run
            cases run
        | some b =>
            obtain ⟨z, soon, -, -, rfl⟩ := h.header_mem apart reached header
            obtain ⟨inside, bound⟩ := mem_early.mp soon
            obtain ⟨head', read⟩ := A.read_inside inside
            rw [openNode_some header read, Nat.mod_eq_of_lt (by omega)] at run
            have start : z.header + 1 = y.header + 1 :=
              congrArg TarFSFile.fileStartBlock (Option.some.inj (Prod.mk.inj (Except.ok.inj run)).1)
            omega
  · obtain ⟨n, reached⟩ := (decoded.resolves _ x.entry.nonempty apart).mpr
      ⟨x, mem, List.prefix_refl _⟩
    rcases (h.resolve_only apart reached).1 with empty | ⟨y, soon, along⟩
    · exact absurd empty x.entry.nonempty
    · exact ⟨y, (mem_early.mp soon).1, (mem_early.mp soon).2, along⟩
  · intro distinct
    have shown := decoded.tree distinct _ x.entry.nonempty apart
    rw [treeOf_entry (A.distinct_entries distinct) (List.mem_map_of_mem mem)] at shown
    obtain ⟨n, reached, look⟩ := Option.map_eq_some_iff.mp shown
    have absent : ∀ y ∈ early A.entries, y.entry.path ≠ x.entry.path := by
      intro y soon same
      obtain ⟨inside, bound⟩ := mem_early.mp soon
      rw [eq_of_path distinct inside mem same] at bound
      omega
    have empty := h.size_absent apart absent reached
    have size : (s.nodes n).size = x.entry.data.length := (Prod.mk.inj (Prod.mk.inj look).2).2
    exact List.eq_nil_of_length_eq_zero (size.symm.trans empty)

omit h in
/-- What a tree holds is determined by its archive: `build_tree` is a function of the device. -/
theorem built_refines {spare : Nat} {dev : BlockDevice} (A : Archive dev) {s : TarState}
    {root : NodeId} (run : (buildTree spare dev).run .initial = .ok (root, s)) :
    Refines s root (View.of (early A.entries)) := by
  obtain ⟨s', run', refines⟩ := buildTree_spec (Nat.le_refl 12) A.layout
  cases (buildTree_roomy run).symm.trans run'
  exact refines

omit h in
/-- On an archive `build_tree` returns exactly where `head` has room behind it, unless there is
no block to read. -/
theorem buildTree_returns_iff {spare : Nat} {dev : BlockDevice} (A : Archive dev) :
    (∃ s root, (buildTree spare dev).run .initial = .ok (root, s)) ↔
      12 ≤ spare ∨ dev.blockCount = 0 := by
  constructor
  · rintro ⟨s, root, run⟩
    by_contra stuck
    obtain ⟨tight, some⟩ := not_or.mp stuck
    obtain ⟨b, read⟩ := A.layout.first (Nat.pos_of_ne_zero some)
    rw [buildTree_overruns (Nat.lt_of_not_le tight) (Nat.pos_of_ne_zero some) read] at run
    cases run
  · rintro (room | none)
    · obtain ⟨s, run, -⟩ := buildTree_spec room A.layout
      exact ⟨s, 0, run⟩
    · refine ⟨TarState.initial.withNew [], 0, ?_⟩
      rw [buildTree, bind_ok newNode_run, readHeaders, none, if_neg (Nat.not_lt_zero _)]
      rfl

end Main

/-- `build_tree` returns the archive's tree exactly when there is room behind `head` and the
entries from block 2^31 on are implied by the others. Two such archives of the same entries show
the same tree. -/
theorem buildTree_decodes_iff {dev : BlockDevice} (A : Archive dev) (spare : Nat) :
    ((∃ s root, (buildTree spare dev).run .initial = .ok (root, s) ∧
        Decoded dev A.entries s root) ↔
      (12 ≤ spare ∨ dev.blockCount = 0) ∧ LateImplied A.entries) ∧
      ∀ s root, (buildTree spare dev).run .initial = .ok (root, s) →
      ∀ (dev' : BlockDevice) (A' : Archive dev') s' root',
        (buildTree spare dev').run .initial = .ok (root', s') →
        (A.entries.map Placed.entry).Perm (A'.entries.map Placed.entry) →
        (paths A.entries).Nodup → LateImplied A.entries → LateImplied A'.entries →
        ∀ p, p ≠ [] → Apart (p :: paths A.entries) → s.seen root p = s'.seen root' p := by
  constructor
  · rw [← buildTree_returns_iff A]
    constructor
    · rintro ⟨s, root, run, decoded⟩
      exact ⟨⟨s, root, run⟩, lateImplied_of_decoded (built_refines A run) decoded⟩
    · rintro ⟨⟨s, root, run⟩, implied⟩
      exact ⟨s, root, run, decoded_of_lateImplied (built_refines A run) implied⟩
  intro s root run dev' A' s' root' run' perm distinct implied implied' p nonempty apart
  have h := built_refines A run
  have samePaths : (paths A.entries).Perm (paths A'.entries) := by
    have := perm.map Entry.path
    rw [List.map_map, List.map_map] at this
    exact this
  have apart' : Apart (p :: paths A'.entries) := fun q hq r hr =>
    apart q ((samePaths.cons p).mem_iff.mpr hq) r ((samePaths.cons p).mem_iff.mpr hr)
  have shown := (decoded_of_lateImplied h implied).tree distinct p nonempty apart
  have shown' := (decoded_of_lateImplied (built_refines A' run') implied').tree
    (samePaths.nodup_iff.mp distinct) p nonempty apart'
  rw [shown, shown', treeOf_perm perm (A.distinct_entries distinct)]

/-! ### An archive that is too long -/

/-- A file with a name of one byte, filled with zeros. -/
def zeroFile (c : UInt8) (notZero : c ≠ 0) (notSlash : c ≠ 47) (size : Nat) (small : size < 8 ^ 10) :
    Entry where
  path := [[c]]
  kind := .file
  data := List.replicate size 0
  nonempty := List.cons_ne_nil _ _
  components := by
    intro d mem
    rw [List.mem_singleton.mp mem]
    simp [notZero.symm, notSlash.symm]
  short := by simp [nameField]
  small := by rw [List.length_replicate]; exact small

theorem a_ne_zero : (97 : UInt8) ≠ 0 := by decide

theorem a_ne_slash : (97 : UInt8) ≠ 47 := by decide

theorem no_bytes_small : 0 < 8 ^ 10 := by decide

def bigA : Entry := zeroFile 97 a_ne_zero a_ne_slash (8 ^ 10 - 1) (by decide)

def emptyB : Entry := zeroFile 98 (by decide) (by decide) 0 no_bytes_small

def zeroBlock : Block := ⟨List.replicate 512 0, zeros_length⟩

/-- The blocks of `bigA`, its header included. -/
def bigBlocks : Nat := 2 ^ 21 + 1

/-- 1024 times `bigA`, then `emptyB`. -/
def longDevice : BlockDevice where
  readBlock i :=
    if i = 1024 * bigBlocks then some emptyB.headerBlock
    else if i % bigBlocks = 0 then some bigA.headerBlock
    else some zeroBlock
  blockCount := 1024 * bigBlocks + 1
  addressable := by decide

def longEntries (o : Nat) : Nat → List Placed
  | 0 => [⟨o, emptyB⟩]
  | j + 1 => ⟨o, bigA⟩ :: longEntries (o + bigBlocks) j

theorem mem_longEntries {o j : Nat} {x : Placed} (mem : x ∈ longEntries o j) :
    x.entry = bigA ∨ x.entry = emptyB := by
  induction j generalizing o with
  | zero =>
      rw [List.mem_singleton.mp mem]
      exact .inr rfl
  | succ j ih =>
      rcases List.mem_cons.mp mem with rfl | mem
      · exact .inl rfl
      · exact ih mem

theorem last_longEntries {o j : Nat} : ⟨o + j * bigBlocks, emptyB⟩ ∈ longEntries o j := by
  induction j generalizing o with
  | zero => simp [longEntries]
  | succ j ih =>
      have shift : o + (j + 1) * bigBlocks = o + bigBlocks + j * bigBlocks := by ring
      rw [shift]
      exact List.mem_cons_of_mem _ ih

theorem bigA_blocks : blocksFor bigA.data.length = 2 ^ 21 := by
  have size : bigA.data.length = 8 ^ 10 - 1 := List.length_replicate
  rw [size]
  decide

theorem emptyB_blocks : blocksFor emptyB.data.length = 0 := rfl

theorem longDevice_a {k : Nat} (inside : k < 1024) :
    longDevice.readBlock (k * bigBlocks) = some bigA.headerBlock := by
  have before : k * bigBlocks ≠ 1024 * bigBlocks := by
    unfold bigBlocks
    omega
  exact (if_neg before).trans (if_pos (Nat.mul_mod_left k bigBlocks))

theorem longDevice_b : longDevice.readBlock (1024 * bigBlocks) = some emptyB.headerBlock := by
  dsimp only [longDevice]
  rw [if_pos rfl]

theorem bigA_stored {k : Nat} :
    Stores longDevice (k * bigBlocks + 1) bigA.data := by
  intro i bound
  rw [bigA_blocks] at bound
  have before : k * bigBlocks + 1 + i ≠ 1024 * bigBlocks := by
    unfold bigBlocks
    omega
  have between : (k * bigBlocks + 1 + i) % bigBlocks ≠ 0 := by
    rw [Nat.add_assoc, Nat.mul_add_mod_self_right, Nat.mod_eq_of_lt (by unfold bigBlocks; omega)]
    omega
  refine ⟨zeroBlock, (if_neg before).trans (if_neg between), fun j _ => ?_⟩
  have zeros : ∀ m n, (List.replicate m (0 : UInt8)).getD n 0 = 0 := by
    intro m n
    rw [List.getD_eq_getElem?_getD, List.getElem?_replicate]
    split_ifs <;> rfl
  change (List.replicate 512 (0 : UInt8)).getD j 0 = (List.replicate _ (0 : UInt8)).getD _ 0
  rw [zeros, zeros]

theorem longLayout {k j : Nat} (total : k + j = 1024) :
    Layout longDevice (k * bigBlocks) (longEntries (k * bigBlocks) j) := by
  induction j generalizing k with
  | zero =>
      obtain rfl : k = 1024 := total
      refine .entry .none longDevice_b emptyB.headerBlock_encodes ?_ le_rfl (.deviceEnd .none)
      intro i bound
      rw [emptyB_blocks] at bound
      exact absurd bound (Nat.not_lt_zero i)
  | succ j ih =>
      have inside : k < 1024 := by omega
      have next : k * bigBlocks + 1 + blocksFor bigA.data.length = (k + 1) * bigBlocks := by
        rw [bigA_blocks, bigBlocks]
        omega
      have rest := ih (k := k + 1) (by omega)
      have step : k * bigBlocks + bigBlocks = (k + 1) * bigBlocks := (Nat.succ_mul k bigBlocks).symm
      rw [longEntries, step]
      refine .entry .none (longDevice_a inside) bigA.headerBlock_encodes bigA_stored ?_ ?_
      · rw [next]
        change (k + 1) * bigBlocks ≤ 1024 * bigBlocks + 1
        unfold bigBlocks
        omega
      · rw [next]
        exact rest

def longArchive : Archive longDevice where
  entries := longEntries 0 1024
  layout := by
    have layout := longLayout (k := 0) (j := 1024) rfl
    rw [Nat.zero_mul] at layout
    exact layout
  kinds x hx y hy _ := by
    rcases mem_longEntries hx with hx | hx <;> rcases mem_longEntries hy with hy | hy <;>
      rw [hx, hy] <;> rfl
  apart := by
    have path : ∀ p ∈ paths (longEntries 0 1024), p = [[97]] ∨ p = [[98]] := by
      intro p mem
      obtain ⟨x, hx, rfl⟩ := List.mem_map.mp mem
      rcases mem_longEntries hx with e | e
      · exact .inl (by rw [e]; rfl)
      · exact .inr (by rw [e]; rfl)
    have only : ∀ p ∈ paths (longEntries 0 1024), ∀ l (c : Name), l ++ [c] <+: p →
        c = [97] ∨ c = [98] := by
      intro p mem l c along
      have inPath : c ∈ p := along.subset (List.mem_append_right l List.mem_cons_self)
      rcases path p mem with rfl | rfl
      · exact .inl (List.mem_singleton.mp inPath)
      · exact .inr (List.mem_singleton.mp inPath)
    intro p hp q hq l c d hc hd same
    rcases only p hp l c hc with rfl | rfl <;> rcases only q hq l d hd with rfl | rfl
    · rfl
    · exact absurd same (by decide)
    · exact absurd same (by decide)
    · rfl

/-- The file behind block 2^31 is lost. -/
theorem long_archive_not_decoded :
    ∃ (dev : BlockDevice) (A : Archive dev), ∀ spare s root,
      (buildTree spare dev).run .initial = .ok (root, s) → ¬ Decoded dev A.entries s root := by
  refine ⟨longDevice, longArchive, fun spare s root run decoded => ?_⟩
  have implied := lateImplied_of_decoded (built_refines longArchive run) decoded
  have last : (⟨1024 * bigBlocks, emptyB⟩ : Placed) ∈ longArchive.entries := by
    have := last_longEntries (o := 0) (j := 1024)
    rw [Nat.zero_add] at this
    exact this
  cases (implied _ last (by decide)).1

end Infos.Fs
