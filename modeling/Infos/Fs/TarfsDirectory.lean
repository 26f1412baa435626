import Infos.Fs.Tarfs
import Infos.Util.MapIterator

/-!
# Directories of the TAR file system

A directory copies the names and sizes of the children of a node when it is opened, and gives
them one after another.
-/
namespace Infos.Fs
open Infos.Lib Infos.Util Infos.Util.MapHeap

/-- The size is not set before the first assignment. -/
structure DirectoryEntry where
  name : List UInt8
  size : Option Nat

structure TarFSDirectory where
  entries : List DirectoryEntry
  nrEntries : Nat
  curEntry : Nat

namespace TarFSDirectory

/-- An element of `new DirectoryEntry[_nr_entries]`. -/
def blank : DirectoryEntry := ⟨[], none⟩

def entryOf (tree : TarState) (child : HashType × NodeId) : DirectoryEntry :=
  ⟨(tree.nodes child.2).name, some (tree.nodes child.2).size⟩

/-- The body of the loop in the constructor. The index is an `int`. -/
def fill (tree : TarState) (done : List DirectoryEntry × Int) (child : HashType × NodeId) :
    Except Fault (List DirectoryEntry × Int) :=
  if 0 ≤ done.2 ∧ done.2 < done.1.length then
    .ok (done.1.set done.2.toNat (entryOf tree child), toInt32 (done.2 + 1))
  else .error .outOfBounds

/-- The constructor; the map holds the children of the node. -/
def new (tree : TarState) : Exec (MapState HashType NodeId) TarFSDirectory := do
  let s ← get
  let (entries, _) ← forEach (fill tree) (s.next + 1) (List.replicate s.count blank, 0)
  pure ⟨entries, s.count, 0⟩

/-- The entry, or `none` where the result is false. -/
def readEntry (d : TarFSDirectory) : Except Fault (Option DirectoryEntry × TarFSDirectory) :=
  if d.curEntry < d.nrEntries then
    match d.entries[d.curEntry]? with
    | none => .error .outOfBounds
    | some entry => .ok (some entry, { d with curEntry := (d.curEntry + 1) % 2 ^ 32 })
  else .ok (none, d)

def readEntries : Nat → TarFSDirectory → Except Fault (List (Option DirectoryEntry))
  | 0, _ => .ok []
  | n + 1, d => do
      let (entry, d) ← d.readEntry
      let rest ← readEntries n d
      .ok (entry :: rest)

/-! ### Filling the array -/

section Fill
variable {tree : TarState} {done : List DirectoryEntry} {room : Nat} {child : HashType × NodeId}
  {children : List (HashType × NodeId)}

/-- The array when some of its entries are filled. -/
def filled (done : List DirectoryEntry) (room : Nat) : List DirectoryEntry × Int :=
  (done ++ List.replicate room blank, toInt32 done.length)

theorem fill_run (tree : TarState) (child : HashType × NodeId) (room : Nat)
    (index : done.length < 2 ^ 31) :
    fill tree (filled done (room + 1)) child =
      .ok (filled (done ++ [entryOf tree child]) room) := by
  have at_i : toInt32 (done.length : Int) = done.length := toInt32_natCast index
  have inside : (0 : Int) ≤ done.length ∧
      (done.length : Int) < (done ++ List.replicate (room + 1) blank).length := by
    rw [List.length_append, List.length_replicate]
    omega
  simp only [fill, filled, at_i]
  rw [if_pos inside, Int.toNat_natCast, List.set_append_right _ _ (Nat.le_refl _), Nat.sub_self,
    List.replicate_succ, List.set_cons_zero, List.append_assoc, List.length_append]
  rfl

theorem fill_all (tree : TarState) (children : List (HashType × NodeId))
    (done : List DirectoryEntry) (room : Nat)
    (index : done.length + children.length ≤ 2 ^ 31) :
    children.foldlM (fill tree) (filled done (children.length + room)) =
      .ok (filled (done ++ children.map (entryOf tree)) room) := by
  induction children generalizing done with
  | nil => simp [pure, Except.pure]
  | cons child children ih =>
      rw [List.length_cons] at index
      have next := ih (done ++ [entryOf tree child]) (by
        rw [List.length_append, List.length_singleton]
        omega)
      rw [List.append_assoc, List.singleton_append] at next
      rw [List.foldlM_cons, List.length_cons, Nat.add_right_comm, fill_run tree child _ (by omega)]
      exact next

theorem foldlM_error {α β : Type} {f : β → α → Except Fault β} {first rest : List α} {x : α}
    {b b' : β} {e : Fault} (run : first.foldlM f b = .ok b') (fault : f b' x = .error e) :
    (first ++ x :: rest).foldlM f b = .error e := by
  rw [List.foldlM_append, run]
  change (x :: rest).foldlM f b' = _
  rw [List.foldlM_cons, fault]
  rfl

theorem fill_overrun (tree : TarState) (more : 2 ^ 31 < children.length) :
    children.foldlM (fill tree) (filled [] children.length) = .error .outOfBounds := by
  obtain ⟨first, rest, rfl, size⟩ : ∃ first rest, children = first ++ rest ∧
      first.length = 2 ^ 31 :=
    ⟨_, _, (List.take_append_drop (2 ^ 31) children).symm, List.length_take_of_le more.le⟩
  rw [List.length_append] at more ⊢
  cases rest with
  | nil =>
      rw [List.length_nil] at more
      omega
  | cons child rest =>
      have index : (filled (first.map (entryOf tree)) (child :: rest).length).2 < 0 := by
        rw [filled, List.length_map, toInt32_wrap size.ge (by omega)]
        dsimp only
        omega
      have copied := fill_all tree first [] (child :: rest).length
        (by rw [List.length_nil]; omega)
      have fault : fill tree (filled (first.map (entryOf tree)) (child :: rest).length) child =
          .error .outOfBounds := if_neg fun inside => absurd inside.1 (not_le.mpr index)
      exact foldlM_error copied fault

end Fill

section Reads
variable {d : TarFSDirectory}

theorem readEntries_run (n : Nat) (d : TarFSDirectory) (full : d.entries.length = d.nrEntries)
    (current : d.curEntry ≤ d.nrEntries) (word : d.nrEntries < 2 ^ 32) :
    d.readEntries n = .ok ((List.range n).map fun i => d.entries[d.curEntry + i]?) := by
  induction n generalizing d with
  | zero => rfl
  | succ n ih =>
      rw [readEntries, readEntry, List.range_succ_eq_map, List.map_cons, List.map_map]
      by_cases more : d.curEntry < d.nrEntries
      · have index : (d.curEntry + 1) % 2 ^ 32 = d.curEntry + 1 :=
          Nat.mod_eq_of_lt (Nat.lt_of_le_of_lt more word)
        have next := ih { d with curEntry := d.curEntry + 1 } full more word
        have behind : ((fun i => d.entries[d.curEntry + i]?) ∘ Nat.succ) =
            fun i => d.entries[d.curEntry + 1 + i]? := by
          funext i
          rw [Function.comp_apply, Nat.succ_eq_add_one, Nat.add_assoc, Nat.add_comm 1]
        have here : d.entries[d.curEntry]? = some d.entries[d.curEntry] :=
          List.getElem?_eq_getElem (full ▸ more)
        rw [if_pos more, index, behind]
        simp only [here, bind, Except.bind, next, Nat.add_zero]
      · have past : ∀ i, d.entries[d.curEntry + i]? = none := fun i =>
          List.getElem?_eq_none (by omega)
        have next := ih d full current word
        simp only [past] at next ⊢
        rw [if_neg more]
        simp only [bind, Except.bind, next]
        rfl

end Reads

/-! ### Directories of a node -/

section Nodes
variable {calls : List (Call HashType NodeId)} {s : MapState HashType NodeId}
  {t : Shape HashType NodeId}

theorem new_run (h : Rep s t []) (tree : TarState) (few : (visited t).length + 1 < 2 ^ 33) :
    (new tree).run s = (lift ((visited t).foldlM (fill tree) (filled [] s.count)) >>= fun done =>
      pure ⟨done.1, s.count, 0⟩ : Exec (MapState HashType NodeId) TarFSDirectory).run s := by
  have enough : (visited t).length < s.next + 1 := by
    have size := h.size_le
    rw [addrs, List.length_map] at size
    rw [visited_length]
    omega
  have loop := h.forEach_run (fill tree) (filled [] s.count) few enough
  rw [new, bind_ok (run_get_eq s), StateT.run_bind, StateT.run_bind, ← loop]
  rfl

/-- What a directory does for the children of a node. -/
structure Lists (tree : TarState) (children : List (HashType × NodeId)) (d : TarFSDirectory) :
    Prop where
  nrEntries : d.nrEntries = children.length
  entries : d.entries = children.map (entryOf tree)
  reads : ∀ n, d.readEntries n = .ok ((List.range n).map fun i => d.entries[i]?)

theorem new_lists (h : Reached calls s t) (tree : TarState) (few : (visited t).length < 2 ^ 31) :
    ∃ d, (new tree).run s = .ok (d, s) ∧ Lists tree (visited t) d := by
  have count : s.count = (visited t).length := by
    rw [h.count, ← visited_length, Nat.mod_eq_of_lt (by omega)]
  have copied := fill_all tree (visited t) [] 0 (by rw [List.length_nil]; omega)
  refine ⟨⟨(visited t).map (entryOf tree), s.count, 0⟩, ?_, count, rfl, fun n => ?_⟩
  · rw [new_run h.rep tree (by omega), count, ← Nat.add_zero (visited t).length, copied,
      bind_ok (lift_ok _ s)]
    simp only [filled, List.nil_append, List.replicate_zero, List.append_nil]
    rfl
  · have reads := readEntries_run n ⟨(visited t).map (entryOf tree), s.count, 0⟩
      (by simp [count]) (Nat.zero_le _) (by dsimp only; omega)
    simpa using reads

theorem new_overrun (h : Reached calls s t) (tree : TarState) (more : 2 ^ 31 < (visited t).length)
    (few : (visited t).length < 2 ^ 32) : (new tree).run s = .error .outOfBounds := by
  have count : s.count = (visited t).length := by
    rw [h.count, ← visited_length, Nat.mod_eq_of_lt few]
  rw [new_run h.rep tree (by omega), count, fill_overrun tree more]
  rfl

end Nodes
end TarFSDirectory

/-- Iterating over a map visits each key that is present once and with its current value, and a
directory has an entry for each child of its node and reads each of them once. -/
theorem iteration_visits_once :
    (∀ (κ α : Type) [LinearOrder κ] (calls : List (Call κ α)), ∃ s pairs,
      (execAll calls).run .empty = .ok ((), s) ∧ Iterates calls s pairs) ∧
    ∀ (tree : TarState) (calls : List (Call HashType NodeId)), ∃ s children,
      (execAll calls).run .empty = .ok ((), s) ∧ Iterates calls s children ∧
        (children.length < 2 ^ 31 →
          ∃ d, (TarFSDirectory.new tree).run s = .ok (d, s) ∧ d.Lists tree children) := by
  constructor
  · intro κ α order calls
    obtain ⟨s, t, run, reached⟩ := Reached.from_empty calls
    exact ⟨s, visited t, run, reached.iterates⟩
  · intro tree calls
    obtain ⟨s, t, run, reached⟩ := Reached.from_empty calls
    exact ⟨s, visited t, run, reached.iterates, TarFSDirectory.new_lists reached tree⟩

/-- A node with two children of the same name. -/
theorem iteration_visits_once_two : ∃ s children d,
    (execAll ((List.range 2).map fun k => Call.add k 0)).run .empty = .ok ((), s) ∧
      children.length = 2 ∧ (TarFSDirectory.new ⟨fun _ => .new [97], 1, []⟩).run s = .ok (d, s) ∧
      d.Lists ⟨fun _ => .new [97], 1, []⟩ children := by
  obtain ⟨s, children, run, iterates, lists⟩ := iteration_visits_once.2 ⟨fun _ => .new [97], 1, []⟩
    ((List.range 2).map fun k => Call.add k 0)
  have length := iterates.present.adds_length
  obtain ⟨d, opened, listed⟩ := lists (by omega)
  exact ⟨s, children, d, run, length, opened, listed⟩

theorem adds_iterate (n : Nat) (few : n + 1 < 2 ^ 33) :
    ∃ s pairs, (execAll ((List.range n).map fun k => Call.add k ())).run .empty = .ok ((), s) ∧
      s.count = n % 2 ^ 32 ∧ pairs.length = n ∧ (iterate (n + 1)).run s = .ok (pairs, s) := by
  obtain ⟨s, t, run, reached⟩ := Reached.from_empty ((List.range n).map fun k => Call.add k ())
  have iterates := reached.iterates
  have length := iterates.present.adds_length
  refine ⟨s, visited t, run, length ▸ iterates.count, length, ?_⟩
  exact iterates.visits (length.symm ▸ few) (n + 1) (length.symm ▸ Nat.lt_succ_self n)

theorem adds_overrun (tree : TarState) (child : NodeId) (n : Nat) (more : 2 ^ 31 < n)
    (few : n < 2 ^ 32) :
    ∃ s, (execAll ((List.range n).map fun k => Call.add k child)).run .empty = .ok ((), s) ∧
      s.count = n ∧ (TarFSDirectory.new tree).run s = .error .outOfBounds := by
  obtain ⟨s, t, run, reached⟩ := Reached.from_empty ((List.range n).map fun k => Call.add k child)
  have length := reached.present.adds_length
  have count : s.count = n := by
    rw [reached.iterates.count, length, Nat.mod_eq_of_lt few]
  exact ⟨s, run, count, TarFSDirectory.new_overrun reached tree (length.symm ▸ more)
    (length.symm ▸ few)⟩

/-- With 2^32 keys the count is 0 and the iteration visits all of them; with 2^31 + 1 children the
index of a directory overflows. -/
theorem iteration_wraps :
    (∃ s pairs, (execAll ((List.range (2 ^ 32)).map fun k => Call.add k ())).run .empty =
        .ok ((), s) ∧ s.count = 0 ∧ pairs.length = 2 ^ 32 ∧
      (iterate (2 ^ 32 + 1)).run s = .ok (pairs, s)) ∧
    ∀ tree, ∃ s, (execAll ((List.range (2 ^ 31 + 1)).map fun k => Call.add k 0)).run .empty =
        .ok ((), s) ∧ s.count = 2 ^ 31 + 1 ∧
      (TarFSDirectory.new tree).run s = .error .outOfBounds := by
  constructor
  · obtain ⟨s, pairs, run, count, length, visits⟩ := adds_iterate (2 ^ 32) (by omega)
    exact ⟨s, pairs, run, count.trans (Nat.mod_self _), length, visits⟩
  · exact fun tree => adds_overrun tree 0 (2 ^ 31 + 1) (Nat.lt_succ_self _) (by omega)
end Infos.Fs
