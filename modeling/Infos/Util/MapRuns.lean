import Infos.Util.MapCalls
import Infos.Util.MapRedBlack
import Mathlib.Data.Finset.Card

/-!
# Histories of a map

Any sequence of `add` and `clear` on an empty map: what a lookup returns, the
count, and the red-black tree that the nodes in memory form.
-/
namespace Infos.Util.MapHeap
open Infos.Lib Function

section Clear
variable {κ α : Type} {s : MapState κ α} {x : Shape κ α} {fuel : Nat}

theorem deleteNode_run {parent : Option Ptr} (held : Holds s.nodes parent x)
    (distinct : (addrs x).Nodup) (enough : (addrs x).length < fuel) :
    ∃ s', (deleteNode fuel (addr x)).run s = .ok ((), s') ∧
      (∀ q, q ∈ addrs x → s'.nodes q = none) ∧
      ∀ q, q ∉ addrs x → s'.nodes q = s.nodes q := by
  obtain ⟨fuel, rfl⟩ := Nat.exists_eq_succ_of_ne_zero (Nat.ne_zero_of_lt enough)
  induction x generalizing s parent fuel with
  | null => exact ⟨s, rfl, nofun, fun _ _ => rfl⟩
  | node c l k v r ihl ihr =>
      rw [addrs_node] at distinct enough
      rw [List.length_append, List.length_cons] at enough
      obtain ⟨fuel, rfl⟩ : ∃ n, fuel = n + 1 := ⟨fuel - 1, by omega⟩
      obtain ⟨distinctL, right, across⟩ := List.nodup_append.mp distinct
      obtain ⟨s₁, run₁, freed₁, kept₁⟩ := ihl held.2.1 distinctL fuel (by omega)
      have heldR : Holds s₁.nodes (some v.1) r := held.2.2.frame fun q mem =>
        kept₁ q fun here => across q here q (List.mem_cons_of_mem _ mem) rfl
      obtain ⟨s₂, run₂, freed₂, kept₂⟩ :=
        ihr heldR (List.nodup_cons.mp right).2 fuel (by omega)
      refine ⟨{ s₂ with nodes := update s₂.nodes v.1 none }, ?_, ?_, ?_⟩
      · rw [addr, deleteNode, bind_ok (getNode_run held.1)]
        exact (bind_ok run₁).trans ((bind_ok run₂).trans (run_modify_eq _ _))
      · intro q mem
        dsimp only
        by_cases root : q = v.1
        · rw [root, update_self]
        · rw [update_of_ne root]
          by_cases inR : q ∈ addrs r
          · exact freed₂ q inR
          · rw [kept₂ q inR]
            apply freed₁ q
            rw [addrs_node] at mem
            simpa [root, inR] using mem
      · intro q away
        rw [addrs_node] at away
        simp only [List.mem_append, List.mem_cons, not_or] at away
        dsimp only
        rw [update_of_ne away.2.1, kept₂ q away.2.2, kept₁ q away.1]

theorem clear_run (h : Rep s x []) :
    ∃ s', (clear : Exec (MapState κ α) Unit).run s = .ok ((), s') ∧ Rep s' .null [] ∧
      s'.count = 0 ∧ ∀ q ∈ addrs x, s'.nodes q = none := by
  have distinct := (List.nodup_append.mp h.distinct).1
  obtain ⟨s', run, freed, -⟩ := deleteNode_run h.here distinct (Nat.lt_succ_of_le h.size_le)
  have root : s.root = addr x := h.root
  refine ⟨{ s' with root := none, count := 0 }, ?_, ⟨rfl, trivial, trivial, ?_, ?_⟩, rfl, freed⟩
  · rw [clear, bind_ok (run_get_eq s), root]
    exact (bind_ok run).trans (run_modify_eq _ _)
  · exact List.nodup_nil
  · nofun

end Clear

inductive Call (κ α : Type) where
  | add (key : κ) (value : α)
  | clear

section Runs
variable {κ α : Type} [LinearOrder κ]

def Call.isAdd : Call κ α → Bool
  | .add _ _ => true
  | .clear => false

/-- The value that a call gives to a key. -/
def Call.writes (k : κ) : Call κ α → Option α
  | .add key value => if key = k then some value else none
  | .clear => none

/-- The value of the last `add` of the key since the last `clear`. -/
def lastAdd (calls : List (Call κ α)) (k : κ) : Option α :=
  (calls.reverse.takeWhile Call.isAdd).findSome? (Call.writes k)

def Call.exec : Call κ α → Exec (MapState κ α) Unit
  | .add key value => MapHeap.add key value
  | .clear => MapHeap.clear

def execAll : List (Call κ α) → Exec (MapState κ α) Unit
  | [] => pure ()
  | c :: calls => do
      c.exec
      execAll calls

theorem lastAdd_add (calls : List (Call κ α)) (key : κ) (value : α) :
    lastAdd (calls ++ [.add key value]) = update (lastAdd calls) key (some value) := by
  funext k
  rw [lastAdd, List.reverse_append, update_apply]
  by_cases same : k = key
  · simp [same, List.takeWhile_cons, Call.isAdd, Call.writes]
  · simp [same, Ne.symm same, List.takeWhile_cons, Call.isAdd, Call.writes, lastAdd]

theorem lastAdd_clear (calls : List (Call κ α)) :
    lastAdd (calls ++ [.clear]) = fun _ => none := by
  funext k
  rw [lastAdd, List.reverse_append]
  simp [Call.isAdd]

/-- What holds of the memory after a history. -/
structure Reached (calls : List (Call κ α)) (s : MapState κ α) (t : Shape κ α) : Prop where
  rep : Rep s t []
  sorted : Sorted t.toList
  black : t.red = false
  balanced : ∃ n, RedBlack t n
  values : ∀ k, (t.tryGetValue k).map Prod.snd = lastAdd calls k
  count : s.count = t.toList.length % 2 ^ 32

theorem Reached.empty : Reached ([] : List (Call κ α)) .empty .null :=
  ⟨⟨rfl, trivial, trivial, List.nodup_nil, nofun⟩, List.Pairwise.nil, rfl, ⟨0, .null⟩,
    fun _ => rfl, rfl⟩

variable {calls rest : List (Call κ α)} {s : MapState κ α} {t : Shape κ α}

theorem Reached.add (h : Reached calls s t) (key : κ) (value : α) :
    ∃ s' t', (MapHeap.add key value).run s = .ok ((), s') ∧
      Reached (calls ++ [.add key value]) s' t' := by
  obtain ⟨s', t', p, new, run, ran, rep, count⟩ := add_run h.rep h.sorted h.black key value
  obtain ⟨n, balanced⟩ := h.balanced
  have length := addAt_length [] trivial (fun _ => h.black) ran
  obtain ⟨m, tree, sound, values⟩ := Map.add_spec (m := ⟨t, 0⟩) key (p, value) ⟨h.sorted, h.black⟩
  rw [Map.add, ran] at tree
  cases tree
  refine ⟨s', t', run, rep, sound.sorted, sound.black, ?_, fun k => ?_, ?_⟩
  · exact addAt_redBlack [] balanced trivial (fun _ => h.black) ran
  · have value' := congrFun values k
    rw [lastAdd_add, update_apply]
    rw [update_apply] at value'
    apply (congrArg (Option.map Prod.snd) value').trans
    split_ifs with same
    · rfl
    · exact h.values k
  · rw [count, length, h.count]
    cases new <;> simp [before, after]

theorem Reached.clear (h : Reached calls s t) :
    ∃ s' t', (MapHeap.clear : Exec (MapState κ α) Unit).run s = .ok ((), s') ∧
      Reached (calls ++ [.clear]) s' t' := by
  obtain ⟨s', run, rep, count, -⟩ := clear_run h.rep
  refine ⟨s', .null, run, rep, List.Pairwise.nil, rfl, ⟨0, .null⟩, fun k => ?_, count⟩
  rw [lastAdd_clear]
  rfl

theorem Reached.exec (h : Reached calls s t) (c : Call κ α) :
    ∃ s' t', c.exec.run s = .ok ((), s') ∧ Reached (calls ++ [c]) s' t' := by
  cases c with
  | add key value => exact h.add key value
  | clear => exact h.clear

theorem Reached.execAll (h : Reached calls s t) (rest : List (Call κ α)) :
    ∃ s' t', (MapHeap.execAll rest).run s = .ok ((), s') ∧ Reached (calls ++ rest) s' t' := by
  induction rest generalizing calls s t with
  | nil => exact ⟨s, t, rfl, by rwa [List.append_nil]⟩
  | cons c rest ih =>
      obtain ⟨s₁, t₁, run₁, reached₁⟩ := h.exec c
      obtain ⟨s₂, t₂, run₂, reached₂⟩ := ih reached₁
      refine ⟨s₂, t₂, (bind_ok run₁).trans run₂, ?_⟩
      rwa [List.append_assoc, List.singleton_append] at reached₂

theorem Reached.distinct (h : Reached calls s t) : (t.toList.map Prod.fst).Nodup :=
  List.Pairwise.map _ (fun _ _ less => less.ne) h.sorted

/-- The keys that are present. -/
theorem Reached.keys (h : Reached calls s t) :
    ∃ keys : Finset κ, (∀ k, k ∈ keys ↔ (lastAdd calls k).isSome) ∧
      keys.card = t.toList.length := by
  refine ⟨(t.toList.map Prod.fst).toFinset, fun k => ?_, ?_⟩
  · rw [← h.values, Option.isSome_map, List.mem_toFinset, List.mem_map, Option.isSome_iff_exists]
    constructor
    · rintro ⟨⟨k, v⟩, mem, rfl⟩
      exact ⟨v, (MapNode.tryGetValue_iff h.sorted).mpr mem⟩
    · rintro ⟨v, found⟩
      exact ⟨(k, v), (MapNode.tryGetValue_iff h.sorted).mp found, rfl⟩
  · rw [List.toFinset_card_of_nodup h.distinct, List.length_map]

theorem Reached.from_empty (calls : List (Call κ α)) :
    ∃ s t, (MapHeap.execAll calls).run .empty = .ok ((), s) ∧ Reached calls s t :=
  Reached.empty.execAll calls

/-- A lookup gives what the last `add` of the key since the last `clear` wrote, and the count is
the number of keys present, as an `unsigned int` holds it. -/
theorem map_refines {κ α : Type} [LinearOrder κ] (calls : List (Call κ α)) :
    ∃ s, (execAll calls).run .empty = .ok ((), s) ∧
      (∀ k, (tryGetValue k).run s = .ok (lastAdd calls k, s)) ∧
      (∀ k, (containsKey k).run s = .ok ((lastAdd calls k).isSome, s)) ∧
      ∃ keys : Finset κ, (∀ k, k ∈ keys ↔ (lastAdd calls k).isSome) ∧
        s.count = keys.card % 2 ^ 32 := by
  obtain ⟨s, t, run, reached⟩ := Reached.from_empty calls
  obtain ⟨keys, present, card⟩ := reached.keys
  refine ⟨s, run, fun k => ?_, fun k => ?_, keys, present, ?_⟩
  · rw [tryGetValue_run reached.rep, reached.values]
  · rw [containsKey_run reached.rep, ← reached.values, Option.isSome_map]
  · rw [card, reached.count]

theorem adds_lastAdd (v : α) (n k : Nat) :
    lastAdd ((List.range n).map fun k => .add k v) k = if k < n then some v else none := by
  induction n with
  | zero => rfl
  | succ n ih =>
      rw [List.range_succ, List.map_append, List.map_singleton, lastAdd_add, update_apply, ih]
      by_cases same : k = n
      · rw [if_pos same, if_pos (by omega)]
      · rw [if_neg same]
        have : k < n ↔ k < n + 1 := by omega
        simp only [this]

theorem adds_count (n : Nat) :
    ∃ s, (execAll ((List.range n).map fun k => Call.add k ())).run .empty = .ok ((), s) ∧
      s.count = n % 2 ^ 32 := by
  obtain ⟨s, t, run, reached⟩ := Reached.from_empty ((List.range n).map fun k => Call.add k ())
  obtain ⟨keys, present, card⟩ := reached.keys
  have all : keys = Finset.range n := by
    ext k
    rw [present, adds_lastAdd, Finset.mem_range]
    split_ifs with below <;> simp [below]
  refine ⟨s, run, ?_⟩
  rw [reached.count, ← card, all, Finset.card_range]

/-- With 2^32 keys in the map the count is 0. -/
theorem count_wraps : ∃ (calls : List (Call Nat Unit)) (s : MapState Nat Unit),
    (execAll calls).run .empty = .ok ((), s) ∧ s.count = 0 ∧
      ∀ k < 2 ^ 32, lastAdd calls k = some () := by
  obtain ⟨s, run, count⟩ := adds_count (2 ^ 32)
  exact ⟨_, s, run, count.trans (Nat.mod_self _), fun k less =>
    (adds_lastAdd () (2 ^ 32) k).trans (if_pos less)⟩

/-- No history faults or runs on forever. The nodes in memory form a red-black tree with a black
root in which every pointer to a parent is right and the root's is NULL, as `Rep` says. -/
theorem map_red_black {κ α : Type} [LinearOrder κ] (calls : List (Call κ α)) :
    ∃ s t n, (execAll calls).run .empty = .ok ((), s) ∧ Rep s t [] ∧ t.red = false ∧
      RedBlack t n ∧ ∃ keys : Finset κ, (∀ k, k ∈ keys ↔ (lastAdd calls k).isSome) ∧
        t.height ≤ 2 * Nat.log 2 (keys.card + 1) := by
  obtain ⟨s, t, run, reached⟩ := Reached.from_empty calls
  obtain ⟨keys, present, card⟩ := reached.keys
  obtain ⟨n, balanced⟩ := reached.balanced
  refine ⟨s, t, n, run, reached.rep, reached.black, balanced, keys, present, ?_⟩
  rw [card]
  exact balanced.height_le_log reached.black

end Runs
end Infos.Util.MapHeap
