import Infos.Lib.BreadthFirst
import Infos.Util.List
import Infos.Util.MapRuns

/-!
# Iterating over a map

The iterator holds a queue of nodes: the node in front becomes the current one, and its
children go to the back.
-/
namespace Infos.Util.MapHeap
open Infos.Lib

structure MapIterator where
  queue : CountedList Ptr
  current : Option Ptr

section Iterator
variable {κ α β : Type}

/-- `if (child) _queue.enqueue(child)` -/
def enqueue (queue : CountedList Ptr) : Option Ptr → CountedList Ptr
  | none => queue
  | some child => queue.append child

namespace MapIterator

def advance (it : MapIterator) : Exec (MapState κ α) MapIterator := do
  if it.queue.empty then pure { it with current := none }
  else do
    let (current, queue) ← lift it.queue.dequeue
    let n ← getNode current
    pure ⟨enqueue (enqueue queue n.left) n.right, some current⟩

/-- The constructor. -/
def new : Option Ptr → Exec (MapState κ α) MapIterator
  | none => pure ⟨.nil, none⟩
  | some root => advance ⟨CountedList.nil.append root, some root⟩

/-- `operator*`; `assert(_current)`. -/
def pair (it : MapIterator) : Exec (MapState κ α) (κ × α) :=
  match it.current with
  | none => throw .assertion
  | some p => do
      let n ← getNode p
      pure (n.key, n.value)

/-- `operator!=` -/
def differs (it other : MapIterator) : Bool := other.current != it.current

end MapIterator

def mapBegin : Exec (MapState κ α) MapIterator := do MapIterator.new (← get).root

def mapEnd : Exec (MapState κ α) MapIterator := MapIterator.new none

/-- The loop from an iterator to another one. -/
def forEachTo (last : MapIterator) (body : β → κ × α → Except Fault β) :
    Nat → MapIterator → β → Exec (MapState κ α) β
  | 0, _, _ => throw .outOfFuel
  | fuel + 1, it, b =>
      if it.differs last then do
        let pair ← it.pair
        let b ← lift (body b pair)
        let it ← it.advance
        forEachTo last body fuel it b
      else pure b

/-- `for (pair : map)` -/
def forEach (body : β → κ × α → Except Fault β) (fuel : Nat) (b : β) :
    Exec (MapState κ α) β := do
  let it ← mapBegin
  let last ← mapEnd
  forEachTo last body fuel it b

/-- The pairs that the iteration gives. -/
def iterate (fuel : Nat) : Exec (MapState κ α) (List (κ × α)) :=
  forEach (fun pairs pair => .ok (pairs ++ [pair])) fuel []

end Iterator

/-! ### The nodes in the queue -/

abbrev Branch (κ α : Type) := { x : Shape κ α // x ≠ .null }

section Branches
variable {κ α : Type}

def branches : Shape κ α → List (Branch κ α)
  | .null => []
  | .node c l k v r => [⟨.node c l k v r, nofun⟩]

/-- The pairs in a tree, without the places of the nodes. -/
def pairs (x : Shape κ α) : List (κ × α) := x.toList.map fun e => (e.1, e.2.2)

theorem flatMap_branches (x : Shape κ α) : (branches x).flatMap (fun b => pairs b.1) = pairs x := by
  cases x with
  | null => rfl
  | node => exact List.append_nil _

def Branch.value : Branch κ α → κ × α
  | ⟨.node _ _ k v _, _⟩ => (k, v.2)

def Branch.subs : Branch κ α → List (Branch κ α)
  | ⟨.node _ l _ _ r, _⟩ => branches l ++ branches r

theorem Branch.perm (b : Branch κ α) :
    (b.value :: b.subs.flatMap fun b => pairs b.1).Perm (pairs b.1) := by
  obtain ⟨x, node⟩ := b
  cases x with
  | null => exact absurd rfl node
  | node c l k v r =>
      rw [Branch.subs, List.flatMap_append, flatMap_branches, flatMap_branches]
      simp only [pairs, MapNode.toList, List.map_append, List.map_cons]
      exact List.perm_middle.symm

def nodeTree (κ α : Type) : Branching (Branch κ α) (κ × α) where
  value := Branch.value
  subs := Branch.subs
  parts b := pairs b.1
  perm := Branch.perm

/-- The pairs of a tree in the order of the iteration. -/
def visited (x : Shape κ α) : List (κ × α) := (nodeTree κ α).order (branches x)

theorem visited_perm (x : Shape κ α) : (visited x).Perm (pairs x) := by
  have perm := (nodeTree κ α).order_perm (branches x)
  rwa [Branching.remaining, nodeTree, flatMap_branches] at perm

theorem visited_length (x : Shape κ α) : (visited x).length = x.toList.length := by
  rw [(visited_perm x).length_eq, pairs, List.length_map]

/-- The nodes without their places. -/
def bare : Shape κ α → MapNode κ α
  | .null => .null
  | .node c l k v r => .node c (bare l) k v.2 (bare r)

/-- Nodes at places that do not matter. -/
def placed : MapNode κ α → Shape κ α
  | .null => .null
  | .node c l k v r => .node c (placed l) k (0, v) (placed r)

theorem pairs_placed (x : MapNode κ α) : pairs (placed x) = x.toList := by
  induction x with
  | null => rfl
  | node c l k v r ihl ihr =>
      unfold pairs at ihl ihr ⊢
      simp only [placed, MapNode.toList, List.map_append, List.map_cons, ihl, ihr]

def Branch.moved : Branch κ α → Branch κ α
  | ⟨.node c l k v r, _⟩ => ⟨.node c (placed (bare l)) k (0, v.2) (placed (bare r)), nofun⟩

theorem branches_moved (x : Shape κ α) :
    branches (placed (bare x)) = (branches x).map Branch.moved := by
  cases x <;> rfl

theorem visited_bare (x : Shape κ α) : visited (placed (bare x)) = visited x := by
  rw [visited, branches_moved]
  refine Branching.order_map Branch.moved (fun b => ?_) (fun b => ?_) _
  · obtain ⟨x, node⟩ := b
    cases x with
    | null => exact absurd rfl node
    | node c l k v r => rfl
  · obtain ⟨x, node⟩ := b
    cases x with
    | null => exact absurd rfl node
    | node c l k v r =>
        change branches _ ++ branches _ = (branches l ++ branches r).map _
        rw [branches_moved, branches_moved, List.map_append]

theorem branches_length (x : Shape κ α) : (branches x).length ≤ 1 := by
  cases x <;> simp [branches]

theorem Branch.subs_length (b : Branch κ α) : b.subs.length ≤ 2 := by
  obtain ⟨x, node⟩ := b
  cases x with
  | null => exact absurd rfl node
  | node c l k v r =>
      rw [Branch.subs, List.length_append]
      exact Nat.add_le_add (branches_length l) (branches_length r)

end Branches

section Advance
variable {κ α β : Type} {s : MapState κ α} {q : List (Branch κ α)} {l : CountedList Ptr}
  {x : Shape κ α} {it : MapIterator} {fuel : Nat}

/-- The queue of the iterator holds these subtrees of the map. -/
structure Queued (s : MapState κ α) (l : CountedList Ptr) (q : List (Branch κ α)) : Prop where
  elems : l.elems.map some = q.map fun b => addr b.1
  held : ∀ b ∈ q, ∃ parent, Holds s.nodes parent b.1
  counted : l.Counted

theorem Queued.nil : Queued s .nil [] := ⟨rfl, nofun, CountedList.nil_counted⟩

theorem Queued.enqueue {parent : Option Ptr} (h : Queued s l q) (held : Holds s.nodes parent x) :
    Queued s (enqueue l (addr x)) (q ++ branches x) := by
  cases x with
  | null => rwa [branches, List.append_nil]
  | node c left k v right =>
      refine ⟨?_, ?_, h.counted.append⟩
      · simp [MapHeap.enqueue, addr, CountedList.append, branches, h.elems]
      · intro b mem
        rcases List.mem_append.mp mem with mem | mem
        · exact h.held b mem
        · cases List.mem_singleton.mp mem
          exact ⟨parent, held⟩

theorem Queued.length (h : Queued s l q) : l.elems.length = q.length := by
  simpa using congrArg List.length h.elems

theorem Queued.empty (h : Queued s l q) (short : q.length < 2 ^ 32) :
    l.empty = true ↔ q = [] := by
  rw [h.counted.empty_iff, h.length, ← List.length_eq_zero_iff]
  constructor
  · exact fun divides => Nat.eq_zero_of_dvd_of_lt divides short
  · exact fun none => none ▸ Nat.dvd_zero _

theorem Queued.advance_nil (h : Queued s it.queue []) :
    it.advance.run s = .ok (⟨it.queue, none⟩, s) := by
  have none : it.queue.empty = true := (h.empty (Nat.two_pow_pos 32)).mpr rfl
  rw [MapIterator.advance, if_pos none]
  rfl

theorem Queued.advance_cons {b : Branch κ α} (h : Queued s it.queue (b :: q))
    (short : (b :: q).length < 2 ^ 32) :
    ∃ p n l, it.advance.run s = .ok (⟨l, some p⟩, s) ∧ Queued s l (q ++ b.subs) ∧
      s.nodes p = some n ∧ (n.key, n.value) = b.value := by
  obtain ⟨x, node⟩ := b
  cases x with
  | null => exact absurd rfl node
  | node c left k v right =>
      have more : ¬ it.queue.empty = true := fun none => nomatch (h.empty short).mp none
      obtain ⟨p, rest, front, at_p, others⟩ := List.map_eq_cons_iff.mp h.elems
      cases Option.some.inj at_p
      obtain ⟨l, dequeued, elems, counted⟩ := h.counted.dequeue front
      obtain ⟨parent, here, atLeft, atRight⟩ := h.held _ List.mem_cons_self
      have queued : Queued s l q :=
        ⟨elems ▸ others, fun b mem => h.held b (List.mem_cons_of_mem _ mem), counted⟩
      refine ⟨v.1, _, MapHeap.enqueue (MapHeap.enqueue l (addr left)) (addr right), ?_, ?_, here,
        rfl⟩
      · rw [MapIterator.advance, if_neg more, dequeued, bind_ok (lift_ok _ s)]
        exact bind_ok (getNode_run here)
      · rw [Branch.subs, ← List.append_assoc]
        exact (queued.enqueue atLeft).enqueue atRight

theorem Queued.forEachTo_run (last : MapIterator) (body : β → κ × α → Except Fault β) (b : β)
    (h : Queued s it.queue q) (short : q.length + ((nodeTree κ α).order q).length < 2 ^ 33)
    (stop : last.current = none) (enough : ((nodeTree κ α).order q).length < fuel) :
    (it.advance >>= fun it => forEachTo last body fuel it b).run s =
      (lift (((nodeTree κ α).order q).foldlM body b)).run s := by
  induction q using (nodeTree κ α).queue_induction generalizing it b fuel with
  | nil =>
      obtain ⟨fuel, rfl⟩ := Nat.exists_eq_succ_of_ne_zero (Nat.ne_zero_of_lt enough)
      have atEnd : ¬ MapIterator.differs ⟨it.queue, none⟩ last = true := by
        simp [MapIterator.differs, stop]
      rw [bind_ok h.advance_nil, forEachTo, if_neg atEnd]
      rfl
  | cons x q ih =>
      obtain ⟨fuel, rfl⟩ := Nat.exists_eq_succ_of_ne_zero (Nat.ne_zero_of_lt enough)
      have bound := (nodeTree κ α).length_le (x :: q)
      obtain ⟨p, n, l, run, queued, at_p, value⟩ := h.advance_cons (by omega)
      have weight := (nodeTree κ α).weight_le q (Branch.subs_length x)
      have more : MapIterator.differs ⟨l, some p⟩ last = true := by
        simp [MapIterator.differs, stop]
      have pair : (MapIterator.pair ⟨l, some p⟩).run s = .ok (x.value, s) := by
        rw [MapIterator.pair, bind_ok (getNode_run at_p), value]
        rfl
      rw [bind_ok run, forEachTo, if_pos more, bind_ok pair, Branching.order_cons,
        List.foldlM_cons]
      change ((lift (body b x.value) >>= _).run s) = (lift (body b x.value >>= _)).run s
      cases body b x.value with
      | error e => rfl
      | ok b =>
          rw [bind_ok (lift_ok b s)]
          rw [Branching.order_cons] at enough
          exact ih b queued (weight.trans_lt short) (Nat.lt_of_succ_lt_succ enough)

/-- The loop runs over the pairs as they are visited, with an unchanged map. -/
theorem Rep.forEach_run (h : Rep s x []) (body : β → κ × α → Except Fault β) (b : β)
    (few : (visited x).length + 1 < 2 ^ 33) (enough : (visited x).length < fuel) :
    (forEach body fuel b).run s = (lift ((visited x).foldlM body b)).run s := by
  have root : s.root = addr x := h.root
  rw [forEach, mapBegin, bind_assoc, bind_ok (run_get_eq s), root]
  cases x with
  | null =>
      have queued : Queued s (MapIterator.mk .nil none).queue [] := .nil
      have run := queued.forEachTo_run ⟨.nil, none⟩ body b (Nat.two_pow_pos 33) rfl enough
      rw [bind_ok queued.advance_nil] at run
      exact run
  | node c l k v r =>
      have queued : Queued s (MapIterator.mk (enqueue .nil (some v.1)) (some v.1)).queue
          (branches (.node c l k v r)) := Queued.nil.enqueue h.here
      exact queued.forEachTo_run ⟨.nil, none⟩ body b (Nat.add_comm _ 1 ▸ few) rfl enough

theorem foldlM_snoc (done rest : List β) :
    rest.foldlM (fun l x => .ok (l ++ [x])) done =
      (.ok (done ++ rest) : Except Fault (List β)) := by
  induction rest generalizing done with
  | nil => exact congrArg Except.ok (List.append_nil done).symm
  | cons x rest ih =>
      rw [List.foldlM_cons, List.append_cons done x rest]
      exact ih (done ++ [x])

theorem Rep.iterate_run (h : Rep s x []) (few : (visited x).length + 1 < 2 ^ 33)
    (enough : (visited x).length < fuel) : (iterate fuel).run s = .ok (visited x, s) := by
  rw [iterate, h.forEach_run _ [] few enough, foldlM_snoc]
  rfl

end Advance

/-! ### The pairs after a history -/

section Histories
variable {κ α : Type} [LinearOrder κ] {calls : List (Call κ α)} {s : MapState κ α}
  {t : Shape κ α}

/-- The keys that are present, each of them once and with its current value. -/
structure Present (calls : List (Call κ α)) (pairs : List (κ × α)) : Prop where
  once : (pairs.map Prod.fst).Nodup
  current : ∀ k v, (k, v) ∈ pairs ↔ lastAdd calls k = some v

theorem Reached.present (h : Reached calls s t) : Present calls (visited t) := by
  have perm := visited_perm t
  constructor
  · rw [(perm.map Prod.fst).nodup_iff, pairs, List.map_map]
    exact h.distinct
  · intro k v
    rw [perm.mem_iff, ← h.values, Option.map_eq_some_iff, pairs, List.mem_map]
    constructor
    · rintro ⟨⟨_, p, _⟩, mem, ⟨⟩⟩
      exact ⟨(p, _), (MapNode.tryGetValue_iff h.sorted).mpr mem, rfl⟩
    · rintro ⟨⟨p, v⟩, found, rfl⟩
      exact ⟨(k, p, v), (MapNode.tryGetValue_iff h.sorted).mp found, rfl⟩

/-- What iterating over the map gives after a history. -/
structure Iterates (calls : List (Call κ α)) (s : MapState κ α) (pairs : List (κ × α)) : Prop where
  present : Present calls pairs
  count : s.count = pairs.length % 2 ^ 32
  visits : pairs.length + 1 < 2 ^ 33 → ∀ fuel, pairs.length < fuel →
    (iterate fuel).run s = .ok (pairs, s)

theorem Reached.iterates (h : Reached calls s t) : Iterates calls s (visited t) where
  present := h.present
  count := by rw [h.count, visited_length]
  visits few _ enough := h.rep.iterate_run few enough

theorem Present.adds_length {v : α} {n : Nat} {pairs : List (Nat × α)}
    (h : Present ((List.range n).map fun k => .add k v) pairs) : pairs.length = n := by
  have all : (pairs.map Prod.fst).Perm (List.range n) := by
    rw [List.perm_ext_iff_of_nodup h.once List.nodup_range]
    intro k
    have current := fun v => h.current k v
    simp only [adds_lastAdd] at current
    simp only [List.mem_map, Prod.exists, exists_and_right, exists_eq_right, current,
      List.mem_range]
    by_cases below : k < n <;> simp [below]
  simpa using all.length_eq

end Histories
end Infos.Util.MapHeap
