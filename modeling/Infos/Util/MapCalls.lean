import Infos.Util.MapRebalance

/-!
# Searching, adding and clearing

The calls of the map in memory, each against the tree that the nodes form.
-/
namespace Infos.Util.MapHeap
open Infos.Lib Function

section Size
variable {κ α : Type} {s : MapState κ α} {x : Shape κ α} {up : List (Ancestor κ (Ptr × α))}

theorem Rep.size_le (h : Rep s x up) : (addrs x).length ≤ s.next := by
  have within : addrs x ⊆ List.range s.next := fun p mem =>
    List.mem_range.mpr (h.allocated p (List.mem_append_left _ mem))
  have few := ((List.nodup_append.mp h.distinct).1.subperm within).length_le
  rwa [List.length_range] at few

theorem null_of_addr (h : addr x = none) : x = .null := by
  cases x with
  | null => rfl
  | node => cases h

end Size

section Search
variable {κ α : Type} [LinearOrder κ] {s : MapState κ α} {x : Shape κ α}
  {up : List (Ancestor κ (Ptr × α))} {key : κ} {fuel : Nat}

theorem find_run (key : κ) {parent : Option Ptr} (held : Holds s.nodes parent x)
    (enough : (addrs x).length < fuel) :
    ∃ o, (find key fuel (addr x)).run s = .ok (o, s) ∧
      o.map Node.value = (x.tryGetValue key).map Prod.snd := by
  obtain ⟨fuel, rfl⟩ := Nat.exists_eq_succ_of_ne_zero (Nat.ne_zero_of_lt enough)
  induction x generalizing parent fuel with
  | null => exact ⟨none, rfl, rfl⟩
  | node c l k v r ihl ihr =>
      rw [addrs_node, List.length_append, List.length_cons] at enough
      obtain ⟨fuel, rfl⟩ : ∃ n, fuel = n + 1 := ⟨fuel - 1, by omega⟩
      rw [addr, find, bind_ok (getNode_run held.1), MapNode.tryGetValue]
      by_cases less : key < k
      · rw [if_pos less, if_pos less]
        exact ihl held.2.1 fuel (by omega)
      · rw [if_neg less, if_neg less]
        by_cases greater : key > k
        · rw [if_pos greater, if_pos greater]
          exact ihr held.2.2 fuel (by omega)
        · rw [if_neg greater, if_neg greater]
          exact ⟨_, rfl, rfl⟩

theorem tryGetValue_run (h : Rep s x []) (key : κ) :
    (tryGetValue key).run s = .ok ((x.tryGetValue key).map Prod.snd, s) := by
  obtain ⟨o, run, value⟩ := find_run key h.here (Nat.lt_succ_of_le h.size_le)
  have root : s.root = addr x := h.root
  rw [tryGetValue, bind_ok (run_get_eq s), root, bind_ok run, value]
  rfl

theorem containsKey_run (h : Rep s x []) (key : κ) :
    (containsKey key).run s = .ok ((x.tryGetValue key).isSome, s) := by
  obtain ⟨o, run, value⟩ := find_run key h.here (Nat.lt_succ_of_le h.size_le)
  have root : s.root = addr x := h.root
  have present : o.isSome = (x.tryGetValue key).isSome := by
    rw [← Option.isSome_map (f := Node.value), value, Option.isSome_map]
  rw [containsKey, bind_ok (run_get_eq s), root, bind_ok run, present]
  rfl

/-- Where the descent of `add` ends. -/
def SearchEnd (key : κ) : Shape κ α → Prop
  | .null => False
  | .node _ l k _ r => key = k ∨ (key < k ∧ l = .null) ∨ (k < key ∧ r = .null)

theorem findOwner_run {p : Ptr} (h : Rep s x up) (at_x : addr x = some p)
    (enough : (addrs x).length ≤ fuel) :
    ∃ q y up', (findOwner key fuel p).run s = .ok (q, s) ∧ addr y = some q ∧ Rep s y up' ∧
      SearchEnd key y ∧ ∀ value, addAt key value y up' = addAt key value x up := by
  induction x generalizing p up fuel with
  | null => cases at_x
  | node c l k v r ihl ihr =>
      cases at_x
      rw [addrs_node, List.length_append, List.length_cons] at enough
      obtain ⟨fuel, rfl⟩ : ∃ n, fuel = n + 1 := ⟨fuel - 1, by omega⟩
      have here : SearchEnd key (.node c l k v r) →
          ∃ q y up', (pure v.1 : Exec (MapState κ α) Ptr).run s = .ok (q, s) ∧
            addr y = some q ∧ Rep s y up' ∧ SearchEnd key y ∧
            ∀ value, addAt key value y up' = addAt key value (.node c l k v r) up :=
        fun atEnd => ⟨v.1, _, up, rfl, rfl, h, atEnd, fun _ => rfl⟩
      rw [findOwner, bind_ok (getNode_run h.here.1)]
      by_cases less : key < k
      · rw [if_pos less]
        cases at_l : addr l with
        | none => exact here (.inr (.inl ⟨less, null_of_addr at_l⟩))
        | some q =>
            have left : Rep s l (⟨.left, c, k, v, r⟩ :: up) := rep_plug.mpr h
            have fits : (addrs l).length ≤ fuel := by omega
            obtain ⟨q', y, up', run, at_y, rep, atEnd, same⟩ := ihl left at_l fits
            refine ⟨q', y, up', run, at_y, rep, atEnd, fun value => ?_⟩
            rw [same, addAt, if_pos less]
      · rw [if_neg less]
        by_cases greater : key > k
        · rw [if_pos greater]
          cases at_r : addr r with
          | none => exact here (.inr (.inr ⟨greater, null_of_addr at_r⟩))
          | some q =>
              have right : Rep s r (⟨.right, c, k, v, l⟩ :: up) := rep_plug.mpr h
              have fits : (addrs r).length ≤ fuel := by omega
              obtain ⟨q', y, up', run, at_y, rep, atEnd, same⟩ := ihr right at_r fits
              refine ⟨q', y, up', run, at_y, rep, atEnd, fun value => ?_⟩
              rw [same, addAt, if_neg less, if_pos greater]
        · rw [if_neg greater]
          exact here (.inl (le_antisymm (not_lt.mp greater) (not_lt.mp less)))

end Search

section Add
variable {κ α : Type} {s : MapState κ α} {t : Shape κ α} {up : List (Ancestor κ (Ptr × α))}
  {a : Ancestor κ (Ptr × α)} {key : κ} {value : α}

/-- The memory with one more node. -/
def withNode (s : MapState κ α) (n : Node κ α) : MapState κ α :=
  { s with nodes := update s.nodes s.next (some n), next := s.next + 1 }

theorem newNode_run (s : MapState κ α) (key : κ) (value : α) :
    (newNode key value).run s =
      .ok (s.next, withNode s ⟨key, value, .red, none, none, none⟩) := rfl

theorem attach_run (h : Rep s .null (a :: up)) (key : κ) (value : α) :
    ∃ s', (setChild a.side a.value.1 (some s.next)).run
        (withNode s ⟨key, value, .red, none, none, none⟩) = .ok ((), s') ∧
      Rep s' (.node .red .null key (s.next, value) .null) (a :: up) ∧ s'.count = s.count := by
  have fresh : ∀ p ∈ addrsUp (a :: up), p ≠ s.next := fun p mem =>
    (h.allocated p mem).ne
  have above : HoldsUp (withNode s ⟨key, value, .red, none, none, none⟩).nodes none (a :: up) :=
    h.above.frame fun q mem => update_of_ne (fresh q mem) _ _
  have distinct := h.distinct
  simp only [addrs_null, List.nil_append, addrsUp, List.cons_append, List.nodup_cons,
    List.mem_append] at distinct
  have held : Holds (withNode s ⟨key, value, .red, none, none, none⟩).nodes none
      (.node .red .null key (s.next, value) .null) := ⟨update_self _ _ _, trivial, trivial⟩
  have other : a.value.1 ≠ s.next := fresh _ List.mem_cons_self
  obtain ⟨s', run, node, held', same, root, kept⟩ := setChild_adopt above.1 held
    (by simp [other]) (by simp) a.side
  have keeps : ∀ q ∈ addrsUp (a :: up), q ≠ a.value.1 → s'.nodes q = (withNode s _).nodes q :=
    fun q mem ne => same q ne fun e => fresh q mem (Option.some.inj e).symm
  refine ⟨s', run, ⟨?_, held', ⟨?_, ?_, ?_⟩, ?_, ?_⟩, kept.count⟩
  · rw [root]
    exact h.root
  · rw [node, record_withChild]
  · refine above.2.1.frame fun q mem => keeps q ?_ ?_
    · exact List.mem_cons_of_mem _ (List.mem_append_left _ mem)
    · exact fun e => distinct.1 (.inl (e ▸ mem))
  · refine above.2.2.frame fun q mem => keeps q ?_ ?_
    · exact List.mem_cons_of_mem _ (List.mem_append_right _ mem)
    · exact fun e => distinct.1 (.inr (e ▸ mem))
  · rw [addrs_node]
    exact List.nodup_cons.mpr ⟨fun mem => fresh _ mem rfl, h.distinct⟩
  · rw [kept.next, addrs_node]
    intro p mem
    rcases List.mem_cons.mp mem with rfl | mem
    · exact Nat.lt_succ_self _
    · exact (h.allocated p mem).trans (Nat.lt_succ_self _)

theorem toList_ne_nil {x : MapNode κ α} (h : x.toList ≠ []) : x ≠ .null := by
  rintro rfl
  exact h rfl

theorem Rep.withCount (h : Rep s t up) (n : Nat) : Rep { s with count := n } t up :=
  ⟨h.root, h.here, h.above, h.distinct, h.allocated⟩

variable [LinearOrder κ]

theorem SearchEnd.missing {c : Colour} {l r : Shape κ α} {k : κ} {v : Ptr × α}
    (up : List (Ancestor κ (Ptr × α))) (atEnd : SearchEnd key (.node c l k v r)) (ne : key ≠ k) :
    ∃ a : Ancestor κ (Ptr × α), a.value.1 = v.1 ∧ a.side = (if key < k then .left else .right) ∧
      a.plug .null = .node c l k v r ∧
      ∀ value, addAt key value (.node c l k v r) up = addAt key value .null (a :: up) := by
  rcases atEnd with same | ⟨less, rfl⟩ | ⟨greater, rfl⟩
  · exact absurd same ne
  · refine ⟨⟨.left, c, k, v, r⟩, rfl, (if_pos less).symm, rfl, fun value => ?_⟩
    rw [addAt.eq_3, if_pos less]
  · refine ⟨⟨.right, c, k, v, l⟩, rfl, (if_neg greater.not_gt).symm, rfl, fun value => ?_⟩
    rw [addAt.eq_3, if_neg greater.not_gt, if_pos greater]

theorem addBelow_run (h : Rep s .null (a :: up)) (ownerKey key : κ) (value : α) {new : Bool}
    (side : a.side = if key < ownerKey then .left else .right)
    (run : addAt key (s.next, value) .null (a :: up) = .ok (t, new)) (node : t ≠ .null) :
    ∃ s', (addBelow a.value.1 ownerKey key value).run s = .ok ((), s') ∧ Rep s' t [] ∧
      s'.count = (s.count + 1) % 2 ^ 32 ∧ new = true := by
  obtain ⟨s₁, run₁, rep₁, count⟩ := attach_run h key value
  rw [addAt] at run
  cases balanced : Util.rebalanceInsert (.node .red .null key (s.next, value) .null) (a :: up) with
  | error e =>
      rw [balanced] at run
      cases run
  | ok t' =>
      rw [balanced] at run
      cases run
      obtain ⟨s₂, run₂, rep₂, kept⟩ := rebalanceInsert_run rep₁ rfl balanced node
      refine ⟨{ s₂ with count := (s₂.count + 1) % 2 ^ 32 }, ?_, rep₂.withCount _, ?_, rfl⟩
      · rw [addBelow, bind_ok (newNode_run s key value)]
        split_ifs at side ⊢ with less
        · rw [side] at run₁
          exact (bind_ok run₁).trans (bind_ok run₂)
        · rw [side] at run₁
          exact (bind_ok run₁).trans (bind_ok run₂)
      · dsimp only
        rw [kept.count, count]

theorem add_first_run (h : Rep s .null []) (key : κ) (value : α) :
    ∃ s', (add key value).run s = .ok ((), s') ∧
      Rep s' (.node .black .null key (s.next, value) .null) [] ∧
      s'.count = (s.count + 1) % 2 ^ 32 := by
  let s₁ := { withNode s ⟨key, value, .red, none, none, none⟩ with root := some s.next }
  have rep₁ : Rep s₁ (.node .red .null key (s.next, value) .null) [] := by
    refine ⟨rfl, ⟨update_self _ _ _, trivial, trivial⟩, trivial, ?_, ?_⟩
    · simp [addrsUp]
    · simp [addrsUp, s₁, withNode]
  obtain ⟨s₂, run₂, rep₂, kept⟩ := rep₁.setColour rfl .black
  refine ⟨{ s₂ with count := (s₂.count + 1) % 2 ^ 32 }, ?_, rep₂.withCount _, ?_⟩
  · have root : s.root = none := h.root
    rw [add, bind_ok (run_get_eq s), root]
    apply (bind_ok (newNode_run s key value)).trans
    exact (bind_ok (run_modify_eq _ _)).trans (bind_ok run₂)
  · dsimp only
    rw [kept.count]
    rfl

/-- `add` does to the memory what `addAt` does to the tree; `p` is the node of the key. -/
theorem add_run (h : Rep s t []) (sorted : Sorted t.toList) (black : t.red = false) (key : κ)
    (value : α) :
    ∃ s' t' p new, (add key value).run s = .ok ((), s') ∧
      addAt key (p, value) t [] = .ok (t', new) ∧ Rep s' t' [] ∧
      s'.count = if new then (s.count + 1) % 2 ^ 32 else s.count := by
  cases at_t : addr t with
  | none =>
      cases null_of_addr at_t
      obtain ⟨s', run, rep, count⟩ := add_first_run h key value
      exact ⟨s', _, s.next, true, run, rfl, rep, count⟩
  | some p =>
      obtain ⟨q, y, up, run, at_y, rep, atEnd, same⟩ := findOwner_run h at_t
        (h.size_le.trans (Nat.le_succ _))
      have root : s.root = some p := h.root.trans at_t
      cases y with
      | null => cases at_y
      | node c l k v r =>
          cases at_y
          have start : (add key value).run s =
              (if key = k then modifyNode v.1 fun n => { n with value }
              else addBelow v.1 k key value : Exec (MapState κ α) Unit).run s := by
            rw [add, bind_ok (run_get_eq s), root]
            refine (bind_ok (run_get_eq s)).trans ((bind_ok run).trans ?_)
            rw [bind_ok (getNode_run rep.here.1)]
          by_cases found : key = k
          · obtain ⟨s', run', rep', kept⟩ := rep.modify (w := value)
              (f := fun n => { n with value }) rfl
            refine ⟨s', _, v.1, false, ?_, ?_, rep_plugAll.mp rep', kept.count⟩
            · rw [start, if_pos found, run']
            · subst found
              rw [← same, addAt, if_neg (lt_irrefl key), if_neg (lt_irrefl key)]
          · obtain ⟨t', new, mid, total, -, list, l', r', -, -, rfl, -⟩ :=
              addAt_spec key (s.next, value) [] sorted trivial fun _ => black
            have node : t' ≠ .null := toList_ne_nil (by rw [list]; simp)
            obtain ⟨a, at_a, side, plugged, descent⟩ := atEnd.missing up found
            have ran := total
            rw [← same, descent] at ran
            obtain ⟨s', run', rep', count, rfl⟩ :=
              addBelow_run (rep_plug.mpr (plugged ▸ rep)) k key value side ran node
            refine ⟨s', t', s.next, true, ?_, total, rep', count⟩
            rw [start, if_neg found, ← at_a, run']

end Add
end Infos.Util.MapHeap
