import Infos.Fs.InternalDriver
import Infos.Lib.Paths
import Mathlib.Data.List.TakeWhile

/-!
# Which node a header enters

The name field of a header against the bytes that `build_tree` reads for it: the loop
stops at the first component that is empty, and only there.
-/
namespace Infos.Fs
open Infos.Lib Infos.Util Function

/-- The bytes of the name field, up to a NUL where there is one. -/
def fieldName (head : Block) : List UInt8 := (head.1.take 100).takeWhile (· ≠ 0)

/-- The non-empty components of the name. -/
def ownPath (head : Block) : List Name := components 47 (fieldName head)

/-- Nodes were only added, and only along a path and with its names; those that were there are as
they were. -/
structure Grown (s s' : TarState) (root : NodeId) (p : List Name) : Prop where
  kept : ∀ js m, s.locate root js = some m → s'.locate root js = some m ∧
    (s'.nodes m).name = (s.nodes m).name ∧ (s'.nodes m).size = (s.nodes m).size ∧
    (s'.nodes m).header = (s.nodes m).header
  created : ∀ js m, s'.locate root js = some m → s.locate root js = some m ∨
    ∃ q c, q ++ [c] <+: p ∧ js = keys (q ++ [c]) ∧ (s'.nodes m).name = c

/-- What is there along a path has its names. -/
def Named (s : TarState) (root : NodeId) (p : List Name) : Prop :=
  ∀ q c m, q ++ [c] <+: p → s.locate root (keys (q ++ [c])) = some m → (s.nodes m).name = c

/-- `build_tree` only adds nodes along the path that the name field says, finds the node that is
named so, and describes that node only. -/
def Confined (s : TarState) (root : NodeId) (head : Block) : Prop :=
  ∃ n s₁, (walk 513 root none head.1).run s = .ok (some n, s₁) ∧
    Grown s s₁ root (ownPath head) ∧ Named s₁ root (ownPath head) ∧
    s₁.locate root (keys (ownPath head)) = some n ∧
    ∀ size offset, headerSize head = .ok size → ∃ fileBlocks,
      (enterHeader root head offset).run s =
        .ok (fileBlocks, s₁.modifyNode n fun node => node.describe size
          (if typeflag head ≠ 53 then some (toUInt32 offset) else none))

/-! ### The walk -/

section Walk
variable {s s' s'' : TarState} {root cur n : NodeId} {v : View} {p cs : List Name}
  {path : List UInt8}

theorem Grown.refl (s : TarState) (root : NodeId) (p : List Name) : Grown s s root p :=
  ⟨fun _ _ h => ⟨h, rfl, rfl, rfl⟩, fun _ _ h => .inl h⟩

theorem Grown.trans (first : Grown s s' root p) (next : Grown s' s'' root cs)
    (le : p <+: cs) : Grown s s'' root cs := by
  constructor
  · intro js m there
    obtain ⟨there', name, size, header⟩ := first.kept js m there
    obtain ⟨there'', name', size', header'⟩ := next.kept js m there'
    exact ⟨there'', name'.trans name, size'.trans size, header'.trans header⟩
  · intro js m there
    rcases next.created js m there with before | along
    · rcases first.created js m before with old | ⟨q, c, along, spelled, name⟩
      · exact .inl old
      · exact .inr ⟨q, c, along.trans le, spelled, (next.kept js m before).2.1.trans name⟩
    · exact .inr along

theorem spells_of_walk {fuel : Nat} {last r : Option NodeId}
    (run : (walk fuel cur last path).run s = .ok (r, s')) :
    ∃ cs, Spells path cs ∧ (cs = [] → r = last) := by
  induction fuel generalizing s cur last path with
  | zero => cases run
  | succ fuel ih =>
      rw [walk] at run
      cases parsed : nextComponent path with
      | error e =>
          rw [parsed] at run
          cases run
      | ok found =>
          obtain ⟨c, rest⟩ := found
          rw [parsed, bind_ok (lift_ok _ s)] at run
          by_cases empty : c = []
          · subst empty
            cases run
            exact ⟨[], .stop parsed, fun _ => rfl⟩
          · change ((if c = [] then pure last else _ : Exec TarState (Option NodeId)).run s) = _
              at run
            rw [if_neg empty] at run
            obtain ⟨m, s₁, -, rest'⟩ := of_bind_ok run
            obtain ⟨cs, spells, -⟩ := ih rest'
            exact ⟨c :: cs, .next parsed empty spells, fun e => absurd e (List.cons_ne_nil c cs)⟩

theorem eq_of_prefix {q r : List Name} {c d : Name} (first : q ++ [c] <+: p) (second : r ++ [d] <+: p)
    (same : keys q = keys r) : q = r ∧ c = d := by
  have lengths : q.length = r.length := by
    have := congrArg List.length same
    rwa [keys, keys, List.length_map, List.length_map] at this
  have whole := List.IsPrefix.eq_of_length
    (List.prefix_of_prefix_length_le first second (by simp [lengths])) (by simp [lengths])
  obtain ⟨front, last⟩ := List.append_inj' whole rfl
  exact ⟨front, List.singleton_inj.mp last⟩

theorem Grown.named (grown : Grown s s' root p) (named : Named s root p) : Named s' root p := by
  intro q c m along there
  rcases grown.created _ m there with before | ⟨r, d, along', spelled, name⟩
  · exact (grown.kept _ m before).2.1.trans (named q c m along before)
  · rw [keys_append, keys_append] at spelled
    obtain ⟨-, rfl⟩ := eq_of_prefix along along' (List.append_inj' spelled rfl).1
    exact name

/-- Where nothing is there yet, the components `cs` that are read have the names of `p`. -/
def Agrees (s : TarState) (root : NodeId) (cs p : List Name) : Prop :=
  ∀ q c, q ++ [c] <+: p → s.locate root (keys (q ++ [c])) = none →
    ∃ r, r ++ [c] <+: cs ∧ keys r = keys q

end Walk

/-! ### The bytes of a name -/

/-- The name is these components, one slash between two of them; the path stops there, and what
is left of the field up to a NUL is slashes. -/
structure Fills (head : Block) (cs : List Name) (rest : List UInt8) : Prop where
  nonempty : cs ≠ []
  proper : ∀ c ∈ cs, (c ≠ [] ∧ 47 ∉ c) ∧ 0 ∉ c
  field : head.1 = [47].intercalate cs ++ rest
  inside : ([47].intercalate cs).length ≤ 100
  stops : ∃ more, rest = 0 :: more ∨ rest = 47 :: 0 :: more ∨ rest = 47 :: 47 :: more
  slashes : ∀ b ∈ (rest.take (100 - ([47].intercalate cs).length)).takeWhile (· ≠ 0), b = 47

def WellNamed (head : Block) : Prop := ∃ cs rest, Fills head cs rest

section Bytes
variable {head : Block} {path rest : List UInt8} {c : Name} {cs : List Name}

theorem nextComponent_inv (parsed : nextComponent path = .ok (c, rest)) :
    (0 ∉ c ∧ 47 ∉ c ∧ c.length < 256) ∧
      (path = c ++ 47 :: rest ∨ ∃ more, rest = 0 :: more ∧ path = c ++ rest) := by
  unfold nextComponent at parsed
  extract_lets component at parsed
  split_ifs at parsed with long
  split at parsed
  next => cases parsed
  next t tail dropped =>
    obtain ⟨eq, after⟩ := Prod.mk.inj (Except.ok.inj parsed)
    obtain ⟨behind, whole⟩ := List.takeWhile_prefix (l := path) fun b => decide (b ≠ 0 ∧ b ≠ 47)
    have all : ∀ b ∈ component, b ≠ 0 ∧ b ≠ 47 := by
      intro b mem
      have holds := List.mem_takeWhile_imp (p := fun b => decide (b ≠ 0 ∧ b ≠ 47)) mem
      exact of_decide_eq_true holds
    have split : path = component ++ t :: tail := by
      rw [← dropped, ← whole, List.drop_left]
    have stop : t = 0 ∨ t = 47 := by
      by_contra more
      have longer : component = component ++ (t :: tail).takeWhile fun b => b ≠ 0 ∧ b ≠ 47 := by
        conv_lhs => rw [show component = path.takeWhile fun b => b ≠ 0 ∧ b ≠ 47 from rfl, split]
        exact List.takeWhile_append_of_pos fun b mem => decide_eq_true (all b mem)
      have goes_on : decide (t ≠ 0 ∧ t ≠ 47) = true := decide_eq_true (not_or.mp more)
      rw [List.takeWhile_cons_of_pos (p := fun b => decide (b ≠ 0 ∧ b ≠ 47)) goes_on] at longer
      have := congrArg List.length longer
      simp at this
    rw [← eq]
    refine ⟨⟨fun mem => (all 0 mem).1 rfl, fun mem => (all 47 mem).2 rfl, by omega⟩, ?_⟩
    rcases stop with rfl | rfl
    · right
      rw [if_neg (by decide)] at after
      exact ⟨tail, after.symm, by rw [← after, split]⟩
    · left
      rw [if_pos rfl] at after
      rw [split, after]

theorem Spells.bytes (spells : Spells path cs) (nonempty : cs ≠ []) :
    (∀ c ∈ cs, (c ≠ [] ∧ 47 ∉ c) ∧ 0 ∉ c) ∧ ∃ rest, path = [47].intercalate cs ++ rest ∧
      ∃ more, rest = 0 :: more ∨ rest = 47 :: 0 :: more ∨ rest = 47 :: 47 :: more := by
  induction spells with
  | stop => exact absurd rfl nonempty
  | @next path rest c cs parsed some spells ih =>
      obtain ⟨⟨zero, slash, -⟩, ends⟩ := nextComponent_inv parsed
      cases spells with
      | @stop _ rest' parsed' =>
          refine ⟨?_, ?_⟩
          · intro d mem
            rw [List.mem_singleton.mp mem]
            exact ⟨⟨some, slash⟩, zero⟩
          · rw [List.intercalate_singleton]
            rcases ends with split | ⟨more, first, split⟩
            · refine ⟨47 :: rest, split, ?_⟩
              rcases (nextComponent_inv parsed').2 with again | ⟨more, first, again⟩
              · exact ⟨rest', .inr (.inr (by rw [again]; rfl))⟩
              · exact ⟨more, .inr (.inl (by rw [again, first]; rfl))⟩
            · exact ⟨rest, split, more, .inl first⟩
      | @next _ rest' d ds parsed' some' spells' =>
          obtain ⟨proper, tail, split', stops⟩ := ih (List.cons_ne_nil d ds)
          refine ⟨?_, tail, ?_, stops⟩
          · intro e mem
            rcases List.mem_cons.mp mem with rfl | mem
            · exact ⟨⟨some, slash⟩, zero⟩
            · exact proper e mem
          · rcases ends with split | ⟨more, first, split⟩
            · rw [split, split', List.intercalate_cons_cons]
              simp
            · rw [first] at parsed'
              have empty := nextComponent_append (c := []) (t := 0) more List.not_mem_nil
                List.not_mem_nil (by decide) (.inl rfl)
              rw [List.nil_append, parsed'] at empty
              exact absurd (Prod.mk.inj (Except.ok.inj empty)).1 some'

theorem zero_notMem_intercalate (zero : ∀ c ∈ cs, 0 ∉ c) : (0 : UInt8) ∉ [47].intercalate cs := by
  induction cs with
  | nil => exact List.not_mem_nil
  | cons c cs ih =>
      have rest := ih fun d mem => zero d (List.mem_cons_of_mem c mem)
      have first := zero c List.mem_cons_self
      cases cs with
      | nil => rwa [List.intercalate_singleton]
      | cons d cs =>
          rw [List.intercalate_cons_cons]
          simp only [List.mem_append, List.mem_singleton, not_or]
          exact ⟨⟨first, by decide⟩, rest⟩

theorem takeWhile_nonzero {l : List UInt8} (zero : 0 ∉ l) (m : List UInt8) :
    (l ++ m).takeWhile (· ≠ 0) = l ++ m.takeWhile (· ≠ 0) :=
  List.takeWhile_append_of_pos fun _ mem => decide_eq_true fun e => zero (e ▸ mem)

theorem Fills.own (fills : Fills head cs rest) : Spells head.1 cs ∧ ownPath head = cs := by
  obtain ⟨more, stops⟩ := fills.stops
  have zero := zero_notMem_intercalate fun c mem => (fills.proper c mem).2
  constructor
  · rw [fills.field]
    have := fills.inside
    exact spells_intercalate fills.nonempty fills.proper (by omega) stops
  · unfold ownPath fieldName
    rw [fills.field, List.take_append, List.take_of_length_le fills.inside, takeWhile_nonzero zero]
    exact components_intercalate (fun c mem => (fills.proper c mem).1) fills.nonempty fills.slashes

end Bytes

/-- Different components with the same hashes are spelled, but a node of the own name is there
wherever they differ. -/
def HashTwins (s : TarState) (root : NodeId) (head : Block) : Prop :=
  ∃ cs, Spells head.1 cs ∧ cs ≠ [] ∧ cs ≠ ownPath head ∧ keys cs = keys (ownPath head) ∧
    Agrees s root cs (ownPath head)

/-- `P` holds of each round of the loop of `build_tree` that reads a block: of the state before,
the number of the block and what is in `head` so far. -/
def EachRound (spare : Nat) (dev : BlockDevice) (root : NodeId)
    (P : TarState → Nat → Option Block → Prop) :
    Nat → Int → Bool → Option Block → TarState → Prop
  | 0, _, _, _, _ => True
  | fuel + 1, offset, zeroSeen, head, s =>
      toUInt64 offset < dev.blockCount → P s (toUInt64 offset) head ∧ ∀ b s₁,
        (readHead spare dev (toUInt64 offset) head).run s = .ok (some b, s₁) →
        if isZeroBlock b then
          zeroSeen = false →
            EachRound spare dev root P fuel (toInt32 (offset + 1)) true (some b) s₁
        else
          ∀ fileBlocks s₂, (enterHeader root b offset).run s₁ = .ok (fileBlocks, s₂) →
            EachRound spare dev root P fuel (toInt32 (offset + (1 + fileBlocks))) false (some b) s₂

/-- The rounds of `build_tree`. -/
def Rounds (spare : Nat) (dev : BlockDevice) (P : TarState → Nat → Option Block → Prop) : Prop :=
  EachRound spare dev 0 P (dev.blockCount + 1) 0 false none (TarState.initial.withNew [])

/-- A round stores its block into `head` only and keeps to the node that the block names. -/
def Harmless (spare : Nat) (dev : BlockDevice) (s : TarState) (offset : Nat)
    (head : Option Block) : Prop :=
  (readHead spare dev offset head).run s ≠ .error .outOfBounds ∧
    ∀ b s₁, (readHead spare dev offset head).run s = .ok (some b, s₁) → isZeroBlock b = false →
      Confined s₁ 0 b

/-- There is room behind `head` for a block that is read, its name fills its field, and nothing
that is there on the way of the name has another one. -/
def Proper (spare : Nat) (dev : BlockDevice) (s : TarState) (offset : Nat)
    (head : Option Block) : Prop :=
  ((dev.readBlock offset).isSome → 12 ≤ spare) ∧
    ∀ b, (dev.readBlock offset).or head = some b → isZeroBlock b = false →
      Named s 0 (ownPath b) ∧ (WellNamed b ∨ HashTwins s 0 b)

section Headers
variable {dev : BlockDevice} {s s' : TarState} {root : NodeId} {v : View} {b : Block}

end Headers

theorem Encodes.fills {head : Block} {e : Entry} (h : Encodes head e) :
    ∃ rest, Fills head e.path rest := by
  obtain ⟨rest, field⟩ := h.name
  have proper : ∀ c ∈ e.path, (c ≠ [] ∧ 47 ∉ c) ∧ 0 ∉ c := by
    intro c mem
    obtain ⟨some, zero, slash⟩ := e.components c mem
    exact ⟨⟨some, slash⟩, zero⟩
  have short := e.short
  cases kind : e.kind with
  | file =>
      rw [kind] at field short
      simp only [nameField, reduceCtorEq, if_false, List.append_nil] at field short
      refine ⟨0 :: rest, e.nonempty, proper, field, by omega, ⟨rest, .inl rfl⟩, ?_⟩
      intro b mem
      rw [List.take_cons (by omega), List.takeWhile_cons_of_neg (by decide)] at mem
      cases mem
  | directory =>
      rw [kind] at field short
      simp only [nameField, if_true, List.append_assoc, List.singleton_append,
        List.length_append, List.length_singleton] at field short
      refine ⟨47 :: 0 :: rest, e.nonempty, proper, field, by omega,
        ⟨rest, .inr (.inl rfl)⟩, ?_⟩
      intro b mem
      have room : 100 - ([47].intercalate e.path).length =
          100 - ([47].intercalate e.path).length - 2 + 2 := by omega
      rw [room, List.take_succ_cons, List.take_succ_cons,
        List.takeWhile_cons_of_pos (by decide), List.takeWhile_cons_of_neg (by decide)] at mem
      exact List.mem_singleton.mp mem

theorem Encodes.wellNamed {head : Block} {e : Entry} (h : Encodes head e) : WellNamed head :=
  h.fills.elim fun rest fills => ⟨e.path, rest, fills⟩

theorem Encodes.ownPath {head : Block} {e : Entry} (h : Encodes head e) :
    Fs.ownPath head = e.path :=
  h.fills.elim fun _ fills => fills.own.2

/-- Where the names of a tree are told apart by their hashes, it has no other name on the way of
one of them. -/
theorem Refines.named_of_apart {s : TarState} {root : NodeId} {v : View} {ps : List (List Name)}
    {p : List Name} (h : Refines s root v) (apart : Apart ps)
    (known : ∀ q, v.here q → q = [] ∨ ∃ r ∈ ps, q <+: r) (mem : p ∈ ps) : Named s root p := by
  intro q c m along there
  obtain ⟨r, here, spelled, name⟩ := h.named _ m there
  rcases known r here with rfl | ⟨r', mem', below⟩
  · exact absurd spelled.symm (by simp [keys])
  · obtain rfl := apart.eq_of_keys mem' mem below along spelled
    rw [name, List.getLastD_concat]

section Layout
variable {spare o fuel : Nat} {dev : BlockDevice} {zeroSeen : Bool} {head : Option Block}
  {s : TarState} {v : View} {ps : List (List Name)} {xs : List Placed}

theorem eachRound_past (past : dev.blockCount ≤ o ∨ 2 ^ 31 ≤ o) (bound : o < 2 ^ 32)
    {P : TarState → Nat → Option Block → Prop} :
    EachRound spare dev 0 P fuel (toInt32 o) zeroSeen head s := by
  cases fuel with
  | zero => trivial
  | succ fuel =>
      intro inside
      by_cases late : 2 ^ 31 ≤ o
      · exact absurd inside (offset_late dev late bound)
      · rw [offset_early (by omega)] at inside
        omega

theorem eachRound_zero (room : 12 ≤ spare) (bound : o < 2 ^ 31) (zeroAt : ZeroAt dev o)
    (later : zeroSeen = false → ∀ fuel b, EachRound spare dev 0 (Proper spare dev) fuel
      (toInt32 (o + 1 : Nat)) true (some b) (s.asked o)) :
    EachRound spare dev 0 (Proper spare dev) fuel (toInt32 o) zeroSeen head s := by
  obtain ⟨inside, b, read, zeros⟩ := zeroAt
  have zero : isZeroBlock b = true := isZeroBlock_iff.mpr zeros
  have next : (toInt32 o + 1 : Int) = (o + 1 : Nat) := by
    rw [toInt32_natCast bound, Nat.cast_succ]
  cases fuel with
  | zero => trivial
  | succ fuel =>
      rw [EachRound, offset_early bound, next]
      refine fun _ => ⟨⟨fun _ => room, fun b' found header => ?_⟩, fun b' s₁ stored => ?_⟩
      · rw [read] at found
        cases found
        rw [zero] at header
        cases header
      · rw [readHead_run room read] at stored
        cases stored
        rw [if_pos zero]
        exact fun first => later first fuel b

theorem eachRound_entry (room : 12 ≤ spare) {x : Placed} {b : Block} (bound : x.header < 2 ^ 31)
    (read : dev.readBlock x.header = some b) (encodes : Encodes b x.entry) (h : Refines s 0 v)
    (named : Named s 0 x.entry.path)
    (later : ∀ fuel s', Refines s' 0 (v.add x) → EachRound spare dev 0 (Proper spare dev) fuel
      (toInt32 (x.header + 1 + blocksFor x.entry.data.length : Nat)) false (some b) s') :
    EachRound spare dev 0 (Proper spare dev) fuel (toInt32 x.header) zeroSeen head s := by
  obtain ⟨s', enter, refines⟩ := enterHeader_entry bound encodes (h.asked (o := x.header))
  have next : (toInt32 x.header + (1 + (blocksFor x.entry.data.length : Nat)) : Int) =
      (x.header + 1 + blocksFor x.entry.data.length : Nat) := by
    rw [toInt32_natCast bound, Nat.cast_add, Nat.cast_succ, Int.add_assoc]
  have header : ¬ isZeroBlock b = true := by
    rw [encodes.not_zero]
    decide
  cases fuel with
  | zero => trivial
  | succ fuel =>
      rw [EachRound, offset_early bound]
      refine fun _ => ⟨⟨fun _ => room, fun b' found _ => ?_⟩, fun b' s₁ stored => ?_⟩
      · rw [read] at found
        cases found
        exact ⟨encodes.ownPath.symm ▸ named, .inl encodes.wellNamed⟩
      · rw [readHead_run room read] at stored
        cases stored
        rw [if_neg header]
        intro fileBlocks s₂ run
        rw [enter] at run
        cases run
        rw [next]
        exact later fuel s' refines

theorem eachRound_layout (room : 12 ≤ spare) (apart : Apart ps) (layout : Layout dev o xs)
    (inside : ∀ x ∈ xs, x.entry.path ∈ ps) (bound : o < 2 ^ 32) (h : Refines s 0 v)
    (known : ∀ q, v.here q → q = [] ∨ ∃ r ∈ ps, q <+: r) :
    EachRound spare dev 0 (Proper spare dev) fuel (toInt32 o) zeroSeen head s := by
  induction layout generalizing s v fuel zeroSeen head with
  | @deviceEnd o gap =>
      by_cases past : 2 ^ 31 ≤ o
      · exact eachRound_past (.inr past) bound
      generalize last : dev.blockCount = e at gap
      cases gap with
      | none => exact eachRound_past (.inl last.le) bound
      | zero zeroAt =>
          refine eachRound_zero room (by omega) zeroAt fun _ _ _ => ?_
          exact eachRound_past (.inl last.le) (by omega)
  | @zeroBlocks o first second =>
      by_cases past : 2 ^ 31 ≤ o
      · exact eachRound_past (.inr past) bound
      refine eachRound_zero room (by omega) first fun _ _ _ => ?_
      by_cases late : 2 ^ 31 ≤ o + 1
      · exact eachRound_past (.inr late) (by omega)
      · exact eachRound_zero room (by omega) second nofun
  | @entry o x b xs gap read encodes stores fits rest ih =>
      have small := x.entry.small
      have blocks : blocksFor x.entry.data.length ≤ 2 ^ 21 := by
        rw [blocksFor]
        omega
      have mem := inside x List.mem_cons_self
      have entered (s : TarState) (h : Refines s 0 v) (fuel : Nat) (zeroSeen : Bool)
          (head : Option Block) (late : x.header < 2 ^ 32) :
          EachRound spare dev 0 (Proper spare dev) fuel (toInt32 x.header) zeroSeen head s := by
        by_cases past : 2 ^ 31 ≤ x.header
        · exact eachRound_past (.inr past) late
        refine eachRound_entry room (by omega) read encodes h (h.named_of_apart apart known mem) ?_
        intro fuel s' refines
        refine ih (fun y later => inside y (List.mem_cons_of_mem x later)) (by omega) refines ?_
        rintro q (old | along)
        · exact known q old
        · exact .inr ⟨_, mem, along⟩
      generalize place : x.header = e at gap
      cases gap with
      | none =>
          rw [← place] at bound ⊢
          exact entered s h fuel zeroSeen head bound
      | zero zeroAt =>
          by_cases past : 2 ^ 31 ≤ o
          · exact eachRound_past (.inr past) bound
          refine eachRound_zero room (by omega) zeroAt fun _ fuel b => ?_
          rw [← place]
          exact entered _ h.asked fuel true (some b) (by omega)

end Layout

/-- With room behind `head`, no header of an archive does harm. -/
theorem Archive.proper {spare : Nat} (room : 12 ≤ spare) {dev : BlockDevice} (A : Archive dev) :
    Rounds spare dev (Proper spare dev) := by
  change EachRound spare dev 0 (Proper spare dev) (dev.blockCount + 1) (toInt32 (0 : Nat)) false
    none (TarState.initial.withNew [])
  exact eachRound_layout room A.apart A.layout (fun x mem => mem_paths mem) (by decide)
    TarState.initial_refines fun q root => .inl root

theorem Spells.unique {path : List UInt8} {cs ds : List Name} (first : Spells path cs)
    (second : Spells path ds) : cs = ds := by
  induction first generalizing ds with
  | stop parsed =>
      cases second with
      | stop _ => rfl
      | next parsed' some _ =>
          rw [parsed] at parsed'
          exact absurd (Prod.mk.inj (Except.ok.inj parsed')).1.symm some
  | next parsed some _ ih =>
      cases second with
      | stop parsed' =>
          rw [parsed] at parsed'
          exact absurd (Prod.mk.inj (Except.ok.inj parsed')).1 some
      | next parsed' _ rest =>
          rw [parsed] at parsed'
          obtain ⟨rfl, rfl⟩ := Prod.mk.inj (Except.ok.inj parsed')
          rw [ih rest]

end Infos.Fs
