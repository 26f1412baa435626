import Infos.Fs.Archive

/-!
# Reading an archive

The loop of `build_tree` on a device that holds an archive. The offset is an
`int`: headers from block 2^31 on are never reached.
-/
namespace Infos.Fs
open Infos.Lib Infos.Util Function

/-- The header block that a file leaves in its node. -/
def Placed.block (x : Placed) : Option Nat :=
  if x.entry.kind = .file then some x.header else none

def View.add (v : View) (x : Placed) : View :=
  v.enter x.entry.path x.entry.data.length x.block

/-- The entries whose header number fits an `int`. -/
def early (xs : List Placed) : List Placed := xs.filter fun x => x.header < 2 ^ 31

/-- A state in which one more block has been asked for. -/
def TarState.asked (s : TarState) (o : Nat) : TarState := { s with requests := o :: s.requests }

section Steps
variable {spare : Nat} {dev : BlockDevice} {root : NodeId} {fuel o : Nat} {zeroSeen : Bool}
  {buffer : Option Block} {s : TarState} {v : View} {b : Block}

theorem Refines.asked (h : Refines s root v) : Refines (s.asked o) root v :=
  ⟨h.tree, h.sound, h.allocated, h.present, h.named, h.sizes, h.blocks, h.absent⟩

theorem readInto_run (read : dev.readBlock o = some b) :
    (readInto dev o buffer).run s = .ok (some b, s.asked o) := by
  unfold readInto
  rw [bind_ok (run_modify_eq _ s), read]
  rfl

/-- A block that is read goes beyond `head` where there is no room behind it. -/
theorem readHead_eq (spare : Nat) (dev : BlockDevice) (o : Nat) (buffer : Option Block)
    (s : TarState) : (readHead spare dev o buffer).run s =
      if (dev.readBlock o).isSome = true ∧ spare < 12 then .error .outOfBounds
      else .ok ((dev.readBlock o).or buffer, s.asked o) := by
  unfold readHead
  rw [bind_ok (run_modify_eq _ s), sizeofPosixHeader_eq]
  cases dev.readBlock o with
  | none => rfl
  | some block =>
      by_cases tight : spare < 12
      · rw [if_pos ⟨rfl, tight⟩]
        dsimp only
        rw [if_pos (by omega)]
        rfl
      · rw [if_neg fun both => tight both.2]
        dsimp only
        rw [if_neg (by omega)]
        rfl

theorem readHead_run (room : 12 ≤ spare) (read : dev.readBlock o = some b) :
    (readHead spare dev o buffer).run s = .ok (some b, s.asked o) := by
  rw [readHead_eq, if_neg fun both => Nat.not_lt.mpr room both.2, read]
  rfl

theorem offset_late (dev : BlockDevice) (late : 2 ^ 31 ≤ o) (bound : o < 2 ^ 32) :
    ¬ toUInt64 (toInt32 o) < dev.blockCount := by
  have size := dev.addressable
  rw [toInt32_wrap late bound, toUInt64]
  omega

theorem offset_early (bound : o < 2 ^ 31) : toUInt64 (toInt32 o) = o := by
  rw [toInt32_natCast bound, toUInt64_natCast (by omega)]

theorem readHeaders_done (done : ¬ toUInt64 (toInt32 o) < dev.blockCount) :
    (readHeaders spare dev root (fuel + 1) (toInt32 o) zeroSeen buffer).run s = .ok ((), s) := by
  rw [readHeaders, if_neg done]
  rfl

theorem readHeaders_zero (room : 12 ≤ spare) (root : NodeId) (fuel : Nat) (zeroSeen : Bool)
    (buffer : Option Block) (s : TarState) (bound : o < 2 ^ 31) (inside : o < dev.blockCount)
    (read : dev.readBlock o = some b) (zero : isZeroBlock b = true) :
    (readHeaders spare dev root (fuel + 1) (toInt32 o) zeroSeen buffer).run s =
      if zeroSeen then .ok ((), s.asked o)
      else (readHeaders spare dev root fuel (toInt32 (o + 1 : Nat)) true (some b)).run (s.asked o) := by
  have next : (toInt32 o + 1 : Int) = (o + 1 : Nat) := by
    rw [toInt32_natCast bound, Nat.cast_succ]
  rw [readHeaders, offset_early bound, if_pos inside, bind_ok (readHead_run room read), ← next]
  change ((if isZeroBlock b then _ else _ : Exec TarState Unit).run (s.asked o)) = _
  rw [if_pos zero]
  cases zeroSeen with
  | true => rfl
  | false => rfl

theorem readHeaders_header (room : 12 ≤ spare) (bound : o < 2 ^ 31) (inside : o < dev.blockCount)
    (read : dev.readBlock o = some b) (header : isZeroBlock b = false) {fileBlocks : Nat}
    {s' : TarState} (enter : (enterHeader root b (toInt32 o)).run (s.asked o) = .ok (fileBlocks, s')) :
    (readHeaders spare dev root (fuel + 1) (toInt32 o) zeroSeen buffer).run s =
      (readHeaders spare dev root fuel (toInt32 (o + 1 + fileBlocks : Nat)) false (some b)).run s' := by
  have next : (toInt32 o + (1 + fileBlocks) : Int) = (o + 1 + fileBlocks : Nat) := by
    rw [toInt32_natCast bound, Nat.cast_add, Nat.cast_succ, Int.add_assoc]
  rw [readHeaders, offset_early bound, if_pos inside, bind_ok (readHead_run room read), ← next]
  change ((if isZeroBlock b then _ else _ : Exec TarState Unit).run (s.asked o)) = _
  rw [header, if_neg (by decide), bind_ok enter]

theorem enterHeader_entry {x : Placed} (bound : x.header < 2 ^ 31) (encodes : Encodes b x.entry)
    (h : Refines s root v) :
    ∃ s', (enterHeader root b (toInt32 x.header)).run s =
        .ok ((blocksFor x.entry.data.length : Nat), s') ∧ Refines s' root (v.add x) := by
  obtain ⟨s', enter, refines⟩ := enterHeader_spec (toInt32 x.header) h encodes.spells
    encodes.path_length x.entry.nonempty encodes.headerSize
  have small := x.entry.small
  have blocks : toInt32 (if x.entry.data.length % 512 ≠ 0 then x.entry.data.length / 512 + 1
      else x.entry.data.length / 512 : Nat) = blocksFor x.entry.data.length := by
    have whole : (if x.entry.data.length % 512 ≠ 0 then x.entry.data.length / 512 + 1
        else x.entry.data.length / 512) = blocksFor x.entry.data.length := by
      rw [blocksFor]
      split_ifs <;> omega
    rw [whole]
    exact toInt32_natCast (by rw [blocksFor]; omega)
  rw [blocks] at enter
  refine ⟨s', enter, ?_⟩
  have block : (if typeflag b ≠ 53 then some (toUInt32 (toInt32 x.header)) else none) = x.block := by
    rw [toInt32_natCast bound, toUInt32_natCast (by omega), Placed.block]
    cases kind : x.entry.kind with
    | file =>
        have notDirectory : ¬ typeflag b = 53 := fun e => by
          cases kind.symm.trans (encodes.kind.mp e)
        rw [if_pos notDirectory, if_pos rfl]
    | directory =>
        have directory : typeflag b = 53 := encodes.kind.mpr kind
        rw [if_neg (not_not.mpr directory), if_neg (by decide)]
  rw [block] at refines
  exact refines

theorem readHeaders_entry (room : 12 ≤ spare) (fuel : Nat) (zeroSeen : Bool)
    (buffer : Option Block) {x : Placed} (bound : x.header < 2 ^ 31)
    (inside : x.header < dev.blockCount) (read : dev.readBlock x.header = some b)
    (encodes : Encodes b x.entry) (h : Refines s root v) :
    ∃ s', Refines s' root (v.add x) ∧
      (readHeaders spare dev root (fuel + 1) (toInt32 x.header) zeroSeen buffer).run s =
        (readHeaders spare dev root fuel
          (toInt32 (x.header + 1 + blocksFor x.entry.data.length : Nat)) false (some b)).run s' := by
  obtain ⟨s', enter, refines⟩ := enterHeader_entry bound encodes (h.asked (o := x.header))
  exact ⟨s', refines, readHeaders_header room bound inside read encodes.not_zero enter⟩

theorem readHeaders_gap (room : 12 ≤ spare) (buffer : Option Block) {o' : Nat}
    (gap : Gap dev o o') (bound : o < 2 ^ 31) (h : Refines s root v) (enough : dev.blockCount - o < fuel) :
    ∃ s' fuel' zeroSeen' buffer', Refines s' root v ∧ dev.blockCount - o' < fuel' ∧
      (readHeaders spare dev root fuel (toInt32 o) false buffer).run s =
        (readHeaders spare dev root fuel' (toInt32 o') zeroSeen' buffer').run s' := by
  cases gap with
  | none => exact ⟨s, fuel, false, buffer, h, enough, rfl⟩
  | zero zeroAt =>
      obtain ⟨inside, b, read, zero⟩ := zeroAt
      cases fuel with
      | zero => exact absurd enough (Nat.not_lt_zero _)
      | succ fuel =>
          refine ⟨s.asked o, fuel, true, some b, h.asked, by omega, ?_⟩
          exact readHeaders_zero room root fuel false buffer s bound inside read
            (isZeroBlock_iff.mpr zero)

theorem early_cons {x : Placed} {xs : List Placed} :
    early (x :: xs) = if x.header < 2 ^ 31 then x :: early xs else early xs := by
  unfold early
  rw [List.filter_cons]
  simp only [decide_eq_true_eq]

theorem early_nil_of_late {xs : List Placed} (layout : Layout dev o xs) (late : 2 ^ 31 ≤ o) :
    early xs = [] := by
  apply List.filter_eq_nil_iff.mpr
  intro x mem
  have := layout.le_header mem
  simp only [decide_eq_true_eq]
  omega

/-- The loop ends at the end of the device and where the offset has turned negative. -/
theorem readHeaders_stop (some : 0 < fuel) (past : dev.blockCount ≤ o ∨ 2 ^ 31 ≤ o)
    (bound : o < 2 ^ 32) :
    (readHeaders spare dev root fuel (toInt32 o) zeroSeen buffer).run s = .ok ((), s) := by
  obtain ⟨fuel, rfl⟩ := Nat.exists_eq_succ_of_ne_zero some.ne'
  apply readHeaders_done
  by_cases late : 2 ^ 31 ≤ o
  · exact offset_late dev late bound
  · rw [offset_early (by omega)]
    omega

theorem readHeaders_spec (room : 12 ≤ spare) (buffer : Option Block) {xs : List Placed}
    (layout : Layout dev o xs) (bound : o < 2 ^ 32) (enough : dev.blockCount - o < fuel) (h : Refines s root v) :
    ∃ s', (readHeaders spare dev root fuel (toInt32 o) false buffer).run s = .ok ((), s') ∧
      Refines s' root ((early xs).foldl View.add v) := by
  induction layout generalizing s v fuel buffer with
  | @deviceEnd o gap =>
      by_cases past : 2 ^ 31 ≤ o
      · exact ⟨s, readHeaders_stop (by omega) (.inr past) bound, h⟩
      · obtain ⟨s', fuel', zeroSeen', buffer', refines, enough', run⟩ :=
          readHeaders_gap room buffer gap (by omega) h enough
        have := gap.le_succ
        exact ⟨s', run.trans (readHeaders_stop (by omega) (.inl le_rfl) (by omega)), refines⟩
  | @zeroBlocks o first second =>
      by_cases past : 2 ^ 31 ≤ o
      · exact ⟨s, readHeaders_stop (by omega) (.inr past) bound, h⟩
      · obtain ⟨inside, b, read, zero⟩ := first
        obtain ⟨inside', b', read', zero'⟩ := second
        obtain ⟨fuel, rfl⟩ : ∃ f, fuel = f + 2 := ⟨fuel - 2, by omega⟩
        have skip := readHeaders_zero room root (fuel + 1) false buffer s (by omega) inside read
          (isZeroBlock_iff.mpr zero)
        rw [if_neg (by decide)] at skip
        by_cases last : 2 ^ 31 ≤ o + 1
        · exact ⟨_, skip.trans (readHeaders_stop (by omega) (.inr last) (by omega)), h.asked⟩
        · have mark := readHeaders_zero room root fuel true (some b) (s.asked o) (by omega) inside'
            read' (isZeroBlock_iff.mpr zero')
          rw [if_pos rfl] at mark
          exact ⟨_, skip.trans mark, h.asked.asked⟩
  | @entry o x head xs gap read encodes stores inside rest ih =>
      have small := x.entry.small
      have blocks : blocksFor x.entry.data.length ≤ 2 ^ 21 := by
        rw [blocksFor]
        omega
      have near := gap.le_succ
      by_cases past : 2 ^ 31 ≤ o
      · have far := gap.le
        rw [early_cons, if_neg (by omega), early_nil_of_late rest (by omega)]
        exact ⟨s, readHeaders_stop (by omega) (.inr past) bound, h⟩
      obtain ⟨s₁, fuel₁, zeroSeen₁, buffer₁, refines₁, enough₁, run₁⟩ :=
        readHeaders_gap room buffer gap (by omega) h enough
      by_cases late : 2 ^ 31 ≤ x.header
      · rw [early_cons, if_neg (by omega), early_nil_of_late rest (by omega)]
        exact ⟨s₁, run₁.trans (readHeaders_stop (by omega) (.inr late) (by omega)), refines₁⟩
      · obtain ⟨fuel₂, rfl⟩ :=
          Nat.exists_eq_succ_of_ne_zero (Nat.ne_of_gt (Nat.zero_lt_of_lt enough₁))
        obtain ⟨s₂, refines₂, run₂⟩ :=
          readHeaders_entry room fuel₂ zeroSeen₁ buffer₁ (by omega) (by omega) read encodes refines₁
        have enough₂ : dev.blockCount -
            (x.header + 1 + blocksFor x.entry.data.length) < fuel₂ := by omega
        obtain ⟨s', run, refines⟩ :=
          ih (some head) (by omega) enough₂ refines₂
        refine ⟨s', (run₁.trans run₂).trans run, ?_⟩
        rw [early_cons, if_pos (by omega)]
        exact refines

end Steps

/-! ### The room behind `head` -/

section Room
variable {spare : Nat} {dev : BlockDevice}

/-- What does not overrun `head` runs as with room behind it. -/
theorem readHead_roomy {o : Nat} {buffer : Option Block} {s : TarState} {r : Option Block × TarState}
    (run : (readHead spare dev o buffer).run s = .ok r) :
    (readHead 12 dev o buffer).run s = .ok r := by
  rw [readHead_eq] at run ⊢
  split_ifs at run
  rw [if_neg fun both => absurd both.2 (Nat.lt_irrefl 12)]
  exact run

theorem readHeaders_roomy {root : NodeId} {fuel : Nat} {offset : Int} {zeroSeen : Bool}
    {head : Option Block} {s : TarState} {r : Unit × TarState}
    (run : (readHeaders spare dev root fuel offset zeroSeen head).run s = .ok r) :
    (readHeaders 12 dev root fuel offset zeroSeen head).run s = .ok r := by
  induction fuel generalizing offset zeroSeen head s with
  | zero => cases run
  | succ fuel ih =>
      rw [readHeaders] at run ⊢
      by_cases inside : toUInt64 offset < dev.blockCount
      · rw [if_pos inside] at run ⊢
        obtain ⟨read, s₁, stored, rest⟩ := of_bind_ok run
        rw [bind_ok (readHead_roomy stored)]
        cases read with
        | none => cases rest
        | some block =>
            dsimp only at rest ⊢
            by_cases zero : isZeroBlock block = true
            · rw [if_pos zero] at rest ⊢
              cases zeroSeen with
              | true => exact rest
              | false => exact ih rest
            · rw [if_neg zero] at rest ⊢
              obtain ⟨fileBlocks, s₂, entered, later⟩ := of_bind_ok rest
              rw [bind_ok entered]
              exact ih later
      · rw [if_neg inside] at run ⊢
        exact run

theorem buildTree_roomy {s s' : TarState} {root : NodeId}
    (run : (buildTree spare dev).run s = .ok (root, s')) :
    (buildTree 12 dev).run s = .ok (root, s') := by
  rw [buildTree, bind_ok newNode_run] at run ⊢
  obtain ⟨_, s₁, loop, last⟩ := of_bind_ok run
  rw [bind_ok (readHeaders_roomy loop)]
  exact last

/-- Without the room the first block that is read goes beyond `head`. -/
theorem buildTree_overruns (tight : spare < 12) (some : 0 < dev.blockCount) {b : Block}
    (read : dev.readBlock 0 = Option.some b) (s : TarState) :
    (buildTree spare dev).run s = .error .outOfBounds := by
  have stored (s : TarState) : (readHead spare dev 0 none).run s = .error .outOfBounds := by
    rw [readHead_eq, read, if_pos ⟨rfl, tight⟩]
  have loop (s : TarState) : (readHeaders spare dev s.next (dev.blockCount + 1) 0 false none).run
      (s.withNew []) = .error .outOfBounds := by
    rw [readHeaders]
    exact (congrArg (fun x : Exec TarState Unit => x.run (s.withNew [])) (if_pos some)).trans
      (bind_error (stored _))
  rw [buildTree, bind_ok newNode_run]
  exact bind_error (loop s)

theorem Layout.first {xs : List Placed} (layout : Layout dev 0 xs) (some : 0 < dev.blockCount) :
    ∃ b, dev.readBlock 0 = Option.some b := by
  have zero {o' : Nat} (gap : Gap dev 0 o') : o' = 0 ∨ ∃ b, dev.readBlock 0 = Option.some b := by
    cases gap with
    | none => exact .inl rfl
    | zero zeroAt =>
        obtain ⟨-, b, read, -⟩ := zeroAt
        exact .inr ⟨b, read⟩
  cases layout with
  | deviceEnd gap => exact (zero gap).resolve_left some.ne'
  | zeroBlocks first _ =>
      obtain ⟨-, b, read, -⟩ := first
      exact ⟨b, read⟩
  | entry gap read _ _ _ _ =>
      rcases zero gap with first | found
      · exact ⟨_, first ▸ read⟩
      · exact found

end Room

/-- What a tree built from these entries holds. -/
def View.of (xs : List Placed) : View := xs.foldl View.add View.blank

theorem TarState.initial_refines :
    Refines (TarState.initial.withNew []) 0 View.blank := by
  have only : ∀ ks n, (TarState.initial.withNew []).locate 0 ks = some n → ks = [] ∧ n = 0 := by
    intro ks n reached
    cases ks with
    | nil => exact ⟨rfl, (Option.some.inj reached).symm⟩
    | cons k ks => cases reached
  refine ⟨?_, ?_, ?_, ?_, ?_, ?_, ?_, ?_⟩
  · intro ks js i j t u _ _ ht hu e
    exact ⟨(only ks t ht).1.trans (only js u hu).1.symm, (Prod.mk.inj e).2⟩
  · intro n
    have new : (TarState.initial.withNew []).nodes n = .new [] := by
      by_cases first : n = 0
      · rw [first]
        exact withNew_node
      · exact withNew_nodes first
    rw [new]
    exact Map.empty_sound
  · intro ks n reached
    rw [(only ks n reached).2]
    exact Nat.one_pos
  · rintro q rfl
    exact ⟨0, rfl⟩
  · intro ks n reached
    obtain ⟨rfl, rfl⟩ := only ks n reached
    exact ⟨[], rfl, rfl, rfl⟩
  · intro ks n reached
    rw [(only ks n reached).2]
    rfl
  · intro ks n reached
    rw [(only ks n reached).2]
    rfl
  · intro ks _
    exact ⟨rfl, rfl⟩

/-- With room behind `head`, `build_tree` returns a tree of the early entries. -/
theorem buildTree_spec {spare : Nat} (room : 12 ≤ spare) {dev : BlockDevice} {xs : List Placed}
    (layout : Layout dev 0 xs) :
    ∃ s, (buildTree spare dev).run .initial = .ok (0, s) ∧ Refines s 0 (View.of (early xs)) := by
  have enough : dev.blockCount - 0 < dev.blockCount + 1 := by omega
  obtain ⟨s, run, refines⟩ := readHeaders_spec room none layout (by decide)
    enough TarState.initial_refines
  refine ⟨s, ?_, refines⟩
  rw [buildTree, bind_ok newNode_run]
  change ((readHeaders spare dev 0 (dev.blockCount + 1) (toInt32 (0 : Nat)) false none >>=
    fun _ => pure 0).run (TarState.initial.withNew [])) = _
  rw [bind_ok run]
  rfl

end Infos.Fs
