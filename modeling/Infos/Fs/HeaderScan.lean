import Infos.Fs.HeaderNames

/-!
# Which headers can be entered

Where `build_tree` runs into a fault on a device whose reads may fail, told from the blocks of the
device alone.
-/
namespace Infos.Fs
open Infos.Lib Infos.Util

/-- The size and the path can be read inside the block, the path has a component, and `component`
has room for each. -/
def Legible (head : Block) : Prop :=
  (∃ size, headerSize head = .ok size) ∧ ∃ cs, Spells head.1 cs ∧ cs ≠ []

/-- `file_blocks` for a file of this size. -/
def fileBlocks (size : Nat) : Int :=
  toInt32 (if size % 512 ≠ 0 then size / 512 + 1 else size / 512 : Nat)

section Header
variable {s : TarState} {root cur : NodeId} {v : View} {p : List Name} {path : List UInt8}
  {head : Block} {e : Fault}

theorem nextComponent_fault (failed : nextComponent path = .error e) : e = .outOfBounds := by
  unfold nextComponent at failed
  extract_lets component at failed
  split_ifs at failed
  · cases failed
    rfl
  · split at failed
    · cases failed
      rfl
    · cases failed

theorem headerSize_fault (failed : headerSize head = .error e) : e = .outOfBounds := by
  unfold headerSize cString at failed
  split_ifs at failed
  · cases failed
  · exact (Except.error.inj failed).symm

theorem walk_fault {fuel : Nat} {last : Option NodeId} (h : Refines s root v)
    (there : s.locate root (keys p) = some cur) (enough : path.length < fuel)
    (run : (walk fuel cur last path).run s = .error e) : e = .outOfBounds := by
  induction fuel generalizing s v p cur last path with
  | zero => exact absurd enough (Nat.not_lt_zero _)
  | succ fuel ih =>
      rw [walk] at run
      cases parsed : nextComponent path with
      | error e' =>
          rw [parsed] at run
          cases run
          exact nextComponent_fault parsed
      | ok found =>
          obtain ⟨c, rest⟩ := found
          rw [parsed, bind_ok (lift_ok _ s)] at run
          change ((if c = [] then pure last else _ : Exec TarState (Option NodeId)).run s) = _
            at run
          by_cases empty : c = []
          · rw [if_pos empty] at run
            cases run
          · obtain ⟨s₁, m, step, refines, reached⟩ := ensureChild_spec (c := c) h there
            rw [if_neg empty, bind_ok step] at run
            have shorter := nextComponent_shorter parsed empty
            exact ih refines reached (by omega) run

theorem enterHeader_legible (offset : Int) {size : Nat} (h : Refines s root v)
    (legible : Legible head) (sized : headerSize head = .ok size) :
    ∃ s' v', (enterHeader root head offset).run s = .ok (fileBlocks size, s') ∧
      Refines s' root v' := by
  obtain ⟨-, cs, spells, nonempty⟩ := legible
  have short : cs.length ≤ 512 := head.2 ▸ spells.length_le
  obtain ⟨s', run, refines⟩ := enterHeader_spec offset h spells short nonempty sized
  exact ⟨s', _, run, refines⟩

theorem enterHeader_fault (offset : Int) (h : Refines s root v) (illegible : ¬ Legible head) :
    ∃ e, (enterHeader root head offset).run s = .error e ∧ e ≠ .outOfFuel := by
  unfold enterHeader
  cases sized : headerSize head with
  | error e =>
      refine ⟨e, rfl, ?_⟩
      rw [headerSize_fault sized]
      decide
  | ok size =>
      rw [bind_ok (lift_ok _ s)]
      cases walked : (walk 513 root none head.1).run s with
      | error e =>
          refine ⟨e, bind_error walked, ?_⟩
          have enough : head.1.length < 513 := by rw [head.2]; decide
          rw [walk_fault (p := []) h rfl enough walked]
          decide
      | ok r =>
          obtain ⟨last, s₁⟩ := r
          obtain ⟨cs, spells, unset⟩ := spells_of_walk walked
          have empty : cs = [] := by
            by_contra nonempty
            exact illegible ⟨⟨size, sized⟩, cs, spells, nonempty⟩
          rw [bind_ok walked, unset empty]
          exact ⟨_, rfl, by decide⟩

end Header

/-! ### The loop -/

namespace Device

/-- The rounds of `build_tree` from block `offset` on, `n` calls having been made: each block that
is read has room, the first can be read, and each header that it comes to is legible. -/
def Scans (spare : Nat) (dev : Device) : Nat → Nat → Int → Bool → Option Block → Prop
  | 0, _, _, _, _ => True
  | fuel + 1, n, offset, zeroSeen, head =>
      toUInt64 offset < dev.blockCount →
        (dev.succeeds n ⟨toUInt64 offset, 1⟩ = true → 12 ≤ spare) ∧
        ∃ b, (if dev.succeeds n ⟨toUInt64 offset, 1⟩ then some (dev.block (toUInt64 offset))
            else head) = some b ∧
          if isZeroBlock b then
            zeroSeen = false → Scans spare dev fuel (n + 1) (toInt32 (offset + 1)) true (some b)
          else Legible b ∧ ∀ size, headerSize b = .ok size →
            Scans spare dev fuel (n + 1) (toInt32 (offset + (1 + fileBlocks size))) false (some b)

variable {dev : Device} {spare : Nat}

theorem readHead_run {σ : Type} (offset : Nat) (head : Option Block) (s : σ)
    (log : List ReadCall) :
    (dev.readHead spare offset head : DeviceExec σ _).runOn s log =
      (if dev.succeeds log.length ⟨offset, 1⟩ = true ∧ spare < 12 then .error .outOfBounds
        else .ok (if dev.succeeds log.length ⟨offset, 1⟩ then some (dev.block offset) else head, s),
        ⟨offset, 1⟩ :: log) := by
  unfold readHead
  rw [Calls.runOn_bind_ok (readBlocks_run _ _), sizeofPosixHeader_eq]
  cases dev.succeeds log.length ⟨offset, 1⟩ with
  | false => rfl
  | true =>
      rw [if_pos rfl]
      by_cases tight : spare < 12
      · rw [if_pos (by omega), if_pos ⟨rfl, tight⟩]
        rfl
      · rw [if_neg (by omega), if_neg fun both => tight both.2]
        rfl

/-- The loop runs into a fault exactly where the scan does not go through. -/
theorem readHeaders_fine_iff {s : TarState} {root : NodeId} {v : View} (h : Refines s root v)
    (fuel : Nat) (offset : Int) (zeroSeen : Bool) (head : Option Block) (log : List ReadCall) :
    (dev.readHeaders spare root fuel offset zeroSeen head).Fine s log ↔
      dev.Scans spare fuel log.length offset zeroSeen head := by
  induction fuel generalizing s v offset zeroSeen head log with
  | zero => exact iff_of_true (fun e run => (Except.error.inj run).symm) trivial
  | succ fuel ih =>
      unfold readHeaders Scans
      by_cases inside : toUInt64 offset < dev.blockCount
      · rw [if_pos inside, imp_iff_right inside]
        have read := @readHead_run dev spare _ (toUInt64 offset) head s log
        by_cases overruns : dev.succeeds log.length ⟨toUInt64 offset, 1⟩ = true ∧ spare < 12
        · rw [if_pos overruns] at read
          rw [Calls.fine_bind_error read]
          refine iff_of_false (by decide) fun scans => ?_
          exact Nat.not_lt.mpr (scans.1 overruns.1) overruns.2
        · rw [if_neg overruns] at read
          have room : dev.succeeds log.length ⟨toUInt64 offset, 1⟩ = true → 12 ≤ spare :=
            fun served => Nat.le_of_not_lt fun tight => overruns ⟨served, tight⟩
          rw [Calls.fine_bind_ok read, and_iff_right room]
          generalize (if dev.succeeds log.length ⟨toUInt64 offset, 1⟩ then
            some (dev.block (toUInt64 offset)) else head) = found
          cases found with
          | none =>
              refine iff_of_false (fun fine => ?_) (by simp)
              exact absurd (fine .uninitialised rfl) (by decide)
          | some b =>
              simp only [Option.some.injEq, exists_eq_left']
              by_cases zero : isZeroBlock b = true
              · rw [if_pos zero, if_pos zero]
                cases zeroSeen with
                | true => exact iff_of_true (Calls.fine_ok rfl) nofun
                | false => exact (ih h _ _ _ _).trans (imp_iff_right rfl).symm
              · rw [if_neg zero, if_neg zero]
                by_cases legible : Legible b
                · obtain ⟨⟨size, sized⟩, -⟩ := id legible
                  obtain ⟨s', v', run, refines⟩ := enterHeader_legible offset h legible sized
                  rw [Calls.fine_bind_ok (by rw [Calls.runOn_ofExec, run]), ih refines,
                    and_iff_right legible]
                  refine ⟨fun scans size' sized' => ?_, fun scans => scans size sized⟩
                  rw [sized] at sized'
                  cases sized'
                  exact scans
                · obtain ⟨e, run, fault⟩ := enterHeader_fault offset h legible
                  rw [Calls.fine_bind_error (by rw [Calls.runOn_ofExec, run])]
                  exact iff_of_false fault fun scans => legible scans.1
      · rw [if_neg inside]
        exact iff_of_true (Calls.fine_ok rfl) fun inside' => absurd inside' inside

/-- `build_tree` scans the device from its first block on. -/
theorem buildTree_fine_iff (log : List ReadCall) :
    (dev.buildTree spare).Fine .initial log ↔
      dev.Scans spare (dev.blockCount + 1) log.length 0 false none := by
  have root : (Calls.ofExec (newNode []) : DeviceExec TarState NodeId).runOn .initial log =
      (.ok (0, TarState.initial.withNew []), log) := rfl
  unfold buildTree
  rw [Calls.fine_bind_ok root, Calls.fine_bind_pure]
  exact readHeaders_fine_iff TarState.initial_refines _ _ _ _ _

end Device
end Infos.Fs
