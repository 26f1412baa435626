import Infos.Fs.TarfsDecode
import Infos.Fs.TarfsDevice

/-!
# The two models of `build_tree`

On a device that answers by the block, `build_tree` builds the same tree in both
models. What it asked for is in the state of one and in the log of the other.
-/
namespace Infos.Fs
open Infos.Lib Infos.Util Function

/-- `x` neither reads the requests nor changes them. -/
def Blind {α : Type} (x : Exec TarState α) : Prop :=
  ∀ s r, x.run { s with requests := r } = (x.run s).map fun p => (p.1, { p.2 with requests := r })

section Blind
variable {α β : Type} {x : Exec TarState α} {f : α → Exec TarState β}

theorem Blind.ret (a : α) : Blind (pure a) := fun _ _ => rfl

theorem Blind.throw (e : Fault) : Blind (throw e : Exec TarState α) := fun _ _ => rfl

theorem Blind.lift (x : Except Fault α) : Blind (lift x) := by
  intro s r
  cases x <;> rfl

theorem Blind.bind (hx : Blind x) (hf : ∀ a, Blind (f a)) : Blind (x >>= f) := by
  intro s r
  have first := hx s r
  cases ran : x.run s with
  | error e =>
      rw [ran] at first
      rw [bind_error first, bind_error ran]
      rfl
  | ok p =>
      rw [ran] at first
      rw [bind_ok first, bind_ok ran]
      exact hf p.1 p.2 r

theorem Blind.ite {c : Prop} [Decidable c] {y : Exec TarState α} (hx : Blind x) (hy : Blind y) :
    Blind (if c then x else y) := by
  split_ifs
  · exact hx
  · exact hy

theorem newNode_blind (name : List UInt8) : Blind (newNode name) := fun _ _ => rfl

theorem addChild_blind (n : NodeId) (name : List UInt8) (child : NodeId) :
    Blind (addChild n name child) := by
  intro s r
  rw [addChild, bind_ok (run_get_eq _), bind_ok (run_get_eq _)]
  cases added : (s.nodes n).children.add (getHash name) child with
  | error e => rfl
  | ok children => rfl

theorem ensureChild_blind (current : NodeId) (component : List UInt8) :
    Blind (ensureChild current component) := by
  have create : Blind (do
      let next ← newNode component
      addChild current component next
      pure next) :=
    (newNode_blind component).bind fun next => (addChild_blind _ _ next).bind fun _ => .ret next
  intro s r
  rw [ensureChild, bind_ok (run_get_eq _), bind_ok (run_get_eq _)]
  have found : { s with requests := r }.getChild current component =
      s.getChild current component := rfl
  rw [found]
  cases s.getChild current component with
  | some next => rfl
  | none => exact create s r

theorem walk_blind (fuel : Nat) (current : NodeId) (last : Option NodeId) (path : List UInt8) :
    Blind (walk fuel current last path) := by
  induction fuel generalizing current last path with
  | zero => exact .throw _
  | succ fuel ih =>
      unfold walk
      apply (Blind.lift _).bind
      rintro ⟨component, path⟩
      exact (Blind.ret last).ite ((ensureChild_blind _ _).bind fun next => ih next (some next) path)

theorem enterHeader_blind (root : NodeId) (head : Block) (offset : Int) :
    Blind (enterHeader root head offset) := by
  unfold enterHeader
  apply (Blind.lift _).bind
  intro size
  apply (walk_blind _ _ _ _).bind
  intro last
  cases last with
  | none => exact .throw _
  | some node =>
      have sized : Blind (setSize node size) := fun _ _ => rfl
      have placed : Blind (setBlockOffset node (toUInt32 offset)) := fun _ _ => rfl
      apply sized.bind
      intro _
      exact (placed.bind fun _ => .ret _).ite (.ret _)

end Blind

section Same
variable (dev : BlockDevice)

/-- The blocks that were asked for, and the tree without them. -/
def Same {α : Type} (x : DeviceExec TarState α) (y : Exec TarState α) : Prop :=
  ∀ s r log, ∃ calls,
    x.runOn { s with requests := r } log =
      ((y.run s).map fun p => (p.1, { p.2 with requests := r }), calls ++ log) ∧
    ∀ a s', y.run s = .ok (a, s') → s'.requests = calls.map ReadCall.offset ++ s.requests

theorem Same.ret {α : Type} (a : α) : Same (pure a) (pure a) := by
  intro s r log
  refine ⟨[], rfl, ?_⟩
  intro b s' run
  cases run
  rfl

theorem Same.throw {α : Type} (e : Fault) :
    Same (throw e : DeviceExec TarState α) (throw e : Exec TarState α) :=
  fun _ _ _ => ⟨[], rfl, nofun⟩

theorem Same.bind {α β : Type} {x : DeviceExec TarState α} {y : Exec TarState α}
    {f : α → DeviceExec TarState β} {g : α → Exec TarState β} (hx : Same x y)
    (hf : ∀ a, Same (f a) (g a)) : Same (x >>= f) (y >>= g) := by
  intro s r log
  obtain ⟨calls, same, asked⟩ := hx s r log
  cases ran : y.run s with
  | error e =>
      rw [ran] at same
      refine ⟨calls, ?_, ?_⟩
      · rw [Calls.runOn_bind_error same, bind_error ran]
        rfl
      · rw [bind_error ran]
        exact nofun
  | ok p =>
      obtain ⟨a, s₁⟩ := p
      rw [ran] at same
      obtain ⟨calls', same', asked'⟩ := hf a s₁ r (calls ++ log)
      refine ⟨calls' ++ calls, ?_, ?_⟩
      · rw [Calls.runOn_bind_ok same, bind_ok ran, List.append_assoc]
        exact same'
      · intro b s' run
        rw [bind_ok ran] at run
        rw [asked' b s' run, asked a s₁ ran, List.map_append, List.append_assoc]

/-- What asks for nothing and does not look at the requests is the same in both. -/
theorem Blind.same {α : Type} {x : Exec TarState α} (blind : Blind x)
    (kept : ∀ s a s', x.run s = .ok (a, s') → s'.requests = s.requests) :
    Same (Calls.ofExec x) x := by
  intro s r log
  refine ⟨[], ?_, kept s⟩
  rw [Calls.runOn_ofExec, blind s r]
  rfl

theorem Blind.kept {α : Type} {x : Exec TarState α} (blind : Blind x) (s : TarState) (a : α)
    (s' : TarState) (run : x.run s = .ok (a, s')) : s'.requests = s.requests := by
  have again := blind s s.requests
  rw [show ({ s with requests := s.requests } : TarState) = s from rfl, run] at again
  have same := (Prod.mk.inj (Except.ok.inj again)).2
  rw [same]

/-- A block is read exactly where the device has it. -/
theorem device_answer (n offset : Nat) :
    dev.device.succeeds n ⟨offset, 1⟩ = (dev.readBlock offset).isSome := by
  rw [Bool.eq_iff_iff]
  apply decide_eq_true_iff.trans
  simp

theorem readHead_same (spare offset : Nat) (head : Option Block) :
    Same (dev.device.readHead spare offset head) (readHead spare dev offset head) := by
  intro s r log
  refine ⟨[⟨offset, 1⟩], ?_, ?_⟩
  · unfold Device.readHead readHead
    rw [Calls.runOn_bind_ok (Device.readBlocks_run _ _), device_answer, bind_ok (run_modify_eq _ s)]
    cases read : dev.readBlock offset with
    | none => rfl
    | some block =>
        have found : dev.device.block offset = block := by
          change (dev.readBlock offset).getD _ = block
          rw [read, Option.getD_some]
        rw [found]
        dsimp only [Option.isSome_some]
        rw [if_pos rfl]
        split_ifs <;> rfl
  · intro a s' run
    unfold readHead at run
    rw [bind_ok (run_modify_eq _ s)] at run
    cases read : dev.readBlock offset with
    | none =>
        rw [read] at run
        cases run
        rfl
    | some block =>
        rw [read] at run
        dsimp only at run
        split_ifs at run
        · cases run
        · cases run
          rfl

/-- The rounds of the loop enter the same nodes after the same requests. -/
theorem readHeaders_same (spare : Nat) (root : NodeId) (fuel : Nat) (offset : Int) (zeroSeen : Bool)
    (head : Option Block) :
    Same (dev.device.readHeaders spare root fuel offset zeroSeen head)
      (readHeaders spare dev root fuel offset zeroSeen head) := by
  induction fuel generalizing offset zeroSeen head with
  | zero => exact .throw _
  | succ fuel ih =>
      unfold Device.readHeaders readHeaders
      by_cases inside : toUInt64 offset < dev.blockCount
      · rw [if_pos (show toUInt64 offset < dev.device.blockCount from inside), if_pos inside]
        apply (readHead_same dev spare _ head).bind
        intro read
        cases read with
        | none => exact .throw _
        | some block =>
            dsimp only
            split_ifs
            · exact .ret ()
            · exact ih _ _ _
            · have blind := enterHeader_blind root block offset
              exact (blind.same blind.kept).bind fun _ => ih _ _ _
      · rw [if_neg (show ¬ toUInt64 offset < dev.device.blockCount from inside), if_neg inside]
        exact .ret ()

/-- Both models of `build_tree` build the same tree. -/
theorem buildTree_same (spare : Nat) : Same (dev.device.buildTree spare) (buildTree spare dev) := by
  have root := newNode_blind []
  apply (root.same root.kept).bind
  intro n
  exact (readHeaders_same dev spare n _ _ _ _).bind fun _ => .ret n

end Same

/-- The tree of the mounted device is that of its archive. -/
theorem archive_built {spare : Nat} (room : 12 ≤ spare) {dev : BlockDevice} (A : Archive dev) :
    ∃ tar log, (dev.device.buildTree spare).runOn .initial [] = (.ok (0, tar), log) ∧
      Refines tar 0 (View.of (early A.entries)) := by
  obtain ⟨s, run, refines⟩ := buildTree_spec room A.layout
  obtain ⟨calls, same, -⟩ := buildTree_same dev spare .initial [] []
  rw [run] at same
  exact ⟨{ s with requests := [] }, calls ++ [], same, refines.tree, refines.sound,
    refines.allocated, refines.present, refines.named, refines.sizes, refines.blocks,
    refines.absent⟩

end Infos.Fs
