import Infos.Mm.VmaCopy

/-!
# Many address spaces

The areas of all processes in one memory with one page allocator, whose operations and stores come
in any order. What keeps the processes apart is that an operation writes to pages of its own area
alone.
-/
namespace Infos.Mm.Vma
open Infos.Lib Function

/-! ### One area -/

/-- Every page in the map is one of the data frames `D`. -/
def ShowsOnly (D : Nat → Prop) (m : List Nat → Option (BitVec 64)) : Prop :=
  ∀ p base, m p = some base → ∃ f, D f ∧ base = pgdToPa f

/-- An area whose tables and data are apart, and that shows data pages alone. -/
def Sound (s : State) : Prop := ∃ m D, Space s m (TableFrame s) D ∧ ShowsOnly D m

section Sound
variable {s s' : State} {m : List Nat → Option (BitVec 64)} {T D P : Nat → Prop}

theorem Space.sound (h : Space s m T D) (data : ShowsOnly D m) : Sound s := ⟨m, D, h.tight, data⟩

theorem ShowsOnly.update {p : List Nat} {f : Nat} (data : ShowsOnly D m) (here : D f) :
    ShowsOnly D (update m p (some (pgdToPa f))) := by
  intro q base shown
  rw [update_apply] at shown
  split at shown
  next =>
    cases shown
    exact ⟨f, here, rfl⟩
  next => exact data q base shown

theorem Space.writes_held (h : Space s' m T D) (writes : Writes T s s') : Writes (Held s') s s' :=
  writes.mono h.heldTables

theorem create_sound {template : Option (Nat → BitVec 64)} (fresh : FreshFrames s.frames)
    (empty : s.pageAllocations = []) (run : (create template).run s = .ok ((), s'))
    (apart : Apart s'.pageAllocations) : Sound s' ∧ Writes (Held s') s s' := by
  obtain ⟨T, space, writes⟩ := create_space fresh empty run apart
  exact ⟨space.sound nofun, space.writes_held writes⟩

theorem Sound.allocatePhys (h : Sound s) {order : Nat} {r : Option Nat}
    (run : (Vma.allocatePhys order).run s = .ok (r, s')) (apart : Apart s'.pageAllocations) :
    Sound s' ∧ Writes (Held s') s s' := by
  obtain ⟨m, D, space, data⟩ := h
  cases r with
  | none =>
      rw [allocatePhys_empty (allocatePhys_none run)] at run
      cases run
      exact ⟨⟨m, D, space, data⟩, .refl _ s⟩
  | some f =>
      have new := allocatePhys_some run apart
      refine ⟨(space.allocate new apart).sound fun p base shown => ?_, ?_⟩
      · obtain ⟨g, hg, same⟩ := data p base shown
        exact ⟨g, .inl hg, same⟩
      · exact new.writes.mono fun g own => (new.held_iff g).mpr (.inr own)

theorem Space.mapPages_data (h : Space s m T D) (data : ShowsOnly D m) {n F : Nat} {va : BitVec 64}
    (user : va.toNat / 4096 + n ≤ 2 ^ 35) (block : ∀ i < n, D (F + i))
    (run : (Vma.mapPages n va (pgdToPa F)).run s = .ok ((), s')) (apart : Apart s'.pageAllocations) :
    ∃ m' T', Space s' m' T' D ∧ ShowsOnly D m' ∧ (∀ f, T f → T' f) ∧ Writes T' s s' := by
  induction n generalizing s m T F va with
  | zero =>
      cases run
      exact ⟨m, T, h, data, fun _ table => table, .refl T _⟩
  | succ n ih =>
      unfold Vma.mapPages at run
      obtain ⟨_, s₁, run₁, run⟩ := of_bind_ok run
      have apart₁ := apart.of_prefix (mapPages_extends _ _ _ _ _ _ run).blocks
      obtain ⟨T₁, sub₁, space₁, writes₁⟩ :=
        h.insertMapping (userAddress_of_lt (by omega)) (by decide) run₁ apart₁
      rw [baseAddress_pgdToPa] at space₁
      rw [pgdToPa_succ] at run
      have next := next_page (by omega : va.toNat / 4096 + 1 < 2 ^ 52)
      have rest : ∀ i < n, D (F + 1 + i) := by
        intro i inside
        rw [Nat.add_assoc, Nat.add_comm 1 i]
        exact block (i + 1) (Nat.succ_lt_succ inside)
      obtain ⟨m', T', space', data', sub', writes'⟩ :=
        ih space₁ (data.update (block 0 (Nat.succ_pos n))) (by omega) rest run
      exact ⟨m', T', space', data', fun f table => sub' f (sub₁ f table),
        (writes₁.mono sub').trans writes'⟩

theorem Sound.allocateVirt (h : Sound s) {va : BitVec 64} {nrPages : Int} {r : Bool}
    (user : va.toNat / 4096 + 2 ^ log2ceil (toUInt64 nrPages) ≤ 2 ^ 35)
    (run : (Vma.allocateVirt va nrPages).run s = .ok (r, s')) (apart : Apart s'.pageAllocations) :
    Sound s' ∧ Writes (Held s') s s' := by
  unfold Vma.allocateVirt at run
  by_cases zero : nrPages = 0
  · rw [if_pos zero] at run
    cases run
    exact ⟨h, .refl _ s⟩
  · rw [if_neg zero] at run
    dsimp only at run
    generalize log2ceil (toUInt64 nrPages) = order at run user
    obtain ⟨answer, s₁, run₁, run⟩ := of_bind_ok run
    cases answer with
    | none =>
        cases run
        exact h.allocatePhys run₁ apart
    | some F =>
        obtain ⟨_, s₂, run₂, run⟩ := of_bind_ok run
        cases run
        obtain ⟨m, D, space, data⟩ := h
        have ext := mapPages_extends _ _ _ _ _ _ run₂
        have apart₁ := apart.of_prefix ext.blocks
        have new := allocatePhys_some run₁ apart₁
        rw [Nat.one_shiftLeft] at run₂
        have wider : ShowsOnly (fun f => D f ∨ (⟨F, order⟩ : PageAllocation).Has f) m := by
          intro p base shown
          obtain ⟨g, hg, same⟩ := data p base shown
          exact ⟨g, .inl hg, same⟩
        obtain ⟨m', T', space', data', _, writes⟩ :=
          (space.allocate new apart₁).mapPages_data wider user
            (fun i inside => .inr ⟨Nat.le_add_right F i, Nat.add_lt_add_left inside F⟩) run₂ apart
        refine ⟨space'.sound data', Writes.trans (new.writes.mono fun f own => ?_)
          (space'.writes_held writes)⟩
        exact ext.held ((new.held_iff f).mpr (.inr own))

/-- Writes to pages of the area that are no tables. -/
theorem Sound.store (h : Sound s) (new : Updates P s s')
    (own : ∀ f, P f → Held s f ∧ ¬ TableFrame s f) : Sound s' ∧ Writes (Held s') s s' := by
  obtain ⟨m, D, space, data⟩ := h
  refine ⟨(space.updated new fun f table written => (own f written).2 table).sound data, ?_⟩
  exact new.writes.mono fun f written => new.held (own f written).1

theorem Sound.copyTo_updates (h : Sound s) {va : BitVec 64} {src : List Byte} {r : Bool}
    (low : va.toNat + src.length ≤ 2 ^ 47) (user : va.toNat < 2 ^ 47)
    (consecutive : Consecutive s va src.length) (apart : Apart s.pageAllocations)
    (run : (Vma.copyTo va src).run s = .ok (r, s')) :
    s'.pgtPhysBase = s.pgtPhysBase ∧
      ∃ P, Updates P s s' ∧ ∀ f, P f → Held s f ∧ ¬ TableFrame s f := by
  obtain ⟨m, D, space, data⟩ := id h
  have answer := space.getMapping user
  cases found : m (path va) with
  | none =>
      rw [found] at answer
      rw [copyTo_unmapped src answer] at run
      cases run
      exact ⟨rfl, fun _ => False, .refl _ s, nofun⟩
  | some base =>
      rw [found] at answer
      have first : Shows s va (base ||| (va &&& 0xfff#64)) := answer
      generalize base ||| (va &&& 0xfff#64) = pa at first
      obtain ⟨f, _, small, place⟩ := space.frame_of_shows data apart user first
      rw [copyTo_run src first (by rw [place, pmemVaSize]; omega)] at run
      cases run
      refine ⟨rfl, D, ⟨?_, rfl, rfl, rfl⟩, fun f own =>
        ⟨space.heldData f own, fun table => space.apart f table own⟩⟩
      intro a out
      apply writeBytes_word src
      intro j inside
      rintro rfl
      obtain ⟨q, shows, next⟩ := consecutive pa first j inside
      have value : (addressOf va j).toNat = va.toNat + j := toNat_addressOf (by omega)
      obtain ⟨g, hg, _, same⟩ := space.frame_of_shows data apart (by omega) shows
      apply out g hg
      rw [InPage, tableAt, pmemVaStart]
      omega

theorem Sound.copyTo (h : Sound s) {va : BitVec 64} {src : List Byte} {r : Bool}
    (low : va.toNat + src.length ≤ 2 ^ 47) (user : va.toNat < 2 ^ 47)
    (consecutive : Consecutive s va src.length) (apart : Apart s.pageAllocations)
    (run : (Vma.copyTo va src).run s = .ok (r, s')) : Sound s' ∧ Writes (Held s') s s' := by
  obtain ⟨_, P, new, own⟩ := h.copyTo_updates low user consecutive apart run
  exact h.store new own

theorem Sound.others (h : Sound s) (writes : Writes P s s') (out : ∀ f, P f → ¬ Held s f)
    (root : s'.pgtVirtBase = s.pgtVirtBase) (blocks : s'.pageAllocations = s.pageAllocations)
    (frames : s'.frames <:+ s.frames) (apart : Apart s.pageAllocations) :
    Sound s' ∧ ∀ va : BitVec 64, va.toNat < 2 ^ 47 → ∀ pa,
      (Shows s' va pa ↔ Shows s va pa) ∧
        (Shows s va pa → physByte s' pa.toNat = physByte s pa.toNat) := by
  obtain ⟨m, D, space, data⟩ := h
  have away : ∀ f, TableFrame s f → ¬ P f := fun f table written =>
    out f written (space.heldTables f table)
  have allocs : allocated s' = allocated s := congrArg (List.map _) blocks
  have sub : (s'.frames ++ allocated s').Sublist (s.frames ++ allocated s) := by
    rw [allocs]
    exact frames.sublist.append (List.Sublist.refl _)
  have held : ∀ f, Held s f → Held s' f := by
    intro f there
    rw [Held, blocks]
    exact there
  have space' : Space s' m (TableFrame s) D :=
    { tables := space.tables.frame root (fun q j u hq hu => space.same writes away hq hu)
        (by rw [allocs]; exact List.Subset.refl _) (space.tables.supply.sublist sub)
        fun f there => space.tables.small f (sub.subset there)
      reached := fun p i t hp ht => space.reached_of_writes root writes away hp ht
      heldTables := fun f table => held f (space.heldTables f table)
      heldData := fun f own => held f (space.heldData f own)
      apart := space.apart }
  refine ⟨space'.sound data, fun va low pa => ⟨space.same_lookup space' low rfl _, fun shows => ?_⟩⟩
  obtain ⟨f, own, small, place⟩ := space.frame_of_shows data apart low shows
  refine byteAt_congr (writes.page (fun written => out f written (space.heldData f own)) ?_)
  rw [InPage, tableAt, place, pmemVaStart]
  omega

theorem Sound.place (h : Sound s) (apart : Apart s.pageAllocations) {va pa : BitVec 64}
    (low : va.toNat < 2 ^ 47) (shows : Shows s va pa) :
    Held s (pa.toNat / 4096) ∧ ¬ TableFrame s (pa.toNat / 4096) := by
  obtain ⟨m, D, space, data⟩ := h
  obtain ⟨f, own, _, place⟩ := space.frame_of_shows data apart low shows
  have frame : pa.toNat / 4096 = f := by omega
  rw [frame]
  exact ⟨space.heldData f own, fun table => space.apart f table own⟩

end Sound

/-! ### All areas -/

/-- What an area keeps outside the memory that all share. -/
structure Area where
  pageAllocations : List PageAllocation
  pgtPhysBase : BitVec 64
  pgtVirtBase : Nat

def Area.empty : Area := { pageAllocations := [], pgtPhysBase := 0, pgtVirtBase := 0 }

def State.area (s : State) : Area :=
  { pageAllocations := s.pageAllocations
    pgtPhysBase := s.pgtPhysBase
    pgtVirtBase := s.pgtVirtBase }

/-- Memory, the page allocator and the areas by process. -/
structure Memory where
  mem : Nat → BitVec 64
  frames : List Nat
  areas : Nat → Option Area

namespace Memory

/-- What an operation on an area works on. -/
def view (w : Memory) (a : Area) : State :=
  { mem := w.mem
    frames := w.frames
    pageAllocations := a.pageAllocations
    pgtPhysBase := a.pgtPhysBase
    pgtVirtBase := a.pgtVirtBase }

/-- What it leaves behind. -/
def put (w : Memory) (i : Nat) (s : State) : Memory :=
  { mem := s.mem
    frames := s.frames
    areas := update w.areas i (some s.area) }

theorem put_store {w : Memory} {i : Nat} {a : Area} (there : w.areas i = some a)
    (mem : Nat → BitVec 64) : w.put i { w.view a with mem := mem } = { w with mem := mem } := by
  have same : update w.areas i (some a) = w.areas := by rw [← there, update_eq_self]
  exact congrArg (Memory.mk mem w.frames) same

theorem put_areas (w : Memory) (i : Nat) (s : State) (j : Nat) :
    (w.put i s).areas j = if j = i then some s.area else w.areas j :=
  update_apply w.areas i _ j

/-- An operation of a process, or of the kernel for it. A store is one of the program through its
page tables, or of the kernel to a page that it took for the process, such as a stack. The other
stores of the kernel are made for no process, to pages of no area. -/
inductive Step (w : Memory) : Option Nat → Memory → Prop
  | create {i : Nat} {template : Option (Nat → BitVec 64)} {s' : State} : w.areas i = none →
      (create template).run (w.view .empty) = .ok ((), s') → Step w (some i) (w.put i s')
  | allocatePhys {i : Nat} {a : Area} {order : Nat} {r : Option Nat} {s' : State} :
      w.areas i = some a → (Vma.allocatePhys order).run (w.view a) = .ok (r, s') →
      Step w (some i) (w.put i s')
  | allocateVirt {i : Nat} {a : Area} {va : BitVec 64} {nrPages : Int} {r : Bool} {s' : State} :
      w.areas i = some a → va.toNat / 4096 + 2 ^ log2ceil (toUInt64 nrPages) ≤ 2 ^ 35 →
      (Vma.allocateVirt va nrPages).run (w.view a) = .ok (r, s') → Step w (some i) (w.put i s')
  | copyTo {i : Nat} {a : Area} {va : BitVec 64} {src : List Byte} {r : Bool} {s' : State} :
      w.areas i = some a → va.toNat < 2 ^ 47 → va.toNat + src.length ≤ 2 ^ 47 →
      Consecutive (w.view a) va src.length → (Vma.copyTo va src).run (w.view a) = .ok (r, s') →
      Step w (some i) (w.put i s')
  | store {i : Nat} {a : Area} {P : Nat → Prop} {mem : Nat → BitVec 64} : w.areas i = some a →
      (∀ x, (∀ f, P f → ¬ InPage f x) → mem x = w.mem x) →
      (∀ f, P f → Held (w.view a) f ∧ ¬ TableFrame (w.view a) f) →
      Step w (some i) { w with mem := mem }
  | other {P : Nat → Prop} {mem : Nat → BitVec 64} :
      (∀ x, (∀ f, P f → ¬ InPage f x) → mem x = w.mem x) →
      (∀ j a, w.areas j = some a → ∀ f, P f → ¬ Held (w.view a) f) →
      Step w none { w with mem := mem }

/-- The page allocator hands out no page twice, whoever asks. -/
structure Promise (w : Memory) : Prop where
  apart : ∀ i a, w.areas i = some a → Apart a.pageAllocations
  others : ∀ i j a b, i ≠ j → w.areas i = some a → w.areas j = some b →
    ∀ f, Held (w.view a) f → ¬ Held (w.view b) f

/-- Steps with the processes that make them, the last one first. -/
inductive Runs (w : Memory) : List (Option Nat) → Memory → Prop
  | refl : Runs w [] w
  | step {whose : List (Option Nat)} {w₁ w' : Memory} {who : Option Nat} : Runs w whose w₁ →
      Step w₁ who w' → Promise w' → Runs w (who :: whose) w'

/-- No process yet. -/
structure Started (w : Memory) : Prop where
  fresh : FreshFrames w.frames
  areas : ∀ i, w.areas i = none

structure AllSound (w : Memory) : Prop where
  fresh : FreshFrames w.frames
  sound : ∀ i a, w.areas i = some a → Sound (w.view a)
  promise : Promise w

/-- What process `j` reads is the same in `w` and `w'`. -/
def ReadsSame (j : Nat) (w w' : Memory) : Prop :=
  ∀ b, w.areas j = some b → w'.areas j = some b ∧
    ∀ va : BitVec 64, va.toNat < 2 ^ 47 → ∀ pa,
      (Shows (w'.view b) va pa ↔ Shows (w.view b) va pa) ∧
        (Shows (w.view b) va pa → physByte (w'.view b) pa.toNat = physByte (w.view b) pa.toNat)

section Steps
variable {w w' : Memory} {i j : Nat}

theorem ReadsSame.refl (j : Nat) (w : Memory) : ReadsSame j w w :=
  fun _ there => ⟨there, fun _ _ _ => ⟨Iff.rfl, fun _ => rfl⟩⟩

theorem ReadsSame.trans {w₁ : Memory} (h : ReadsSame j w w₁) (h' : ReadsSame j w₁ w') :
    ReadsSame j w w' := by
  intro b there
  obtain ⟨there₁, same₁⟩ := h b there
  obtain ⟨there', same'⟩ := h' b there₁
  refine ⟨there', fun va low pa => ?_⟩
  obtain ⟨shows₁, bytes₁⟩ := same₁ va low pa
  obtain ⟨shows', bytes'⟩ := same' va low pa
  exact ⟨shows'.trans shows₁, fun shows => (bytes' (shows₁.mpr shows)).trans (bytes₁ shows)⟩

theorem AllSound.put (h : AllSound w) {s s' : State} (mem : s.mem = w.mem)
    (frames : s.frames = w.frames) (new : Sound s' ∧ Writes (Held s') s s') (ext : Extends s s')
    (promise : Promise (w.put i s')) :
    AllSound (w.put i s') ∧ ∀ j, some j ≠ some i → ReadsSame j w (w.put i s') := by
  have used : s'.frames <:+ w.frames := frames ▸ ext.frames
  have others : ∀ j b, j ≠ i → w.areas j = some b →
      (w.put i s').areas j = some b ∧ Sound ((w.put i s').view b) ∧
        ∀ va : BitVec 64, va.toNat < 2 ^ 47 → ∀ pa,
          (Shows ((w.put i s').view b) va pa ↔ Shows (w.view b) va pa) ∧
            (Shows (w.view b) va pa →
              physByte ((w.put i s').view b) pa.toNat = physByte (w.view b) pa.toNat) := by
    intro j b apart there
    have there' : (w.put i s').areas j = some b := (update_of_ne apart ..).trans there
    have writes : Writes (Held s') (w.view b) ((w.put i s').view b) := fun a out =>
      (new.2 a out).trans (congrFun mem a)
    have away : ∀ f, Held s' f → ¬ Held (w.view b) f :=
      promise.others i j _ b (Ne.symm apart) (update_self ..) there'
    exact ⟨there', (h.sound j b there).others writes away rfl rfl used (h.promise.apart j b there)⟩
  refine ⟨⟨⟨h.fresh.1.sublist used.sublist, fun f there => h.fresh.2 f (used.subset there)⟩,
    fun j b there => ?_, promise⟩, fun j apart b there => ?_⟩
  · by_cases same : j = i
    · subst same
      cases (update_self ..).symm.trans there
      exact new.1
    · exact (others j b same ((update_of_ne same ..).symm.trans there)).2.1
  · obtain ⟨there', _, same⟩ := others j b (fun here => apart (congrArg some here)) there
    exact ⟨there', same⟩

theorem AllSound.step (h : AllSound w) {who : Option Nat} (step : Step w who w')
    (promise : Promise w') : AllSound w' ∧ ∀ j, some j ≠ who → ReadsSame j w w' := by
  cases step with
  | @create i _ _ none run =>
      have apart := promise.apart i _ (update_self ..)
      obtain ⟨f, frames, blocks, _⟩ := create_writes run apart
      have ext : Extends (w.view .empty) _ :=
        ⟨blocks ▸ List.prefix_append _ _, frames ▸ List.suffix_cons _ _⟩
      exact h.put rfl rfl (create_sound h.fresh rfl run apart) ext promise
  | @allocatePhys i _ _ _ _ there run =>
      have apart := promise.apart i _ (update_self ..)
      exact h.put rfl rfl ((h.sound i _ there).allocatePhys run apart)
        (allocatePhys_extends _ _ _ _ run) promise
  | @allocateVirt i _ _ _ _ _ there user run =>
      have apart := promise.apart i _ (update_self ..)
      exact h.put rfl rfl ((h.sound i _ there).allocateVirt user run apart)
        (allocateVirt_extends _ _ _ _ _ run) promise
  | @copyTo i _ _ _ _ _ there user low consecutive run =>
      exact h.put rfl rfl
        ((h.sound i _ there).copyTo low user consecutive (h.promise.apart i _ there) run)
        (copyTo_extends _ _ _ _ _ run) promise
  | @store i a P mem there writes own =>
      have new : Updates P (w.view a) { w.view a with mem := mem } := ⟨writes, rfl, rfl, rfl⟩
      rw [← put_store there] at promise ⊢
      exact h.put rfl rfl ((h.sound i a there).store new own) (.of_eq rfl rfl) promise
  | @other P mem writes away =>
      have same := fun j b (there : w.areas j = some b) =>
        have written : Writes P (w.view b) ({ w with mem := mem }.view b) := writes
        (h.sound j b there).others written (away j b there) rfl rfl List.suffix_rfl
          (h.promise.apart j b there)
      exact ⟨⟨h.fresh, fun j b there => (same j b there).1, promise⟩,
        fun j _ b there => ⟨there, (same j b there).2⟩⟩

/-- An area keeps what it was given. -/
theorem Step.keeps {who : Option Nat} (step : Step w who w') (j : Nat) (b : Area)
    (there : w.areas j = some b) :
    ∃ b', w'.areas j = some b' ∧ b.pageAllocations <+: b'.pageAllocations := by
  have put : ∀ {i : Nat} {a : Area} {s' : State}, w.areas i = some a → Extends (w.view a) s' →
      ∃ b', (w.put i s').areas j = some b' ∧ b.pageAllocations <+: b'.pageAllocations := by
    intro i a s' here ext
    rw [put_areas]
    split_ifs with same
    · subst same
      cases here.symm.trans there
      exact ⟨s'.area, rfl, ext.blocks⟩
    · exact ⟨b, there, List.prefix_rfl⟩
  cases step with
  | @create i _ s' none run =>
      have apart : j ≠ i := fun same => by cases none.symm.trans (same ▸ there)
      exact ⟨b, (update_of_ne apart ..).trans there, List.prefix_rfl⟩
  | allocatePhys here run => exact put here (allocatePhys_extends _ _ _ _ run)
  | allocateVirt here user run => exact put here (allocateVirt_extends _ _ _ _ _ run)
  | copyTo here user low consecutive run => exact put here (copyTo_extends _ _ _ _ _ run)
  | store here writes own => exact ⟨b, there, List.prefix_rfl⟩
  | other writes away => exact ⟨b, there, List.prefix_rfl⟩

theorem Runs.keeps {whose : List (Option Nat)} (runs : Runs w whose w') (j : Nat) (b : Area)
    (there : w.areas j = some b) :
    ∃ b', w'.areas j = some b' ∧ b.pageAllocations <+: b'.pageAllocations := by
  induction runs with
  | refl => exact ⟨b, there, List.prefix_rfl⟩
  | step _ step _ ih =>
      obtain ⟨b₁, there₁, blocks₁⟩ := ih
      obtain ⟨b', there', blocks'⟩ := step.keeps j b₁ there₁
      exact ⟨b', there', blocks₁.trans blocks'⟩

theorem Started.sound (h : Started w) : AllSound w where
  fresh := h.fresh
  sound i a there := by
    rw [h.areas i] at there
    cases there
  promise :=
    { apart := fun i a there => by
        rw [h.areas i] at there
        cases there
      others := fun i j a b _ there => by
        rw [h.areas i] at there
        cases there }

theorem AllSound.run (h : AllSound w) {whose : List (Option Nat)} (runs : Runs w whose w') :
    AllSound w' ∧ ∀ j, some j ∉ whose → ReadsSame j w w' := by
  induction runs with
  | refl => exact ⟨h, fun j _ => .refl j w⟩
  | step _ step promise ih =>
      obtain ⟨sound, same⟩ := ih
      obtain ⟨sound', same'⟩ := sound.step step promise
      refine ⟨sound', fun j away => ?_⟩
      obtain ⟨apart, earlier⟩ := List.ne_and_not_mem_of_not_mem_cons away
      exact (same j earlier).trans (same' j apart)

end Steps

/-- Whatever the processes do and in whichever order, no two show a common page, none shows a page
of anyone's tables, and what a process reads changes by its own steps alone. -/
theorem spaces_isolated {w₀ w : Memory} {whose : List (Option Nat)} (started : Started w₀)
    (runs : Runs w₀ whose w) :
    (∀ i j a b, w.areas i = some a → w.areas j = some b → ∀ va va' pa pa' : BitVec 64,
      va.toNat < 2 ^ 47 → Shows (w.view a) va pa →
        ¬ TableFrame (w.view b) (pa.toNat / 4096) ∧
          (i ≠ j → va'.toNat < 2 ^ 47 → Shows (w.view b) va' pa' →
            pa.toNat / 4096 ≠ pa'.toNat / 4096)) ∧
      ∀ later w', Runs w later w' → ∀ j, some j ∉ later → ReadsSame j w w' := by
  have sound := (started.sound.run runs).1
  refine ⟨fun i j a b atI atJ va va' pa pa' low shows => ?_, fun _ w' more j away =>
    (sound.run more).2 j away⟩
  obtain ⟨held, noTable⟩ := (sound.sound i a atI).place (sound.promise.apart i a atI) low shows
  by_cases same : i = j
  · subst same
    cases atI.symm.trans atJ
    exact ⟨noTable, fun apart => absurd rfl apart⟩
  · have foreign := sound.promise.others i j a b same atI atJ _ held
    refine ⟨fun table => ?_, fun _ low' shows' shared => ?_⟩
    · obtain ⟨m, D, space, _⟩ := sound.sound j b atJ
      exact foreign (space.heldTables _ table)
    · rw [shared] at foreign
      exact foreign ((sound.sound j b atJ).place (sound.promise.apart j b atJ) low' shows').1

end Memory
end Infos.Mm.Vma
