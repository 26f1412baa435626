import Infos.Mm.VmaSpace
import Mathlib.Data.List.Pairwise

/-!
# Blocks of virtual pages

`allocate_virt` puts one contiguous block of frames behind consecutive virtual
pages, over whatever was mapped there. An address space is the list of its
blocks, the newest first.
-/
namespace Infos.Mm.Vma
open Infos.Lib Function

structure Block where
  first : Nat
  pages : Nat
  deriving DecidableEq, Repr

def Block.covers (b : Block) (page : Nat) : Bool := b.first ≤ page && page < b.first + b.pages

/-- A block of virtual pages with the first of the frames behind it. -/
structure Placed extends Block where
  frame : Nat
  deriving DecidableEq, Repr

def Placed.Has (b : Placed) (f : Nat) : Prop := b.frame ≤ f ∧ f < b.frame + b.pages

/-- The frame behind a page. -/
def backing (bs : List Placed) (page : Nat) : Option Nat :=
  (bs.find? fun b => b.covers page).map fun b => b.frame + (page - b.first)

/-- Where the direct map shows what block `b` shows at `va`. -/
def Placed.addr (b : Placed) (va : Nat) : Nat := tableAt b.frame + (va - 4096 * b.first)

theorem Block.covers_iff {b : Block} {page : Nat} :
    b.covers page = true ↔ b.first ≤ page ∧ page < b.first + b.pages := by
  rw [Block.covers, Bool.and_eq_true, decide_eq_true_iff, decide_eq_true_iff]

/-- The number of the first element with `p`, counted from the end of the list; zero if there is
none. It stays the same when the list grows at its front. -/
def serial {α : Type} (p : α → Bool) (l : List α) : Nat := (l.dropWhile fun a => !p a).length

section Serial
variable {α β : Type} {p q : α → Bool} {l l' : List α}

theorem serial_map (f : β → α) (l : List β) : serial p (l.map f) = serial (p ∘ f) l := by
  rw [serial, List.dropWhile_map, List.length_map]
  rfl

theorem head?_dropWhile_eq_find? (p : α → Bool) (l : List α) :
    (l.dropWhile fun a => !p a).head? = l.find? p := by
  induction l with
  | nil => rfl
  | cons a l ih =>
      rw [List.dropWhile_cons, List.find?_cons]
      cases p a with
      | true => rfl
      | false => exact ih

theorem serial_ne_zero_iff : serial p l ≠ 0 ↔ (l.find? p).isSome := by
  rw [serial, ← head?_dropWhile_eq_find?]
  cases l.dropWhile fun a => !p a <;> simp

theorem find?_of_serial_eq (suffix : l <:+ l') (same : serial q l' = serial p l) :
    l'.find? q = l.find? p := by
  rw [← head?_dropWhile_eq_find?, ← head?_dropWhile_eq_find?]
  have left : (l'.dropWhile fun a => !q a) <:+ l' := List.dropWhile_suffix _
  have right : (l.dropWhile fun a => !p a) <:+ l' := (List.dropWhile_suffix _).trans suffix
  rw [(List.suffix_of_suffix_length_le left right same.le).eq_of_length same]

end Serial

/-- Which block a page belongs to, the oldest block being number 1. -/
def owner (bs : List Block) (page : Nat) : Nat := serial (fun b => b.covers page) bs

section Owner
variable {bs bs' : List Placed} {page page' : Nat}

theorem of_find?_covers {b : Placed} (found : (bs.find? fun b => b.covers page) = some b) :
    b ∈ bs ∧ b.first ≤ page ∧ page < b.first + b.pages :=
  ⟨List.mem_of_find?_eq_some found,
    Block.covers_iff.mp (List.find?_some (p := fun b : Placed => b.covers page) found)⟩

theorem owner_ne_zero_iff : owner (bs.map Placed.toBlock) page ≠ 0 ↔ (backing bs page).isSome := by
  rw [owner, serial_map, serial_ne_zero_iff, backing, Option.isSome_map]
  rfl

theorem find?_of_owner_eq (suffix : bs <:+ bs')
    (same : owner (bs'.map Placed.toBlock) page' = owner (bs.map Placed.toBlock) page) :
    (bs'.find? fun b => b.covers page') = bs.find? fun b => b.covers page := by
  rw [owner, owner, serial_map, serial_map] at same
  exact find?_of_serial_eq suffix same

theorem backing_cons {b : Placed} :
    backing (b :: bs) page =
      if b.covers page then some (b.frame + (page - b.first)) else backing bs page := by
  rw [backing, List.find?_cons]
  cases b.covers page <;> rfl

end Owner

/-! ### What the tables spell -/

/-- The map of the tables is the one of the blocks, below the end of user space. -/
def Spells (m : List Nat → Option (BitVec 64)) (bs : List Placed) : Prop :=
  ∀ va : BitVec 64, va.toNat < 2 ^ 47 →
    m (path va) = (backing bs (va.toNat / 4096)).map pgdToPa

theorem Spells.cons {m m' : List Nat → Option (BitVec 64)} {bs : List Placed} (h : Spells m bs)
    {first n F : Nat} (mapped : Mapped m m' first n F) : Spells m' (⟨⟨first, n⟩, F⟩ :: bs) := by
  intro va low
  rw [mapped va low, backing_cons]
  by_cases inside : first ≤ va.toNat / 4096 ∧ va.toNat / 4096 < first + n
  · rw [if_pos inside, if_pos (Block.covers_iff.mpr inside)]
    rfl
  · rw [if_neg inside, if_neg (fun covers => inside (Block.covers_iff.mp covers)), h va low]

/-! ### The address space as its blocks -/

/-- The tables in the frames `T` show the blocks `bs`; the frames `K` are used besides. -/
structure Laid (s : State) (bs : List Placed) (K T : Nat → Prop) : Prop where
  space : ∃ m, Space s m T (fun f => K f ∨ ∃ b ∈ bs, b.Has f) ∧ Spells m bs
  apart : bs.Pairwise fun a b => ∀ f, a.Has f → ¬ b.Has f
  besides : ∀ b ∈ bs, ∀ f, b.Has f → ¬ K f
  small : ∀ b ∈ bs, b.first + b.pages ≤ 2 ^ 35 ∧ b.frame + b.pages ≤ 2 ^ 20

section Laid
variable {s s' : State} {bs : List Placed} {K T P : Nat → Prop}

theorem Laid.tables_apart (h : Laid s bs K T) {b : Placed} (mem : b ∈ bs) {f : Nat} (hf : b.Has f) :
    ¬ T f := by
  obtain ⟨m, space, _⟩ := h.space
  exact fun table => space.apart f table (.inr ⟨b, mem, hf⟩)

theorem Laid.held (h : Laid s bs K T) {f : Nat} (hf : T f ∨ K f ∨ ∃ b ∈ bs, b.Has f) :
    Held s f := by
  obtain ⟨m, space, _⟩ := h.space
  exact hf.elim (space.heldTables f) (space.heldData f)

theorem Laid.eq_of_has (h : Laid s bs K T) {a b : Placed} (ha : a ∈ bs) (hb : b ∈ bs) {f : Nat}
    (hfa : a.Has f) (hfb : b.Has f) : a = b := by
  by_contra ne
  have symm : Std.Symm fun a b : Placed => ∀ f, a.Has f → ¬ b.Has f :=
    ⟨fun _ _ apart f hb ha => apart f ha hb⟩
  exact h.apart.forall ha hb ne f hfa hfb

theorem Laid.updated (h : Laid s bs K T) (new : Updates P s s')
    (data : ∀ f, P f → K f ∨ ∃ b ∈ bs, b.Has f) : Laid s' bs K T where
  space := by
    obtain ⟨m, space, spells⟩ := h.space
    exact ⟨m, space.updated new fun f hf hp => space.apart f hf (data f hp), spells⟩
  apart := h.apart
  besides := h.besides
  small := h.small

theorem Laid.getMapping (h : Laid s bs K T) {va : BitVec 64} (low : va.toNat < 2 ^ 47) :
    (getMapping va).run s =
      .ok ((backing bs (va.toNat / 4096)).map fun f => pgdToPa f ||| (va &&& 0xfff#64), s) := by
  obtain ⟨m, space, spells⟩ := h.space
  rw [space.tables.getMapping (userAddress_of_lt low), spells va low, Option.map_map]
  rfl

theorem Laid.isMapped (h : Laid s bs K T) {va : BitVec 64} (low : va.toNat < 2 ^ 47) :
    (isMapped va).run s = .ok ((backing bs (va.toNat / 4096)).isSome, s) := by
  unfold Vma.isMapped
  rw [bind_ok (h.getMapping low), Option.isSome_map]
  rfl

theorem toNat_pgdToPa_or {f : Nat} (small : f < 2 ^ 20) (va : BitVec 64) :
    (pgdToPa f ||| (va &&& 0xfff#64)).toNat = 4096 * f + va.toNat % 4096 := by
  have value := toNat_pgdToPa small
  rw [toNat_or_pageOffset (by omega), value]

theorem Placed.addr_eq {b : Placed} {va : Nat} (lo : b.first ≤ va / 4096) :
    pmemVaStart + (4096 * (b.frame + (va / 4096 - b.first)) + va % 4096) = b.addr va := by
  rw [Placed.addr, tableAt]
  omega

theorem allocateVirt_true {va : BitVec 64} {nrPages : Int} {r : Bool} (nonzero : nrPages ≠ 0)
    (run : (allocateVirt va nrPages).run s = .ok (r, s')) (supplied : Supplied s') : r = true := by
  unfold Vma.allocateVirt at run
  rw [if_neg nonzero] at run
  dsimp only at run
  obtain ⟨answer, s₁, run₁, run⟩ := of_bind_ok run
  cases answer with
  | none =>
      cases run
      obtain ⟨F, e, _⟩ := allocatePhys_ok run₁ supplied
      cases e
  | some F =>
      obtain ⟨_, _, _, run⟩ := of_bind_ok run
      cases run
      rfl

theorem Laid.allocateVirt (h : Laid s bs K T) {va : BitVec 64} {nrPages : Int} {r : Bool}
    (nonzero : nrPages ≠ 0) (user : va.toNat / 4096 + 2 ^ log2ceil (toUInt64 nrPages) ≤ 2 ^ 35)
    (run : (allocateVirt va nrPages).run s = .ok (r, s')) (supplied : Supplied s') :
    ∃ b : Placed, ∃ T', b.toBlock = ⟨va.toNat / 4096, 2 ^ log2ceil (toUInt64 nrPages)⟩ ∧
      (∀ f, T f → T' f) ∧ Laid s' (b :: bs) K T' ∧ Writes (fun f => T' f ∨ b.Has f) s s' := by
  obtain ⟨m, space, spells⟩ := h.space
  obtain rfl := allocateVirt_true nonzero run supplied
  obtain ⟨F, s₁, T', m', new, ext, sub, space', mapped, writes'⟩ :=
    space.allocateVirt user run supplied.apart
  generalize log2ceil (toUInt64 nrPages) = order at new user space' mapped ⊢
  have supplied₁ := supplied.of_extends ext
  have mine : F + 2 ^ order ≤ 2 ^ 20 := by
    refine (supplied₁.apart.inside ⟨F, order⟩ ?_).2
    rw [new.blocks]
    simp
  let b : Placed := ⟨⟨va.toNat / 4096, 2 ^ order⟩, F⟩
  have has : ∀ f, b.Has f ↔ (⟨F, order⟩ : PageAllocation).Has f := fun _ => Iff.rfl
  have fresh : ∀ f, b.Has f → ¬ Held s f := fun f hf => new.fresh supplied₁.apart ((has f).mp hf)
  refine ⟨b, T', rfl, sub, ?_, ?_⟩
  · constructor
    case space =>
      refine ⟨m', space'.congr fun f => ?_, spells.cons mapped⟩
      simp only [List.mem_cons, exists_eq_or_imp, has]
      exact (or_assoc.trans (or_congr_right or_comm)).symm
    case apart =>
      refine List.pairwise_cons.mpr ⟨fun c hc f hf hcf => ?_, h.apart⟩
      exact fresh f hf (h.held (.inr (.inr ⟨c, hc, hcf⟩)))
    case besides =>
      intro c hc f hf kernel
      rcases List.mem_cons.mp hc with rfl | old
      · exact fresh f hf (h.held (.inr (.inl kernel)))
      · exact h.besides c old f hf kernel
    case small =>
      intro c hc
      rcases List.mem_cons.mp hc with rfl | old
      · exact ⟨user, mine⟩
      · exact h.small c old
  · exact (new.writes.mono fun f hf => .inr hf).trans (writes'.mono fun f hf => .inl hf)

/-- A copy into one block writes where the block shows the addresses copied to. -/
theorem Laid.copyTo (h : Laid s bs K T) {va : BitVec 64} {src : List Byte} {b : Placed} {r : Bool}
    (low : va.toNat < 2 ^ 47) (shown : (bs.find? fun b => b.covers (va.toNat / 4096)) = some b)
    (fits : va.toNat + src.length ≤ 4096 * (b.first + b.pages))
    (run : (copyTo va src).run s = .ok (r, s')) :
    r = true ∧ s'.mem = writeBytes s.mem (b.addr va.toNat) src ∧ Laid s' bs K T ∧
      Updates b.Has s s' := by
  obtain ⟨mem, lo, hi⟩ := of_find?_covers shown
  have inside : b.frame + (va.toNat / 4096 - b.first) < 2 ^ 20 := by
    have := (h.small b mem).2
    omega
  have mapped : backing bs (va.toNat / 4096) = some (b.frame + (va.toNat / 4096 - b.first)) := by
    rw [backing, shown]
    rfl
  unfold Vma.copyTo at run
  rw [bind_ok (h.getMapping low), mapped] at run
  dsimp only [Option.map_some] at run
  obtain ⟨dest, s₁, run₁, run⟩ := of_bind_ok run
  obtain ⟨same, rfl⟩ := paToVpa_ok run₁
  rw [same, toNat_pgdToPa_or inside, Placed.addr_eq lo] at run
  cases run
  have new : Updates b.Has s { s with mem := writeBytes s.mem (b.addr va.toNat) src } := by
    refine ⟨?_, rfl, rfl, rfl⟩
    intro a out
    apply writeBytes_word src
    intro j hj
    rintro rfl
    refine out (b.frame + (va.toNat + j - 4096 * b.first) / 4096)
      ⟨Nat.le_add_right _ _, by omega⟩ ?_
    simp only [InPage, Placed.addr, tableAt, pmemVaStart]
    omega
  exact ⟨rfl, rfl, h.updated new fun f hf => .inr ⟨b, mem, hf⟩, new⟩

end Laid

/-! ### What an operation keeps -/

/-- The addresses that block `b` can show. -/
def Placed.Spans (b : Placed) (va : Nat) : Prop :=
  4096 * b.first ≤ va ∧ va < 4096 * (b.first + b.pages)

theorem Placed.inPage_addr {b : Placed} {va : Nat} (h : b.Spans va) :
    ∃ f, b.Has f ∧ InPage f (8 * (b.addr va / 8)) := by
  obtain ⟨lo, hi⟩ := h
  refine ⟨b.frame + (va / 4096 - b.first), ⟨Nat.le_add_right _ _, by omega⟩, ?_⟩
  simp only [InPage, Placed.addr, tableAt, pmemVaStart]
  omega

theorem Placed.addr_add {b : Placed} {va : Nat} (lo : 4096 * b.first ≤ va) (j : Nat) :
    b.addr (va + j) = b.addr va + j := by
  simp only [Placed.addr]
  omega

/-- From `s` to `s'`, blocks were only added, and the bytes that old blocks show changed at most
at the virtual addresses in `touched`. -/
structure Grows (K touched : Nat → Prop) (s : State) (bs : List Placed) (T : Nat → Prop)
    (s' : State) (bs' : List Placed) (T' : Nat → Prop) : Prop where
  laid : Laid s' bs' K T'
  suffix : bs <:+ bs'
  tables : ∀ f, T f → T' f
  writes : Writes (fun f => T' f ∨ K f ∨ ∃ b ∈ bs', b.Has f) s s'
  keeps : ∀ b ∈ bs, ∀ va, b.Spans va → ¬ touched va →
    byteAt s'.mem (b.addr va) = byteAt s.mem (b.addr va)

section Grows
variable {s s₁ s' : State} {bs bs₁ bs' : List Placed} {K T T₁ T' P touched touched' : Nat → Prop}

theorem Laid.addr_inj (h : Laid s bs K T) {a b : Placed} (ha : a ∈ bs) (hb : b ∈ bs) {x y : Nat}
    (hx : a.Spans x) (hy : b.Spans y) (same : a.addr x = b.addr y) : a = b ∧ x = y := by
  obtain ⟨f, hf, inf⟩ := Placed.inPage_addr hx
  obtain ⟨g, hg, ing⟩ := Placed.inPage_addr hy
  rw [same] at inf
  have equal := h.eq_of_has ha hb hf (inf.unique ing ▸ hg)
  subst equal
  refine ⟨rfl, ?_⟩
  obtain ⟨lo, _⟩ := hx
  obtain ⟨lo', _⟩ := hy
  simp only [Placed.addr] at same
  omega

theorem Grows.refl (h : Laid s bs K T) : Grows K touched s bs T s bs T where
  laid := h
  suffix := List.suffix_rfl
  tables _ hf := hf
  writes := .refl _ s
  keeps _ _ _ _ _ := rfl

theorem Grows.trans (h : Grows K touched s bs T s₁ bs₁ T₁)
    (h' : Grows K touched s₁ bs₁ T₁ s' bs' T') :
    Grows K touched s bs T s' bs' T' where
  laid := h'.laid
  suffix := h.suffix.trans h'.suffix
  tables f hf := h'.tables f (h.tables f hf)
  writes := by
    refine (h.writes.mono fun f hf => ?_).trans h'.writes
    refine hf.imp (h'.tables f) (Or.imp_right ?_)
    rintro ⟨b, mem, has⟩
    exact ⟨b, h'.suffix.subset mem, has⟩
  keeps b mem va spans out :=
    (h'.keeps b (h.suffix.subset mem) va spans out).trans (h.keeps b mem va spans out)

theorem Grows.mono (h : Grows K touched s bs T s' bs' T') (sub : ∀ va, touched va → touched' va) :
    Grows K touched' s bs T s' bs' T' where
  laid := h.laid
  suffix := h.suffix
  tables := h.tables
  writes := h.writes
  keeps b mem va spans out := h.keeps b mem va spans fun touch => out (sub va touch)

theorem keeps_of_writes (writes : Writes P s s') {b : Placed} (out : ∀ f, b.Has f → ¬ P f)
    {va : Nat} (spans : b.Spans va) : byteAt s'.mem (b.addr va) = byteAt s.mem (b.addr va) := by
  obtain ⟨f, has, page⟩ := Placed.inPage_addr spans
  exact byteAt_congr (writes.page (out f has) page)

theorem Laid.allocateVirt_grows (h : Laid s bs K T) (touched : Nat → Prop) {va : BitVec 64}
    {nrPages : Int} {r : Bool}
    (nonzero : nrPages ≠ 0) (user : va.toNat / 4096 + 2 ^ log2ceil (toUInt64 nrPages) ≤ 2 ^ 35)
    (run : (Vma.allocateVirt va nrPages).run s = .ok (r, s')) (supplied : Supplied s') :
    ∃ b : Placed, ∃ T', b.toBlock = ⟨va.toNat / 4096, 2 ^ log2ceil (toUInt64 nrPages)⟩ ∧
      Grows K touched s bs T s' (b :: bs) T' := by
  obtain ⟨b, T', block, sub, laid, writes⟩ := h.allocateVirt nonzero user run supplied
  refine ⟨b, T', block, laid, List.suffix_cons b bs, sub, writes.mono fun f hf => ?_, ?_⟩
  · exact hf.imp_right fun has => .inr ⟨b, List.mem_cons_self, has⟩
  · intro c mem va spans _
    refine keeps_of_writes writes (fun f has => ?_) spans
    rintro (table | new)
    · exact laid.tables_apart (List.mem_cons_of_mem b mem) has table
    · exact (List.pairwise_cons.mp laid.apart).1 c mem f new has

theorem Laid.updated_grows (h : Laid s bs K T) (new : Updates K s s') :
    Grows K touched s bs T s' bs T where
  laid := h.updated new fun _ => .inl
  suffix := List.suffix_rfl
  tables _ hf := hf
  writes := new.writes.mono fun _ hf => .inr (.inl hf)
  keeps b mem _ spans _ := keeps_of_writes new.writes (h.besides b mem) spans

theorem Laid.copyTo_grows (h : Laid s bs K T) {va : BitVec 64} {src : List Byte} {b : Placed}
    {r : Bool} (low : va.toNat < 2 ^ 47)
    (shown : (bs.find? fun b => b.covers (va.toNat / 4096)) = some b)
    (fits : va.toNat + src.length ≤ 4096 * (b.first + b.pages))
    (run : (Vma.copyTo va src).run s = .ok (r, s')) :
    Grows K (fun x => va.toNat ≤ x ∧ x < va.toNat + src.length) s bs T s' bs T ∧
      ∀ j, (hj : j < src.length) → byteAt s'.mem (b.addr (va.toNat + j)) = src[j] := by
  obtain ⟨mem, lo, _⟩ := of_find?_covers shown
  obtain ⟨_, copied, laid, new⟩ := h.copyTo low shown fits run
  have start : 4096 * b.first ≤ va.toNat := by omega
  constructor
  · refine ⟨laid, List.suffix_rfl, fun _ hf => hf, ?_, ?_⟩
    · exact new.writes.mono fun f has => .inr (.inr ⟨b, mem, has⟩)
    · intro c mem' x spans out
      rw [copied]
      apply byteAt_writeBytes_outside src
      by_contra inside
      have shifted : c.addr x = b.addr (va.toNat + (c.addr x - b.addr va.toNat)) := by
        rw [Placed.addr_add start]
        omega
      obtain ⟨_, here⟩ := h.addr_inj mem' mem spans ⟨by omega, by omega⟩ shifted
      exact out ⟨by omega, by omega⟩
  · intro j hj
    rw [copied, Placed.addr_add start]
    exact byteAt_writeBytes_inside src hj

end Grows
end Infos.Mm.Vma
