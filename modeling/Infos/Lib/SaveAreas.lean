import Mathlib.Algebra.Group.Int.Defs
import Mathlib.Algebra.Group.Nat.Defs
import Mathlib.Logic.Function.Basic

/-!
# Stacks and chains of save areas

Memory by the aligned word, stacks that grow down in it, and areas of `n` words that are linked
through their first word, the latest first. What is written outside its areas leaves a chain alone.
-/
namespace Infos.Lib.SaveAreas
open Function

abbrev Words := Nat → UInt64

/-- The words `ws` lie from `p` on. -/
def At (mem : Words) : Nat → List UInt64 → Prop
  | _, [] => True
  | p, w :: ws => mem p = w ∧ At mem (p + 8) ws

/-- `sp` is the address of the word that was pushed last. -/
structure Stack where
  mem : Words
  sp : UInt64

namespace Stack

def push (s : Stack) (w : UInt64) : Stack :=
  { mem := update s.mem (s.sp - 8).toNat w, sp := s.sp - 8 }

def pushAll (s : Stack) (ws : List UInt64) : Stack := ws.foldl push s

def top (s : Stack) : UInt64 := s.mem s.sp.toNat

def drop (s : Stack) : Stack := { s with sp := s.sp + 8 }

end Stack

section At
variable {mem mem' : Words} {p : Nat} {ws : List UInt64}

theorem At.congr (h : At mem p ws)
    (same : ∀ x, p ≤ x → x < p + 8 * ws.length → mem' x = mem x) : At mem' p ws := by
  induction ws generalizing p with
  | nil => trivial
  | cons w ws ih =>
      rw [List.length_cons] at same
      refine ⟨(same p (Nat.le_refl p) (by omega)).trans h.1, ih h.2 ?_⟩
      exact fun x from_p below => same x (by omega) (by omega)

theorem At.set (h : At mem p ws) (i : Nat) (v : UInt64) :
    At (update mem (p + 8 * i) v) p (ws.set i v) := by
  induction ws generalizing p i with
  | nil => trivial
  | cons w ws ih =>
      cases i with
      | zero =>
          refine ⟨update_self .., h.2.congr fun x from_p _ => update_of_ne ?_ ..⟩
          omega
      | succ i =>
          refine ⟨(update_of_ne (by omega) ..).trans h.1, ?_⟩
          rw [show p + 8 * (i + 1) = p + 8 + 8 * i by omega]
          exact ih h.2 i

end At

namespace Stack
variable {s : Stack} {ws below : List UInt64}

theorem toNat_sub_eight {a : UInt64} (room : 8 ≤ a.toNat) : (a - 8).toNat = a.toNat - 8 :=
  UInt64.toNat_sub_of_le a 8 (UInt64.le_iff_toNat_le.mpr room)

theorem sp_pushAll (room : 8 * ws.length ≤ s.sp.toNat) :
    (s.pushAll ws).sp.toNat = s.sp.toNat - 8 * ws.length := by
  induction ws generalizing s with
  | nil => rfl
  | cons w ws ih =>
      rw [List.length_cons] at room ⊢
      have one : (s.push w).sp.toNat = s.sp.toNat - 8 := toNat_sub_eight (by omega)
      have rest := ih (s := s.push w) (by omega)
      rw [one] at rest
      refine rest.trans ?_
      omega

theorem mem_pushAll (room : 8 * ws.length ≤ s.sp.toNat) {x : Nat}
    (out : x < s.sp.toNat - 8 * ws.length ∨ s.sp.toNat ≤ x) : (s.pushAll ws).mem x = s.mem x := by
  induction ws generalizing s with
  | nil => rfl
  | cons w ws ih =>
      rw [List.length_cons] at room out
      have one : (s.push w).sp.toNat = s.sp.toNat - 8 := toNat_sub_eight (by omega)
      refine (ih (s := s.push w) (by omega) (by omega)).trans (update_of_ne ?_ ..)
      rw [toNat_sub_eight (by omega)]
      omega

theorem at_pushAll (room : 8 * ws.length ≤ s.sp.toNat) (h : At s.mem s.sp.toNat below) :
    At (s.pushAll ws).mem (s.pushAll ws).sp.toNat (ws.reverse ++ below) := by
  induction ws generalizing s below with
  | nil => exact h
  | cons w ws ih =>
      rw [List.length_cons] at room
      have one : (s.push w).sp.toNat = s.sp.toNat - 8 := toNat_sub_eight (by omega)
      have pushed : At (s.push w).mem (s.push w).sp.toNat (w :: below) := by
        refine ⟨update_self .., ?_⟩
        rw [one, Nat.sub_add_cancel (by omega)]
        refine h.congr fun x from_sp _ => update_of_ne ?_ ..
        rw [toNat_sub_eight (by omega)]
        omega
      rw [List.reverse_cons, List.append_assoc]
      exact ih (s := s.push w) (by omega) pushed

/-- The words `ws` can be popped. -/
def Holds (s : Stack) (ws : List UInt64) : Prop :=
  At s.mem s.sp.toNat ws ∧ s.sp.toNat + 8 * ws.length ≤ 2 ^ 64

theorem Holds.top {w : UInt64} (h : s.Holds (w :: ws)) : s.top = w := h.1.1

theorem Holds.drop {w v : UInt64} (h : s.Holds (w :: v :: ws)) : s.drop.Holds (v :: ws) := by
  obtain ⟨here, fits⟩ := h
  rw [List.length_cons, List.length_cons] at fits
  have next : s.drop.sp.toNat = s.sp.toNat + 8 :=
    (UInt64.toNat_add s.sp 8).trans (Nat.mod_eq_of_lt (by change s.sp.toNat + 8 < 2 ^ 64; omega))
  refine ⟨?_, ?_⟩
  · rw [next]
    exact here.2
  · rw [next, List.length_cons]
    omega

end Stack

/-! ### Chains -/

/-- `a` is in one of the areas linked from `p`. -/
inductive Saved (n : Nat) (mem : Words) : UInt64 → Nat → Prop
  | here {p : UInt64} {a : Nat} :
      p ≠ 0 → p.toNat ≤ a → a < p.toNat + 8 * n → Saved n mem p a
  | further {p : UInt64} {a : Nat} : p ≠ 0 → Saved n mem (mem p.toNat) a → Saved n mem p a

/-- The areas linked from `p` hold `areas` behind their links, and do not overlap. -/
def Chain (n : Nat) (mem : Words) : UInt64 → List (List UInt64) → Prop
  | p, [] => p = 0
  | p, ws :: rest => p ≠ 0 ∧ ws.length + 1 = n ∧ p.toNat + 8 * n ≤ 2 ^ 64 ∧
      At mem (p.toNat + 8) ws ∧
      (∀ a, p.toNat ≤ a → a < p.toNat + 8 * n → ¬ Saved n mem (mem p.toNat) a) ∧
      Chain n mem (mem p.toNat) rest

/-- The first areas linked from `p` are at `ps`. -/
def Links (mem : Words) : UInt64 → List UInt64 → Prop
  | _, [] => True
  | p, q :: ps => p = q ∧ p ≠ 0 ∧ Links mem (mem p.toNat) ps

section Chain
variable {n : Nat} {mem mem' : Words} {p q : UInt64} {a : Nat} {areas : List (List UInt64)}
  {ws : List UInt64} {ps : List UInt64}

theorem not_saved_zero : ¬ Saved n mem 0 a := by
  intro h
  cases h with
  | here none => exact none rfl
  | further none => exact none rfl

theorem Saved.start (pos : 0 < n) (some : p ≠ 0) : Saved n mem p p.toNat :=
  .here some (Nat.le_refl _) (by omega)

theorem Saved.congr (pos : 0 < n) (h : Saved n mem p a)
    (same : ∀ x, Saved n mem p x → mem' x = mem x) : Saved n mem' p a := by
  induction h with
  | here some from_p below => exact .here some from_p below
  | further some _ ih =>
      refine .further some ?_
      rw [same _ (.start pos some)]
      exact ih fun x there => same x (.further some there)

theorem saved_congr (pos : 0 < n) (same : ∀ x, Saved n mem p x → mem' x = mem x) :
    Saved n mem' p a ↔ Saved n mem p a := by
  constructor
  · intro h
    induction h with
    | here some from_p below => exact .here some from_p below
    | further some _ ih =>
        rw [same _ (.start pos some)] at ih
        exact .further some (ih fun x there => same x (.further some there))
  · exact fun h => h.congr pos same

theorem Chain.congr (pos : 0 < n) (h : Chain n mem p areas)
    (same : ∀ x, Saved n mem p x → mem' x = mem x) : Chain n mem' p areas := by
  induction areas generalizing p with
  | nil => exact h
  | cons ws rest ih =>
      obtain ⟨some, size, fits, here, apart, linked⟩ := h
      have link : mem' p.toNat = mem p.toNat := same _ (.start pos some)
      have behind : ∀ x, Saved n mem (mem p.toNat) x → mem' x = mem x :=
        fun x there => same x (.further some there)
      refine ⟨some, size, fits, ?_, ?_, ?_⟩
      · refine here.congr fun x from_p below => same x (.here some (by omega) (by omega))
      · rw [link]
        intro a from_p below
        rw [saved_congr pos behind]
        exact apart a from_p below
      · rw [link]
        exact ih linked behind

theorem Links.congr (pos : 0 < n) (h : Links mem p ps)
    (same : ∀ x, Saved n mem p x → mem' x = mem x) : Links mem' p ps := by
  induction ps generalizing p with
  | nil => trivial
  | cons q ps ih =>
      obtain ⟨rfl, some, linked⟩ := h
      refine ⟨rfl, some, ?_⟩
      rw [same _ (.start pos some)]
      exact ih linked fun x there => same x (.further some there)

theorem saved_cons (some : p ≠ 0) : Saved n mem p a ↔
    p.toNat ≤ a ∧ a < p.toNat + 8 * n ∨ Saved n mem (mem p.toNat) a := by
  constructor
  · intro h
    cases h with
    | here _ from_p below => exact .inl ⟨from_p, below⟩
    | further _ there => exact .inr there
  · rintro (⟨from_p, below⟩ | there)
    · exact .here some from_p below
    · exact .further some there

theorem Chain.save (pos : 0 < n) (h : Chain n mem q areas) (some : p ≠ 0)
    (size : ws.length + 1 = n) (fits : p.toNat + 8 * n ≤ 2 ^ 64)
    (here : At mem' p.toNat (q :: ws))
    (free : ∀ a, p.toNat ≤ a → a < p.toNat + 8 * n → ¬ Saved n mem q a)
    (same : ∀ x, Saved n mem q x → mem' x = mem x) : Chain n mem' p (ws :: areas) := by
  refine ⟨some, size, fits, here.2, ?_, ?_⟩
  · rw [here.1]
    intro a from_p below
    rw [saved_congr pos same]
    exact free a from_p below
  · rw [here.1]
    exact h.congr pos same

theorem Chain.holds (h : Chain n mem p (ws :: areas)) :
    Stack.Holds { mem := mem, sp := p } (mem p.toNat :: ws) := by
  obtain ⟨_, size, fits, here, _⟩ := h
  refine ⟨⟨rfl, here⟩, ?_⟩
  rw [List.length_cons, size]
  exact fits

theorem Chain.store_saved (h : Chain n mem p (ws :: areas)) {i : Nat} (inside : i < ws.length) :
    Saved n mem p (p.toNat + 8 + 8 * i) ∧
      ¬ Saved n mem (mem p.toNat) (p.toNat + 8 + 8 * i) := by
  obtain ⟨some, size, _, _, apart, _⟩ := h
  exact ⟨.here some (by omega) (by omega), apart _ (by omega) (by omega)⟩

theorem Chain.store (pos : 0 < n) (h : Chain n mem p (ws :: areas)) {i : Nat}
    (inside : i < ws.length) (v : UInt64) :
    Chain n (update mem (p.toNat + 8 + 8 * i) v) p (ws.set i v :: areas) := by
  obtain ⟨_, out⟩ := h.store_saved inside
  obtain ⟨some, size, fits, here, apart, linked⟩ := h
  have link : update mem (p.toNat + 8 + 8 * i) v p.toNat = mem p.toNat :=
    update_of_ne (by omega) ..
  have behind : ∀ x, Saved n mem (mem p.toNat) x →
      update mem (p.toNat + 8 + 8 * i) v x = mem x := by
    intro x there
    refine update_of_ne ?_ ..
    rintro rfl
    exact out there
  refine ⟨some, by rwa [List.length_set], fits, here.set i v, ?_, ?_⟩
  · rw [link]
    intro a from_p below
    rw [saved_congr pos behind]
    exact apart a from_p below
  · rw [link]
    exact linked.congr pos behind

theorem Chain.store_links (pos : 0 < n) (h : Chain n mem p (ws :: areas)) {i : Nat}
    (inside : i < ws.length) (v : UInt64) (linked : Links mem p ps) :
    Links (update mem (p.toNat + 8 + 8 * i) v) p ps ∧
      ∀ a, Saved n (update mem (p.toNat + 8 + 8 * i) v) p a ↔ Saved n mem p a := by
  obtain ⟨_, out⟩ := h.store_saved inside
  have some := h.1
  have link : update mem (p.toNat + 8 + 8 * i) v p.toNat = mem p.toNat :=
    update_of_ne (by omega) ..
  have behind : ∀ x, Saved n mem (mem p.toNat) x →
      update mem (p.toNat + 8 + 8 * i) v x = mem x := by
    intro x there
    refine update_of_ne ?_ ..
    rintro rfl
    exact out there
  constructor
  · cases ps with
    | nil => trivial
    | cons q ps =>
        obtain ⟨same, _, rest⟩ := linked
        refine ⟨same, some, ?_⟩
        rw [link]
        exact rest.congr pos behind
  · intro a
    rw [saved_cons some, saved_cons some, link, saved_congr pos behind]

end Chain
end Infos.Lib.SaveAreas
