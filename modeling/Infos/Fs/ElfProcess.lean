import Infos.Fs.ElfLoader
import Infos.Mm.VmaBlocks

/-!
# The process around the image

A new process has an empty address space and a kernel stack. The user stack and
the command line are two more blocks, and the start arguments go to the kernel
stack.
-/
namespace Infos.Fs.Elf
open Infos.Lib Infos.Mm.Vma

section Process
variable {s s' : State} {bs : List Placed} {K T P touched : Nat → Prop} {t t' : Thread}

theorem push_ok {ws : List (BitVec 64)} {stack top : Nat}
    (run : (push stack ws).run s = .ok (top, s'))
    (inside : ∀ j < ws.length, ∃ f, P f ∧ InPage f (stack - 8 * (j + 1))) :
    top = stack - 8 * ws.length ∧ Updates P s s' := by
  induction ws generalizing s stack with
  | nil =>
      cases run
      exact ⟨rfl, .refl P _⟩
  | cons w ws ih =>
      unfold push at run
      rw [bind_ok (run_modify_eq _ _)] at run
      obtain ⟨f, hf, page⟩ := inside 0 (Nat.succ_pos _)
      have rest : ∀ j < ws.length, ∃ f, P f ∧ InPage f (stack - 8 - 8 * (j + 1)) := by
        intro j hj
        rw [show stack - 8 - 8 * (j + 1) = stack - 8 * (j + 1 + 1) by omega]
        exact inside (j + 1) (Nat.succ_lt_succ hj)
      obtain ⟨rfl, new⟩ := ih run rest
      refine ⟨?_, (Updates.setWord hf page w).trans new⟩
      rw [List.length_cons]
      omega

theorem push_extends (ws : List (BitVec 64)) (stack : Nat) : Respects Extends (push stack ws) := by
  induction ws generalizing stack with
  | nil => exact .ret stack
  | cons w ws ih => exact .bind (.modify fun _ => .of_eq rfl rfl) fun _ => ih _

theorem prepareInitialStack_extends (t : Thread) : Respects Extends (prepareInitialStack t) :=
  .bind (push_extends _ _) fun _ => .bind (.modify fun _ => .of_eq rfl rfl) fun _ => .ret _

theorem initialStack_length (t : Thread) : t.initialStack.length = 22 := rfl

/-- The saved context of a thread lies in the frames `K`. -/
def ContextIn (K : Nat → Prop) (t : Thread) : Prop :=
  ∀ offset < 176, ∃ f, K f ∧ InPage f (t.nativeContext + offset)

theorem prepareInitialStack_ok (run : (prepareInitialStack t).run s = .ok (t', s'))
    (room : 176 ≤ t.kernelStack)
    (inside : ∀ x < 176, ∃ f, K f ∧ InPage f (t.kernelStack - 176 + x)) :
    Updates K s s' ∧ ContextIn K t' := by
  unfold prepareInitialStack at run
  obtain ⟨stack, s₁, run₁, run⟩ := of_bind_ok run
  rw [bind_ok (run_modify_eq _ _)] at run
  cases run
  obtain ⟨native, pushed⟩ := push_ok (P := K) run₁ (by
    intro j hj
    rw [initialStack_length] at hj
    rw [show t.kernelStack - 8 * (j + 1) = t.kernelStack - 176 + (176 - 8 * (j + 1)) by omega]
    exact inside _ (by omega))
  rw [initialStack_length] at native
  obtain ⟨f, hf, page⟩ := inside rspOffset (by decide)
  rw [native]
  exact ⟨pushed.trans (.setWord hf page _), inside⟩

theorem newThread_ok {kernelThread : Bool} {entryPoint : BitVec 64}
    (run : (newThread kernelThread entryPoint).run s = .ok (t, s')) (supplied : Supplied s') :
    ∃ b s₁, NewBlock s s₁ b ∧ Supplied s₁ ∧ Updates b.Has s₁ s' ∧ ContextIn b.Has t := by
  unfold newThread at run
  obtain ⟨answer, s₁, run₁, run⟩ := of_bind_ok run
  cases answer with
  | none => cases run
  | some k =>
      obtain ⟨base, s₂, run₂, run⟩ := of_bind_ok run
      obtain ⟨same, rfl⟩ := paToVpa_ok run₂
      rw [same] at run
      have supplied₁ := supplied.of_extends (prepareInitialStack_extends _ _ _ _ run)
      obtain ⟨k, e, new⟩ := allocatePhys_ok run₁ supplied₁
      cases e
      have small : k + 2 ^ 1 ≤ 2 ^ 20 :=
        (supplied₁.apart.inside ⟨k, 1⟩ (by rw [new.blocks]; exact List.mem_concat_self)).2
      have base : pmemVaStart + (pgdToPa k).toNat + kernelStackSize = tableAt k + 8192 := by
        rw [toNat_pgdToPa (by omega), tableAt]
        rfl
      rw [base] at run
      obtain ⟨updates, context⟩ :=
        prepareInitialStack_ok (K := (⟨k, 1⟩ : PageAllocation).Has) run (by dsimp only; omega) (by
          intro x hx
          refine ⟨k + 1, ⟨Nat.le_succ k, Nat.lt_succ_self _⟩, ?_⟩
          simp only [InPage, tableAt, pmemVaStart]
          omega)
      exact ⟨⟨k, 1⟩, s₁, new, supplied₁, updates, context⟩

theorem newProcess_laid {template : Option (Nat → BitVec 64)} {kernelProcess : Bool}
    {entryPoint : BitVec 64} (fresh : FreshFrames s.frames)
    (run : (newProcess template kernelProcess entryPoint).run s = .ok (t, s'))
    (supplied : Supplied s') :
    ∃ K T, Laid s' [] K T ∧ ContextIn K t ∧ Writes (fun f => T f ∨ K f) s s' := by
  unfold newProcess at run
  rw [bind_ok (run_modify_eq _ _)] at run
  obtain ⟨_, s₁, run₁, run⟩ := of_bind_ok run
  obtain ⟨b, s₂, new, supplied₂, updates, context⟩ := newThread_ok run supplied
  obtain ⟨T, space, writes⟩ :=
    create_space (s := { s with pageAllocations := [] }) fresh rfl run₁
      (supplied₂.of_extends new.extends).apart
  refine ⟨b.Has, T, ?_, context, ?_⟩
  · have stacked := space.allocate new supplied₂.apart
    have laid : Laid s₂ [] b.Has T := by
      refine ⟨⟨_, stacked.congr fun f => ?_, ?_⟩, .nil, by simp, by simp⟩
      · simp
      · intro va _
        rfl
    exact laid.updated updates fun f hf => .inl hf
  · have cleared : Writes T s s₁ := writes
    have stack := new.writes.trans updates.writes
    exact (cleared.mono fun f hf => .inl hf).trans (stack.mono fun f hf => .inr hf)

theorem allocateUserStack_grows (h : Laid s bs K T) (context : ContextIn K t)
    (run : (allocateUserStack t 0x100000 0x2000).run s = .ok ((), s')) (supplied : Supplied s') :
    ∃ b : Placed, ∃ T', b.toBlock = ⟨0x100, 2⟩ ∧ Grows K touched s bs T s' (b :: bs) T' := by
  unfold allocateUserStack at run
  obtain ⟨_, s₁, run₁, run⟩ := of_bind_ok run
  cases run
  have supplied₁ : Supplied s₁ := ⟨supplied.left, supplied.apart⟩
  obtain ⟨b, T', block, grows⟩ :=
    h.allocateVirt_grows touched (by decide) (by decide) run₁ supplied₁
  refine ⟨b, T', ?_, ?_⟩
  · rw [block]
    decide
  · obtain ⟨f, hf, page⟩ := context rspOffset (by decide)
    exact grows.trans (grows.laid.updated_grows (.setWord hf page _))

theorem addEntryArgument_extends (t : Thread) (arg : BitVec 64) :
    Respects Extends (addEntryArgument t arg) := by
  unfold addEntryArgument
  cases entryArgumentOffsets[t.currentEntryArgument]? with
  | none => exact .ret t
  | some offset => exact .bind (.modify fun _ => .of_eq rfl rfl) fun _ => .ret _

theorem addEntryArgument_ok {arg : BitVec 64} (context : ContextIn K t)
    (run : (addEntryArgument t arg).run s = .ok (t', s')) : Updates K s s' := by
  unfold addEntryArgument at run
  cases e : entryArgumentOffsets[t.currentEntryArgument]? with
  | none =>
      rw [e] at run
      cases run
      exact .refl K _
  | some offset =>
      rw [e] at run
      dsimp only at run
      rw [bind_ok (run_modify_eq _ _)] at run
      cases run
      have bound : ∀ o ∈ entryArgumentOffsets, o < 176 := by decide
      obtain ⟨f, hf, page⟩ := context offset (bound offset (List.mem_of_getElem? e))
      exact .setWord hf page _

/-- The blocks of the user stack and the command line. -/
def finished (bs : List Block) (cmdline : List Byte) : List Block :=
  if cmdline.length > 0 then ⟨0x102, 1⟩ :: ⟨0x100, 2⟩ :: bs else ⟨0x100, 2⟩ :: bs

/-- The page of the command line. -/
def CommandLine (va : Nat) : Prop := 0x102000 ≤ va ∧ va < 0x103000

theorem finishLoad_grows {cmdline : List Byte} {r : Option Thread} (h : Laid s bs K T)
    (context : ContextIn K t) (short : cmdline.length ≤ 4096)
    (run : (finishLoad t cmdline).run s = .ok (r, s')) (supplied : Supplied s') :
    ∃ bs' T', bs'.map Placed.toBlock = finished (bs.map Placed.toBlock) cmdline ∧
      Grows K CommandLine s bs T s' bs' T' := by
  unfold finishLoad at run
  obtain ⟨_, s₁, run₁, run⟩ := of_bind_ok run
  by_cases some : cmdline.length > 0
  · rw [if_pos some] at run
    obtain ⟨_, s₂, run₂, run⟩ := of_bind_ok run
    obtain ⟨copied, s₃, run₃, run⟩ := of_bind_ok run
    have supplied₃ : Supplied s₃ := by
      apply supplied.of_extends
      cases copied with
      | false => cases run; exact Std.Refl.refl _
      | true => exact Respects.bind (addEntryArgument_extends t _) (fun _ => .ret _) _ _ _ run
    have supplied₂ := supplied₃.of_extends (copyTo_extends _ _ _ _ _ run₃)
    have supplied₁ := supplied₂.of_extends (allocateVirt_extends _ _ _ _ _ run₂)
    obtain ⟨b, T₁, block, grows₁⟩ := allocateUserStack_grows h context run₁ supplied₁
    obtain ⟨c, T₂, block', grows₂⟩ :=
      grows₁.laid.allocateVirt_grows CommandLine (by decide) (by decide) run₂ supplied₂
    have line : c.toBlock = ⟨0x102, 1⟩ := block'.trans (by decide)
    have covers : c.covers ((0x102000 : BitVec 64).toNat / 4096) = true := by
      rw [line]
      rfl
    have shown : ((c :: b :: bs).find? fun x => x.covers ((0x102000 : BitVec 64).toNat / 4096)) =
        Option.some c := by
      rw [List.find?_cons, covers]
    have fits : (0x102000 : BitVec 64).toNat + cmdline.length ≤ 4096 * (c.first + c.pages) := by
      rw [line]
      exact Nat.add_le_add_left short _
    obtain ⟨grows₃, _⟩ := grows₂.laid.copyTo_grows (by decide) shown fits run₃
    have touch : ∀ x, (0x102000 : BitVec 64).toNat ≤ x ∧
        x < (0x102000 : BitVec 64).toNat + cmdline.length → CommandLine x := by
      rintro x ⟨lo, hi⟩
      exact ⟨lo, lt_of_lt_of_le hi (Nat.add_le_add_left short _)⟩
    refine ⟨c :: b :: bs, T₂, ?_, ?_⟩
    · rw [finished, if_pos some, List.map_cons, List.map_cons, line, block]
    · apply (grows₁.trans (grows₂.trans (grows₃.mono touch))).trans
      cases copied with
      | false => cases run; exact .refl grows₃.laid
      | true =>
          obtain ⟨_, s₄, run₄, run⟩ := of_bind_ok run
          cases run
          exact grows₃.laid.updated_grows (addEntryArgument_ok context run₄)
  · rw [if_neg some] at run
    obtain ⟨_, s₂, run₂, run⟩ := of_bind_ok run
    cases run
    have supplied₁ := supplied.of_extends (addEntryArgument_extends t _ _ _ _ run₂)
    obtain ⟨b, T₁, block, grows₁⟩ := allocateUserStack_grows h context run₁ supplied₁
    refine ⟨b :: bs, T₁, ?_, ?_⟩
    · rw [finished, if_neg some, List.map_cons, block]
    · exact grows₁.trans (grows₁.laid.updated_grows (addEntryArgument_ok context run₂))

end Process
end Infos.Fs.Elf
