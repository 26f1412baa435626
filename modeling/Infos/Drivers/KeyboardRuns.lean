import Infos.Drivers.Keyboard

/-!
# What is typed

Key events after one another, the latest first. Each reaches one console or picks one; a terminal
gets the characters of the events that reached its console, in the shift state that the latest of
these left.
-/
namespace Infos.Drivers.Keyboard
open Infos.Lib Infos.Util Function

namespace KeyEvent

/-- What an event says of the alt keys, or nothing. -/
def alt : KeyEvent → Option Bool
  | .keyUp key => if key.isAlt then some false else none
  | .keyDown key => if key.isAlt then some true else none

def shift : KeyEvent → Option Bool
  | .keyUp key => if key.isShift then some false else none
  | .keyDown key => if key.isShift then some true else none

/-- The number of the console that an event picks. -/
def picks (altHeld : Bool) : KeyEvent → Option Nat
  | .keyUp _ => none
  | .keyDown key =>
      if key = .keyF1 ∧ altHeld then some 0 else if key = .keyF2 ∧ altHeld then some 1 else none

def character (shifted : Bool) : KeyEvent → Option UInt8
  | .keyUp _ => none
  | .keyDown key => if key.isShift then none else VirtualConsole.keyChar shifted key

/-- What an event does to the mask of the console that it reaches. -/
def mask (e : KeyEvent) (m : UInt32) : UInt32 :=
  match e.shift with
  | none => m
  | some true => m ||| VirtualConsole.shift
  | some false => m &&& ~~~VirtualConsole.shift

end KeyEvent

/-! ### The events so far -/

section Past
variable (s₀ : Input)

def altHeld (past : List KeyEvent) : Bool := (past.findSome? KeyEvent.alt).getD s₀.pc.altPressed

/-- The console that is shown. -/
def shownVc : List KeyEvent → Option Nat
  | [] => s₀.pc.currentVc
  | e :: past =>
      match e.picks (altHeld s₀ past) with
      | some index => s₀.pc.vcs.elems[index]?
      | none => shownVc past

/-- The events that reached a console. -/
def reaching (vc : Nat) : List KeyEvent → List KeyEvent
  | [] => []
  | e :: past =>
      if e.picks (altHeld s₀ past) = none ∧ shownVc s₀ past = some vc then e :: reaching vc past
      else reaching vc past

/-- The latest shift event that reached a console decides, also when the key came up elsewhere. -/
def shiftHeld (vc : Nat) (reached : List KeyEvent) : Bool :=
  (reached.findSome? KeyEvent.shift).getD (s₀.consoles vc).isShifted

/-- The characters of the events that reached a console, the first one first. -/
def typed (vc : Nat) : List KeyEvent → List UInt8
  | [] => []
  | e :: reached => typed vc reached ++ (e.character (shiftHeld s₀ vc reached)).toList

end Past

/-! ### One event -/

namespace VirtualConsole

theorem isShifted_eq (vc : VirtualConsole) :
    vc.isShifted = vc.currentModMask.toBitVec.getLsbD 1 := by
  have bit : (vc.currentModMask &&& shift).toBitVec =
      if vc.currentModMask.toBitVec.getLsbD 1 then BitVec.twoPow 32 1 else 0#32 := by
    rw [UInt32.toBitVec_and]
    exact BitVec.and_twoPow _ 1
  rw [isShifted]
  cases held : vc.currentModMask.toBitVec.getLsbD 1 with
  | true =>
      rw [held, if_pos rfl] at bit
      rw [show vc.currentModMask &&& shift = 2 from UInt32.toBitVec_inj.mp bit]
      rfl
  | false =>
      rw [held] at bit
      rw [show vc.currentModMask &&& shift = 0 from UInt32.toBitVec_inj.mp bit]
      rfl

theorem isShifted_mask (vc : VirtualConsole) (e : KeyEvent) :
    isShifted { vc with currentModMask := e.mask vc.currentModMask } =
      e.shift.getD vc.isShifted := by
  rw [isShifted_eq, isShifted_eq, KeyEvent.mask]
  dsimp only
  cases e.shift with
  | none => rfl
  | some pressed =>
      cases pressed with
      | true =>
          rw [UInt32.toBitVec_or, BitVec.getLsbD_or,
            show shift.toBitVec.getLsbD 1 = true by decide, Bool.or_true]
          rfl
      | false =>
          rw [UInt32.toBitVec_and, UInt32.toBitVec_not, BitVec.getLsbD_and,
            show (~~~shift.toBitVec).getLsbD 1 = false by decide, Bool.and_false]
          rfl

end VirtualConsole

section Delivery
variable {e : KeyEvent} {s : Input} {vc tty index : Nat} {ch : UInt8} {t : Terminal}

/-- What the console that is shown does with an event. -/
def reach : KeyEvent → Exec Input Unit
  | .keyUp key => PhysicalConsole.pass fun vc => VirtualConsole.keyUp vc key
  | .keyDown key => PhysicalConsole.pass fun vc => VirtualConsole.keyDown vc key

def masked (e : KeyEvent) (vc : Nat) (s : Input) : Input :=
  { s with
    consoles := update s.consoles vc
      { s.consoles vc with currentModMask := e.mask (s.consoles vc).currentModMask } }

def alted (e : KeyEvent) (s : Input) : Input :=
  { s with pc := { s.pc with altPressed := e.alt.getD s.pc.altPressed } }

theorem masked_none (e : KeyEvent) (vc : Nat) (s : Input) (quiet : e.shift = none) :
    masked e vc s = s := by
  rw [masked, KeyEvent.mask, quiet]
  dsimp only
  rw [update_eq_self]

theorem pass_some {handler : Nat → Exec Input Unit} (here : s.pc.currentVc = some vc) :
    (PhysicalConsole.pass handler).run s = (handler vc).run s := by
  unfold PhysicalConsole.pass
  rw [bind_ok (run_get_eq s), here]

theorem reach_nobody (here : s.pc.currentVc = none) : (reach e).run s = .ok ((), s) := by
  cases e with
  | keyUp key =>
      unfold reach PhysicalConsole.pass
      rw [bind_ok (run_get_eq s), here]
      rfl
  | keyDown key =>
      unfold reach PhysicalConsole.pass
      rw [bind_ok (run_get_eq s), here]
      rfl

theorem reach_silent (here : s.pc.currentVc = some vc)
    (quiet : e.character (s.consoles vc).isShifted = none) :
    (reach e).run s = .ok ((), masked e vc s) := by
  cases e with
  | keyUp key =>
      refine (pass_some here).trans ?_
      unfold VirtualConsole.keyUp
      cases shift : key.isShift with
      | true =>
          rw [if_pos rfl, masked, KeyEvent.mask, KeyEvent.shift, shift]
          rfl
      | false =>
          rw [masked_none _ _ _ (by rw [KeyEvent.shift, shift]; rfl)]
          rfl
  | keyDown key =>
      refine (pass_some here).trans ?_
      unfold VirtualConsole.keyDown
      cases shift : key.isShift with
      | true =>
          rw [if_pos rfl, masked, KeyEvent.mask, KeyEvent.shift, shift]
          rfl
      | false =>
          rw [KeyEvent.character, shift] at quiet
          rw [masked_none _ _ _ (by rw [KeyEvent.shift, shift]; rfl), if_neg Bool.false_ne_true,
            bind_ok (run_get_eq s)]
          dsimp only
          rw [show VirtualConsole.keyChar (s.consoles vc).isShifted key = none from quiet]
          rfl

theorem reach_typing (here : s.pc.currentVc = some vc)
    (typing : e.character (s.consoles vc).isShifted = some ch) :
    e.shift = none ∧ (reach e).run s =
      (match (s.consoles vc).terminal with
        | none => throw .uninitialised
        | some tty => VirtualConsole.onTty tty (Terminal.appendToReadBuffer ch) :
          Exec Input Unit).run s := by
  cases e with
  | keyUp key => cases typing
  | keyDown key =>
      cases shift : key.isShift with
      | true =>
          rw [KeyEvent.character, shift] at typing
          cases typing
      | false =>
          rw [KeyEvent.character, shift] at typing
          refine ⟨by rw [KeyEvent.shift, shift]; rfl, (pass_some here).trans ?_⟩
          unfold VirtualConsole.keyDown
          rw [shift, if_neg Bool.false_ne_true, bind_ok (run_get_eq s)]
          dsimp only
          rewrite [show VirtualConsole.keyChar (s.consoles vc).isShifted key = some ch from typing]
          rfl

theorem reach_typed (here : s.pc.currentVc = some vc)
    (typing : e.character (s.consoles vc).isShifted = some ch)
    (attached : (s.consoles vc).terminal = some tty)
    (stored : (Terminal.appendToReadBuffer ch).run (s.ttys tty) = .ok ((), t)) :
    (reach e).run s = .ok ((), { s with ttys := update s.ttys tty t }) := by
  rw [(reach_typing here typing).2, attached]
  exact zoom_run stored

theorem deliver_picks (picked : e.picks s.pc.altPressed = some index) :
    (deliver e).run s =
      match s.pc.vcs.elems[index]? with
      | none => .error .assertion
      | some vc => .ok ((), { s with pc := { s.pc with currentVc := some vc } }) := by
  have switch : ∀ i, (PhysicalConsole.switchTo i).run s =
      match s.pc.vcs.elems[i]? with
      | none => .error .assertion
      | some vc => .ok ((), { s with pc := { s.pc with currentVc := some vc } }) := by
    intro i
    unfold PhysicalConsole.switchTo
    rw [bind_ok (run_get_eq s)]
    cases s.pc.vcs.elems[i]? with
    | none => rfl
    | some vc => rfl
  cases e with
  | keyUp key => cases picked
  | keyDown key =>
      unfold deliver PhysicalConsole.keyDown
      rw [bind_ok (run_get_eq s)]
      dsimp only
      rw [KeyEvent.picks] at picked
      split_ifs at picked ⊢ with first second
      · cases picked
        exact switch 0
      · cases picked
        exact switch 1

theorem deliver_reaches (passed : e.picks s.pc.altPressed = none) :
    (deliver e).run s = (reach e).run (alted e s) := by
  cases e with
  | keyUp key =>
      unfold deliver PhysicalConsole.keyUp
      rw [alted, KeyEvent.alt]
      dsimp only
      cases key.isAlt with
      | true => rfl
      | false => rfl
  | keyDown key =>
      unfold deliver PhysicalConsole.keyDown
      rw [bind_ok (run_get_eq s), alted, KeyEvent.alt]
      dsimp only
      rw [KeyEvent.picks] at passed
      split_ifs at passed ⊢
      all_goals rfl

end Delivery

/-! ### Runs -/

inductive InputEvent where
  | key (scancode : UInt8)
  | read (tty : Nat) (byte : Option UInt8)
  deriving DecidableEq

/-- Interrupts of the keyboard and rounds of readers, in any order. -/
inductive Input.Runs (s₀ : Input) : List InputEvent → Input → Prop
  | refl : Runs s₀ [] s₀
  | key {past : List InputEvent} {s s' : Input} {scancode : UInt8} : Runs s₀ past s →
      (handleKeyEvent scancode).run s = .ok ((), s') → Runs s₀ (.key scancode :: past) s'
  | read {past : List InputEvent} {s s' : Input} {tty : Nat} {byte : Option UInt8} :
      Runs s₀ past s → (readTty tty).run s = .ok (byte, s') → Runs s₀ (.read tty byte :: past) s'

def keyEvents : List InputEvent → List KeyEvent
  | [] => []
  | .key scancode :: past => (keyEvent scancode).toOption.toList ++ keyEvents past
  | .read _ _ :: past => keyEvents past

/-- What was read from a terminal, the first byte first. -/
def received (tty : Nat) : List InputEvent → List UInt8
  | [] => []
  | .key _ :: past => received tty past
  | .read t byte :: past => received tty past ++ if t = tty then byte.toList else []

/-- The terminal belongs to this console and no other. -/
def Wired (s₀ : Input) (tty vc : Nat) : Prop :=
  ∀ v, (s₀.consoles v).terminal = some tty ↔ v = vc

/-- What the state keeps of the events. -/
structure Keeps (s₀ : Input) (past : List KeyEvent) (s : Input) : Prop where
  sink : s.sink = true
  vcs : s.pc.vcs = s₀.pc.vcs
  alt : s.pc.altPressed = altHeld s₀ past
  current : s.pc.currentVc = shownVc s₀ past
  shift : ∀ v, (s.consoles v).isShifted = shiftHeld s₀ v (reaching s₀ v past)
  wiring : ∀ v, (s.consoles v).terminal = (s₀.consoles v).terminal
  bounded : ∀ t, (s.ttys t).Bounded

/-- A terminal gets a character or is left alone. -/
def Appends (ch : Option UInt8) (t t' : Terminal) : Prop :=
  match ch with
  | none => t' = t
  | some ch => (Terminal.appendToReadBuffer ch).run t = .ok ((), t')

section Step
variable {s₀ s s' : Input} {e : KeyEvent} {past reached : List KeyEvent} {v index : Nat}

theorem altHeld_cons : altHeld s₀ (e :: past) = e.alt.getD (altHeld s₀ past) := by
  rw [altHeld, List.findSome?_cons]
  cases e.alt with
  | none => rfl
  | some pressed => rfl

theorem shiftHeld_cons :
    shiftHeld s₀ v (e :: reached) = e.shift.getD (shiftHeld s₀ v reached) := by
  rw [shiftHeld, List.findSome?_cons]
  cases e.shift with
  | none => rfl
  | some pressed => rfl

theorem alt_of_picks {held : Bool} (picked : e.picks held = some index) : e.alt = none := by
  cases e with
  | keyUp key => cases picked
  | keyDown key =>
      rw [KeyEvent.picks] at picked
      split_ifs at picked with first second
      · rw [first.1]
        rfl
      · rw [second.1]
        rfl

theorem shownVc_picks (picked : e.picks (altHeld s₀ past) = some index) :
    shownVc s₀ (e :: past) = s₀.pc.vcs.elems[index]? := by
  rw [shownVc, picked]

theorem shownVc_reaches (passed : e.picks (altHeld s₀ past) = none) :
    shownVc s₀ (e :: past) = shownVc s₀ past := by
  rw [shownVc, passed]

theorem reaching_picks (picked : e.picks (altHeld s₀ past) = some index) (v : Nat) :
    reaching s₀ v (e :: past) = reaching s₀ v past := by
  rw [reaching, if_neg]
  rintro ⟨none, _⟩
  cases none.symm.trans picked

theorem Keeps.picks (h : Keeps s₀ past s) (picked : e.picks (altHeld s₀ past) = some index)
    (run : (deliver e).run s = .ok ((), s')) :
    Keeps s₀ (e :: past) s' ∧ s'.ttys = s.ttys := by
  rw [deliver_picks (h.alt ▸ picked), h.vcs] at run
  cases place : s₀.pc.vcs.elems[index]? with
  | none =>
      rw [place] at run
      cases run
  | some vc =>
      rw [place] at run
      cases run
      refine ⟨⟨h.sink, h.vcs, ?_, ?_, fun v => ?_, h.wiring, h.bounded⟩, rfl⟩
      · rw [altHeld_cons, alt_of_picks picked]
        exact h.alt
      · rw [shownVc_picks picked, place]
      · rw [reaching_picks picked]
        exact h.shift v

theorem Keeps.reaches (h : Keeps s₀ past s) (passed : e.picks (altHeld s₀ past) = none)
    (run : (deliver e).run s = .ok ((), s')) :
    Keeps s₀ (e :: past) s' ∧ ∀ tty,
      Appends (match shownVc s₀ past with
        | none => none
        | some vc => if (s₀.consoles vc).terminal = some tty then
            e.character (shiftHeld s₀ vc (reaching s₀ vc past)) else none)
        (s.ttys tty) (s'.ttys tty) := by
  rw [deliver_reaches (h.alt ▸ passed)] at run
  have alt : e.alt.getD s.pc.altPressed = altHeld s₀ (e :: past) := by rw [altHeld_cons, h.alt]
  have current := (shownVc_reaches passed).symm ▸ h.current
  cases here : shownVc s₀ past with
  | none =>
      have nobody : (alted e s).pc.currentVc = none := h.current.trans here
      rw [reach_nobody nobody] at run
      cases run
      refine ⟨⟨h.sink, h.vcs, alt, current, fun v => ?_, h.wiring, h.bounded⟩, fun _ => rfl⟩
      rw [reaching, here, if_neg (fun both => nomatch both.2)]
      exact h.shift v
  | some vc =>
      have current' : (alted e s).pc.currentVc = some vc := h.current.trans here
      have others : ∀ v, v ≠ vc → reaching s₀ v (e :: past) = reaching s₀ v past := by
        intro v apart
        rw [reaching, here, if_neg]
        rintro ⟨_, same⟩
        exact apart (Option.some.inj same).symm
      have this : reaching s₀ vc (e :: past) = e :: reaching s₀ vc past := by
        rw [reaching, if_pos ⟨passed, here⟩]
      have held := h.shift vc
      cases typing : e.character (s.consoles vc).isShifted with
      | none =>
          rw [reach_silent current' typing] at run
          cases run
          refine ⟨⟨h.sink, h.vcs, alt, current, fun v => ?_, fun v => ?_, h.bounded⟩, fun tty => ?_⟩
          · dsimp only [masked, alted]
            by_cases same : v = vc
            · subst same
              rw [update_self, VirtualConsole.isShifted_mask, this, shiftHeld_cons, held]
            · rw [update_of_ne same, others v same]
              exact h.shift v
          · dsimp only [masked, alted]
            by_cases same : v = vc
            · subst same
              rw [update_self]
              exact h.wiring v
            · rw [update_of_ne same]
              exact h.wiring v
          · dsimp only
            rw [← held, typing, ite_self]
            rfl
      | some ch =>
          have quiet := (reach_typing current' typing).1
          cases attached : (s.consoles vc).terminal with
          | none =>
              rw [(reach_typing current' typing).2, show
                ((alted e s).consoles vc).terminal = none from attached] at run
              cases run
          | some tty =>
              obtain ⟨t, stored, bounded, _⟩ := (h.bounded tty).append_run ch
              rw [reach_typed current' typing attached stored] at run
              cases run
              refine ⟨⟨h.sink, h.vcs, alt, current, fun v => ?_, h.wiring, fun tty' => ?_⟩,
                fun tty' => ?_⟩
              · by_cases same : v = vc
                · subst same
                  rw [this, shiftHeld_cons, quiet]
                  exact held
                · rw [others v same]
                  exact h.shift v
              · dsimp only [alted]
                by_cases same : tty' = tty
                · rw [same, update_self]
                  exact bounded
                · rw [update_of_ne same]
                  exact h.bounded tty'
              · dsimp only [alted]
                rw [← h.wiring vc, attached, ← held, typing]
                by_cases same : tty' = tty
                · rw [if_pos (congrArg some same.symm), same, update_self]
                  exact stored
                · rw [if_neg fun other => same (Option.some.inj other).symm, update_of_ne same]
                  rfl

theorem Keeps.event (h : Keeps s₀ past s) {tty vc : Nat} (wired : Wired s₀ tty vc)
    (run : (deliver e).run s = .ok ((), s')) :
    Keeps s₀ (e :: past) s' ∧ ∃ ch : Option UInt8,
      typed s₀ vc (reaching s₀ vc (e :: past)) =
        typed s₀ vc (reaching s₀ vc past) ++ ch.toList ∧
      Appends ch (s.ttys tty) (s'.ttys tty) := by
  cases picked : e.picks (altHeld s₀ past) with
  | some index =>
      obtain ⟨keeps, same⟩ := h.picks picked run
      refine ⟨keeps, none, ?_, congrFun same tty⟩
      rw [reaching_picks picked]
      exact (List.append_nil _).symm
  | none =>
      obtain ⟨keeps, appends⟩ := h.reaches picked run
      refine ⟨keeps, _, ?_, appends tty⟩
      rw [reaching]
      cases here : shownVc s₀ past with
      | none =>
          rw [if_neg fun both => nomatch both.2]
          exact (List.append_nil _).symm
      | some vc' =>
          dsimp only
          by_cases same : vc' = vc
          · subst same
            rw [if_pos ⟨picked, rfl⟩, if_pos ((wired vc').mpr rfl)]
            rfl
          · rw [if_neg fun both => same (Option.some.inj both.2),
              if_neg fun attached => same ((wired vc').mp attached)]
            exact (List.append_nil _).symm

theorem Keeps.of_handleKeyEvent_ok (h : Keeps s₀ past s) {scancode : UInt8}
    (run : (handleKeyEvent scancode).run s = .ok ((), s')) :
    ∃ e, keyEvent scancode = .ok e ∧ (deliver e).run s = .ok ((), s') := by
  unfold handleKeyEvent at run
  rw [bind_ok (run_get_eq s), if_pos h.sink] at run
  cases decoded : keyEvent scancode with
  | error f =>
      rw [decoded] at run
      cases run
  | ok e =>
      rw [decoded, bind_ok (lift_ok e s)] at run
      exact ⟨e, rfl, run⟩

theorem Keeps.read (h : Keeps s₀ past s) {tty : Nat} {byte : Option UInt8}
    (run : (readTty tty).run s = .ok (byte, s')) :
    Keeps s₀ past s' ∧ byte = (s.ttys tty).contents.head? ∧
      (s'.ttys tty).contents = (s.ttys tty).contents.tail ∧
      ∀ t, t ≠ tty → s'.ttys t = s.ttys t := by
  obtain ⟨t, call, rfl⟩ := of_zoom_ok run
  obtain ⟨t', call', bounded, rest⟩ := (h.bounded tty).readElem_run
  cases call'.symm.trans call
  refine ⟨⟨h.sink, h.vcs, h.alt, h.current, h.shift, h.wiring, fun t => ?_⟩, rfl, ?_,
    fun t other => update_of_ne other ..⟩
  · dsimp only
    by_cases same : t = tty
    · rw [same, update_self]
      exact bounded
    · rw [update_of_ne same]
      exact h.bounded t
  · dsimp only
    rw [update_self]
    exact rest

end Step

section Runs
variable {s₀ s : Input} {past : List InputEvent} {tty vc : Nat}

theorem Keeps.refl (sink : s₀.sink = true) (bounded : ∀ t, (s₀.ttys t).Bounded) :
    Keeps s₀ [] s₀ := ⟨sink, rfl, rfl, rfl, fun _ => rfl, fun _ => rfl, bounded⟩

theorem Input.Runs.keeps (runs : s₀.Runs past s) (start : Keeps s₀ [] s₀) :
    Keeps s₀ (keyEvents past) s := by
  induction runs with
  | refl => exact start
  | key _ run ih =>
      obtain ⟨e, decoded, run⟩ := ih.of_handleKeyEvent_ok run
      rw [keyEvents, decoded]
      cases picked : e.picks (altHeld s₀ _) with
      | some index => exact (ih.picks picked run).1
      | none => exact (ih.reaches picked run).1
  | read _ run ih => exact (ih.read run).1

theorem Appends.contents {ch : Option UInt8} {t t' : Terminal} (h : Appends ch t t')
    (bounded : t.Bounded) :
    t'.contents.Sublist (t.contents ++ ch.toList) ∧
      (t.contents.length + ch.toList.length ≤ 63 → t'.contents = t.contents ++ ch.toList) := by
  cases ch with
  | none =>
      rw [show t' = t from h, Option.toList_none, List.append_nil]
      exact ⟨.refl _, fun _ => rfl⟩
  | some ch =>
      obtain ⟨t₁, stored, _, contents⟩ := bounded.append_run ch
      cases stored.symm.trans h
      rw [contents, Option.toList_some, List.length_singleton]
      split_ifs with full
      · exact ⟨List.nil_sublist _, fun room => absurd room (by omega)⟩
      · exact ⟨.refl _, fun _ => rfl⟩

/-- What readers got from a terminal and what they can still get was typed on its console, in this
order; nothing is missing while they are at most 63 characters behind. -/
theorem terminal_input (sink : s₀.sink = true) (bounded : ∀ t, (s₀.ttys t).Bounded)
    (wired : Wired s₀ tty vc) (runs : s₀.Runs past s) :
    (received tty past ++ (s.ttys tty).contents).Sublist
        ((s₀.ttys tty).contents ++ typed s₀ vc (reaching s₀ vc (keyEvents past))) ∧
      ((∀ earlier, earlier <:+ past →
          (s₀.ttys tty).contents.length +
              (typed s₀ vc (reaching s₀ vc (keyEvents earlier))).length ≤
            (received tty earlier).length + 63) →
        received tty past ++ (s.ttys tty).contents =
          (s₀.ttys tty).contents ++ typed s₀ vc (reaching s₀ vc (keyEvents past))) := by
  have start := Keeps.refl sink bounded
  induction runs with
  | refl =>
      rw [keyEvents, reaching, typed, received, List.append_nil, List.nil_append]
      exact ⟨.refl _, fun _ => rfl⟩
  | @key past s s' scancode runs run ih =>
      obtain ⟨kept, all⟩ := ih
      have keeps := runs.keeps start
      obtain ⟨e, decoded, run⟩ := keeps.of_handleKeyEvent_ok run
      obtain ⟨_, ch, more, appends⟩ := keeps.event wired run
      obtain ⟨sub, same⟩ := appends.contents (keeps.bounded tty)
      have events : keyEvents (.key scancode :: past) = e :: keyEvents past := by
        rw [keyEvents, decoded]
        rfl
      rw [received, events, more, ← List.append_assoc]
      refine ⟨?_, fun close => ?_⟩
      · refine (sub.append_left (received tty past)).trans ?_
        rw [← List.append_assoc]
        exact kept.append_right _
      · have before := all fun earlier suffix => close earlier (suffix.trans (List.suffix_cons ..))
        have now := close _ List.suffix_rfl
        rw [events, more, received, List.length_append] at now
        have lengths := congrArg List.length before
        rw [List.length_append, List.length_append] at lengths
        rw [same (by omega), ← List.append_assoc, before]
  | @read past s s' t byte runs run ih =>
      obtain ⟨kept, all⟩ := ih
      obtain ⟨_, first, rest, others⟩ := (runs.keeps start).read run
      have same : received tty (.read t byte :: past) ++ (s'.ttys tty).contents =
          received tty past ++ (s.ttys tty).contents := by
        rw [received, List.append_assoc]
        congr 1
        split_ifs with here
        · subst here
          rw [first, rest]
          cases (s.ttys t).contents with
          | nil => rfl
          | cons c cs => rfl
        · rw [others tty (Ne.symm here)]
          rfl
      rw [same, keyEvents]
      exact ⟨kept, fun close => all fun earlier suffix =>
        close earlier (suffix.trans (List.suffix_cons ..))⟩

theorem activateConsole_ok {memory : Nat → Vector UInt8 64}
    (run : activateConsole.run (Input.constructed memory) = .ok ((), s₀)) :
    Keeps s₀ [] s₀ ∧ s₀.pc.vcs.elems = [0, 1] ∧ s₀.pc.currentVc = some 0 ∧
      Wired s₀ 0 0 ∧ Wired s₀ 1 1 ∧ ∀ t, (s₀.ttys t).contents = [] := by
  cases run
  refine ⟨.refl rfl fun t => Terminal.Bounded.new _, rfl, rfl, fun v => ?_, fun v => ?_,
    fun t => Terminal.contents_new _⟩
  all_goals
    dsimp only [Input.constructed]
    simp only [update_apply]
    split_ifs <;> simp_all

theorem typed_length_le (s₀ : Input) (vc : Nat) (past : List InputEvent) :
    (typed s₀ vc (reaching s₀ vc (keyEvents past))).length ≤ past.length := by
  induction past with
  | nil => exact le_rfl
  | cons event past ih =>
      rw [List.length_cons]
      cases event with
      | read t byte => exact Nat.le_succ_of_le ih
      | key scancode =>
          rw [keyEvents]
          cases keyEvent scancode with
          | error f => exact Nat.le_succ_of_le ih
          | ok e =>
              change (typed s₀ vc (reaching s₀ vc (e :: keyEvents past))).length ≤ _
              rw [reaching]
              split_ifs
              · rw [typed, List.length_append]
                exact Nat.add_le_add ih (Option.length_toList_le)
              · exact Nat.le_succ_of_le ih

theorem Input.Runs.interrupts {s' : Input} {codes : List UInt8} (runs : s₀.Runs past s)
    (run : (codes.forM handleKeyEvent).run s = .ok ((), s')) :
    s₀.Runs ((codes.map InputEvent.key).reverse ++ past) s' := by
  induction codes generalizing s past with
  | nil =>
      cases run
      exact runs
  | cons code codes ih =>
      obtain ⟨_, s₁, first, rest⟩ := of_bind_ok run
      rw [List.map_cons, List.reverse_cons, List.append_assoc]
      exact ih (.key runs first) rest

/-- Shift goes down on the first console and comes up on the second one. -/
def shiftAcross : List UInt8 := [0x2a, 0x1e, 0x38, 0x3c, 0xaa, 0x1e, 0x3b, 0xb8, 0x1e]

/-- The first console still types in upper case. -/
theorem terminal_input_shift : ∃ (s₀ s : Input) (past : List InputEvent), s₀.Runs past s ∧
    received 0 past ++ (s.ttys 0).contents = [65, 65] ∧
      received 1 past ++ (s.ttys 1).contents = [97] := by
  have ran : endsWith (do activateConsole; shiftAcross.forM handleKeyEvent)
      (Input.constructed fun _ => .replicate 64 0) (fun _ _ => true) = true := by
    decide +kernel
  obtain ⟨_, s, whole, _⟩ := of_endsWith ran
  obtain ⟨_, s₀, booted, run⟩ := of_bind_ok whole
  have runs := Input.Runs.refl.interrupts run
  obtain ⟨start, _, _, wired₀, wired₁, empty⟩ := activateConsole_ok booted
  have first := (terminal_input start.sink start.bounded wired₀ runs).2
  have second := (terminal_input start.sink start.bounded wired₁ runs).2
  have close : ∀ tty vc earlier,
      earlier <:+ (shiftAcross.map InputEvent.key).reverse ++ [] → (s₀.ttys tty).contents.length +
        (typed s₀ vc (reaching s₀ vc (keyEvents earlier))).length ≤
          (received tty earlier).length + 63 := by
    intro tty vc earlier suffix
    have few : earlier.length ≤ 9 := suffix.length_le
    have most := typed_length_le s₀ vc earlier
    rw [empty, List.length_nil]
    omega
  refine ⟨s₀, s, _, runs, (first (close 0 0)).trans ?_, (second (close 1 1)).trans ?_⟩
  all_goals
    rw [empty]
    cases booted
    decide

theorem keyEvent_error_iff (scancode : UInt8) :
    (∃ f, keyEvent scancode = .error f) ↔ scancode &&& 0x7f = 0x45 := by
  have entries : scancodeMap.length = 69 := rfl
  have key : (∃ f, scancodeToKey scancode = .error f) ↔ (scancode &&& 0x7f).toNat = 69 := by
    rw [scancodeToKey, entries]
    split_ifs with large
    · exact iff_of_false (fun ⟨_, e⟩ => nomatch e) (by omega)
    · cases found : scancodeMap[(scancode &&& 0x7f).toNat]? with
      | none =>
          have behind := List.getElem?_eq_none_iff.mp found
          rw [entries] at behind
          exact iff_of_true ⟨_, rfl⟩ (by omega)
      | some key =>
          obtain ⟨inside, _⟩ := List.getElem?_eq_some_iff.mp found
          rw [entries] at inside
          exact iff_of_false (fun ⟨_, e⟩ => nomatch e) (by omega)
  rw [← UInt8.toNat_inj, keyEvent]
  refine Iff.trans ?_ key
  cases scancodeToKey scancode with
  | error f => exact iff_of_true ⟨f, rfl⟩ ⟨f, rfl⟩
  | ok key => exact iff_of_false (fun ⟨_, e⟩ => nomatch e) fun ⟨_, e⟩ => nomatch e

theorem shownVc_mem {past : List KeyEvent} {v : Nat} (here : shownVc s₀ past = some v) :
    s₀.pc.currentVc = some v ∨ v ∈ s₀.pc.vcs.elems := by
  induction past with
  | nil => exact .inl here
  | cons e past ih =>
      cases picked : e.picks (altHeld s₀ past) with
      | some index =>
          rw [shownVc_picks picked] at here
          exact .inr (List.mem_of_getElem? here)
      | none =>
          rw [shownVc_reaches picked] at here
          exact ih here

theorem picks_lt {e : KeyEvent} {held : Bool} {index : Nat} (picked : e.picks held = some index) :
    index < 2 := by
  cases e with
  | keyUp key => cases picked
  | keyDown key =>
      rw [KeyEvent.picks] at picked
      split_ifs at picked
      all_goals
        cases picked
        decide

theorem Keeps.deliver_ok {past : List KeyEvent} (h : Keeps s₀ past s) (e : KeyEvent)
    (consoles : 2 ≤ s₀.pc.vcs.elems.length)
    (attached : ∀ v, shownVc s₀ past = some v → (s₀.consoles v).terminal ≠ none) :
    ∃ s', (deliver e).run s = .ok ((), s') := by
  cases picked : e.picks s.pc.altPressed with
  | some index =>
      have there := List.getElem?_eq_getElem (Nat.lt_of_lt_of_le (picks_lt picked) consoles)
      rw [deliver_picks picked, h.vcs, there]
      exact ⟨_, rfl⟩
  | none =>
      rw [deliver_reaches picked]
      cases here : s.pc.currentVc with
      | none => exact ⟨_, reach_nobody here⟩
      | some vc =>
          cases typing : e.character (s.consoles vc).isShifted with
          | none => exact ⟨_, reach_silent here typing⟩
          | some ch =>
              obtain ⟨tty, wired⟩ := Option.ne_none_iff_exists'.mp
                (attached vc (h.current.symm.trans here))
              obtain ⟨t, stored, _⟩ := (h.bounded tty).append_run ch
              exact ⟨_, reach_typed here typing ((h.wiring vc).trans wired) stored⟩

/-- On the activated consoles no sequence of keys makes the kernel fault, but for the one key whose
scancode is the length of the table, pressed or released. -/
theorem activated_fault_iff {memory : Nat → Vector UInt8 64}
    (run : activateConsole.run (Input.constructed memory) = .ok ((), s₀))
    (runs : s₀.Runs past s) (scancode : UInt8) :
    (∃ f, (handleKeyEvent scancode).run s = .error f) ↔ scancode &&& 0x7f = 0x45 := by
  obtain ⟨start, consoles, current, wired₀, wired₁, _⟩ := activateConsole_ok run
  have keeps := runs.keeps start
  have attached : ∀ v, shownVc s₀ (keyEvents past) = some v → (s₀.consoles v).terminal ≠ none := by
    intro v here
    have which : v = 0 ∨ v = 1 := by
      obtain first | listed := shownVc_mem here
      · rw [current] at first
        exact .inl (Option.some.inj first).symm
      · rw [consoles] at listed
        simpa using listed
    obtain rfl | rfl := which
    · rw [(wired₀ 0).mpr rfl]
      exact Option.some_ne_none 0
    · rw [(wired₁ 1).mpr rfl]
      exact Option.some_ne_none 1
  rw [← keyEvent_error_iff]
  unfold handleKeyEvent
  rw [bind_ok (run_get_eq s), if_pos keeps.sink]
  cases decoded : keyEvent scancode with
  | error f => exact iff_of_true ⟨f, rfl⟩ ⟨f, rfl⟩
  | ok e =>
      obtain ⟨s', dealt⟩ := keeps.deliver_ok e (by rw [consoles]; decide) attached
      rw [bind_ok (lift_ok e s), dealt]
      exact iff_of_false (fun ⟨_, e⟩ => nomatch e) fun ⟨_, e⟩ => nomatch e

/-- Num lock comes up while the second console is shown. -/
theorem activated_fault_iff_numlock : ∃ (s₀ s : Input) (past : List InputEvent),
    s₀.Runs past s ∧ past.length = 6 ∧ s.pc.currentVc = some 1 ∧
      ∃ f, (handleKeyEvent 0xc5).run s = .error f := by
  have ran : endsWith (do activateConsole; (shiftAcross.take 6).forM handleKeyEvent)
      (Input.constructed fun _ => .replicate 64 0) (fun _ s => s.pc.currentVc = some 1) = true := by
    decide +kernel
  obtain ⟨_, s, whole, shown⟩ := of_endsWith ran
  obtain ⟨_, s₀, booted, run⟩ := of_bind_ok whole
  have runs := Input.Runs.refl.interrupts run
  refine ⟨s₀, s, _, runs, rfl, of_decide_eq_true shown, ?_⟩
  exact (activated_fault_iff booted runs 0xc5).mpr (by decide)

end Runs
end Infos.Drivers.Keyboard
