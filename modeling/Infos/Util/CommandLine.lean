import Infos.Fs.Vfs
import Infos.Lib.Buffer
import Infos.Lib.Paths

/-!
# The kernel command line

`parse` copies one setting after another into a local array and `process` splits it
into a key and a value. A string is given by its bytes up to the NUL.
-/
namespace Infos.Util
open Infos.Lib
open Infos.Fs.Vfs (strncmp strncmpLoop)

/-- `match` is NULL or a string; a function is known by `fn`. -/
structure CommandLineArgumentRegistration (φ : Type) where
  matchString : Option (List UInt8)
  fn : φ

namespace CommandLine
variable {φ : Type}

def findRegistration (key : List UInt8) :
    List (CommandLineArgumentRegistration φ) → Option (CommandLineArgumentRegistration φ)
  | [] => none
  | rgn :: rest =>
      match rgn.matchString with
      | none => findRegistration key rest
      | some string => if strncmp string key 256 = 0 then some rgn else findRegistration key rest

/-- The first loop of `process`: the rest of the setting, `i` and `key`. -/
def copyKey : List UInt8 → Nat → Buffer → Except Fault (List UInt8 × Nat × Buffer)
  | [], i, key => .ok ([], i, key)
  | c :: setting, i, key =>
      if c ≠ 61 ∧ i < 63 then do copyKey setting (i + 1) (← key.write i c)
      else .ok (c :: setting, i, key)

/-- The second loop, which steps over every `=`. -/
def copyValue : List UInt8 → Nat → Buffer → Except Fault (Nat × Buffer)
  | [], i, value => .ok (i, value)
  | c :: setting, i, value =>
      if i < 63 then
        if c = 61 then copyValue setting i value
        else do copyValue setting (i + 1) (← value.write i c)
      else .ok (i, value)

/-- The function that is called, with its argument. -/
def process (regs : List (CommandLineArgumentRegistration φ)) (setting : List UInt8) :
    Except Fault (Option (φ × List UInt8)) := do
  let (setting, i, key) ← copyKey setting 0 (.new 64)
  let key ← key.write i 0
  let (i, value) ← copyValue setting 0 (.new 64)
  let value ← value.write i 0
  match findRegistration (← key.cString) regs with
  | none => .ok none
  | some reg => .ok (some (reg.fn, ← value.cString))

/-- The loop of `parse` from a place in the command line, with the calls made so far. -/
def parseLoop (regs : List (CommandLineArgumentRegistration φ)) :
    Nat → List UInt8 → Buffer → List (φ × List UInt8) → Except Fault (List (φ × List UInt8))
  | 0, _, _, _ => .error .outOfFuel
  | _ + 1, [], _, calls => .ok calls
  | fuel + 1, c :: cmdline, setting, calls => do
      let cmdline := (c :: cmdline).dropWhile (· = 32)
      let (cmdline, i, setting) ← Buffer.copyToken 32 cmdline setting
      if i = 0 then .ok calls
      else do
        let call ← process regs (← setting.cString)
        parseLoop regs fuel cmdline setting (calls ++ call.toList)

/-- The calls that `parse` makes; it always returns `true`. -/
def parse (regs : List (CommandLineArgumentRegistration φ)) (cmdline : List UInt8) :
    Except Fault (List (φ × List UInt8)) :=
  parseLoop regs (cmdline.length + 1) cmdline (.new 128) []

/-! ### One setting -/

/-- What `process` takes for the key and for the value. -/
def keyOf (setting : List UInt8) : List UInt8 := (setting.takeWhile (· ≠ 61)).take 63

def valueOf (setting : List UInt8) : List UInt8 :=
  ((setting.drop (keyOf setting).length).filter (· ≠ 61)).take 63

def invocation (regs : List (CommandLineArgumentRegistration φ)) (setting : List UInt8) :
    Option (φ × List UInt8) :=
  (findRegistration (keyOf setting) regs).map fun reg => (reg.fn, valueOf setting)

section Process
variable {regs : List (CommandLineArgumentRegistration φ)} {setting front s t : List UInt8}
  {b : Buffer} {i n : Nat}

theorem strncmpLoop_eq_zero (same : s.length = t.length) (long : s.length ≤ n) :
    strncmpLoop s t n = 0 ↔ s = t := by
  induction s generalizing t n with
  | nil =>
      have empty : t = [] := List.length_eq_zero_iff.mp same.symm
      simp [empty, strncmpLoop]
  | cons c s ih =>
      cases t with
      | nil => cases same
      | cons d t =>
          cases n with
          | zero => simp at long
          | succ n =>
              have rest := ih (t := t) (n := n) (by simpa using same) (by simpa using long)
              by_cases differ : c = d <;> simp [strncmpLoop, differ, rest]

theorem strncmp_eq_zero (long : t.length ≤ n) : strncmp s t n = 0 ↔ s = t := by
  unfold strncmp
  by_cases same : s.length = t.length
  · rw [if_neg (not_not.mpr same)]
    exact strncmpLoop_eq_zero same (same ▸ long)
  · rw [if_pos same]
    exact iff_of_false (by decide) fun e => same (congrArg List.length e)

theorem findRegistration_eq (short : t.length ≤ 256) :
    findRegistration t regs = regs.find? fun reg => reg.matchString = some t := by
  induction regs with
  | nil => rfl
  | cons rgn rest ih =>
      unfold findRegistration
      cases named : rgn.matchString with
      | none => simp [named, ih]
      | some string =>
          by_cases same : string = t <;> simp [named, same, strncmp_eq_zero short, ih]

theorem copyKey_eq (setting front : List UInt8) (b : Buffer) (size : b.length = 64)
    (written : front.length = i) (left : i + n = 63) :
    copyKey setting i (front.map some ++ b.drop i) =
      let key := (setting.takeWhile (· ≠ 61)).take n
      .ok (setting.drop key.length, i + key.length,
        (front ++ key).map some ++ b.drop (i + key.length)) := by
  induction setting generalizing front i n with
  | nil => simp [copyKey]
  | cons c setting ih =>
      unfold copyKey
      by_cases stops : c = 61
      · simp [stops]
      · cases n with
        | zero => simp [← left]
        | succ n =>
            have next := ih (front ++ [c]) (by simp [written]) ((by omega) : i + 1 + n = 63)
            rw [List.map_append, List.map_singleton] at next
            rw [if_pos ⟨stops, by omega⟩, Buffer.write_drop c (by omega) (by simpa using written)]
            refine Eq.trans next ?_
            simp [stops, Nat.add_assoc, Nat.add_comm 1]

theorem copyValue_eq (setting front : List UInt8) (b : Buffer) (size : b.length = 64)
    (written : front.length = i) (left : i + n = 63) :
    copyValue setting i (front.map some ++ b.drop i) =
      let value := (setting.filter (· ≠ 61)).take n
      .ok (i + value.length, (front ++ value).map some ++ b.drop (i + value.length)) := by
  induction setting generalizing front i n with
  | nil => simp [copyValue]
  | cons c setting ih =>
      unfold copyValue
      cases n with
      | zero => simp [← left]
      | succ n =>
          rw [if_pos (by omega)]
          by_cases separator : c = 61
          · rw [if_pos separator, ih front written left]
            simp [separator]
          · have next := ih (front ++ [c]) (by simp [written]) ((by omega) : i + 1 + n = 63)
            rw [List.map_append, List.map_singleton] at next
            rw [if_neg separator, Buffer.write_drop c (by omega) (by simpa using written)]
            refine Eq.trans next ?_
            simp [separator, Nat.add_assoc, Nat.add_comm 1]

theorem keyOf_length (setting : List UInt8) : (keyOf setting).length ≤ 63 := List.length_take_le _ _

theorem keyOf_subset (setting : List UInt8) : keyOf setting ⊆ setting :=
  fun _ mem => (List.takeWhile_sublist _).subset (List.mem_of_mem_take mem)

theorem valueOf_subset (setting : List UInt8) : valueOf setting ⊆ setting :=
  fun _ mem => List.mem_of_mem_drop (List.mem_of_mem_filter (List.mem_of_mem_take mem))

/-- `process` never faults. -/
theorem process_eq (proper : 0 ∉ setting) :
    process regs setting = .ok (invocation regs setting) := by
  have key : copyKey setting 0 (.new 64) = .ok (setting.drop (keyOf setting).length,
      (keyOf setting).length,
      (keyOf setting).map some ++ (Buffer.new 64).drop (keyOf setting).length) := by
    have copied := copyKey_eq setting [] (.new 64) (by simp) rfl (Nat.zero_add 63)
    simpa [keyOf] using copied
  have value : copyValue (setting.drop (keyOf setting).length) 0 (.new 64) =
      .ok ((valueOf setting).length,
        (valueOf setting).map some ++ (Buffer.new 64).drop (valueOf setting).length) := by
    have copied := copyValue_eq (setting.drop (keyOf setting).length) [] (.new 64) (by simp) rfl
      (Nat.zero_add 63)
    simpa [valueOf] using copied
  have room : (keyOf setting).length < (Buffer.new 64).length := by
    have := keyOf_length setting
    simp only [Buffer.length_new]
    omega
  have room' : (valueOf setting).length < (Buffer.new 64).length := by
    have : (valueOf setting).length ≤ 63 := List.length_take_le _ _
    simp only [Buffer.length_new]
    omega
  have length (s : List UInt8) : (s.map some).length = s.length := List.length_map _
  have closedKey := Buffer.write_drop 0 room (length (keyOf setting))
  have closedValue := Buffer.write_drop 0 room' (length (valueOf setting))
  rw [List.append_assoc, List.singleton_append] at closedKey closedValue
  have readKey := fun rest : Buffer =>
    Buffer.cString_append rest fun mem => proper (keyOf_subset setting mem)
  have readValue := fun rest : Buffer =>
    Buffer.cString_append rest fun mem => proper (valueOf_subset setting mem)
  unfold process invocation
  simp only [key, value, closedKey, closedValue, readKey, readValue, bind, Except.bind]
  cases findRegistration (keyOf setting) regs <;> rfl

end Process

/-! ### The command line -/

/-- The tokens of a command line. -/
abbrev settings (cmdline : List UInt8) : List (List UInt8) := components 32 cmdline

section Parse
variable {regs : List (CommandLineArgumentRegistration φ)} {cmdline : List UInt8} {b : Buffer}
  {fuel : Nat} {calls : List (φ × List UInt8)}

theorem parseLoop_eq (b : Buffer) (calls : List (φ × List UInt8)) (proper : 0 ∉ cmdline)
    (size : b.length = 128) (enough : cmdline.length < fuel) :
    parseLoop regs fuel cmdline b calls =
      if ∀ token ∈ settings cmdline, token.length < 128 then
        .ok (calls ++ (settings cmdline).filterMap (invocation regs))
      else .error .outOfBounds := by
  induction fuel generalizing cmdline b calls with
  | zero => omega
  | succ fuel ih =>
      cases cmdline with
      | nil => simp [parseLoop]
      | cons c rest =>
          unfold parseLoop
          rw [settings, ← components_dropWhile (c :: rest)]
          have within : (c :: rest).dropWhile (· = 32) ⊆ c :: rest :=
            (List.dropWhile_sublist _).subset
          have shorter : ((c :: rest).dropWhile (· = 32)).length ≤ rest.length + 1 :=
            (List.dropWhile_sublist _).length_le
          have head := List.head?_dropWhile_not (fun x : UInt8 => decide (x = 32)) (c :: rest)
          generalize (c :: rest).dropWhile (· = 32) = line at within shorter head ⊢
          simp only [Buffer.copyToken_eq, size]
          cases line with
          | nil => simp [bind, Except.bind]
          | cons d line =>
              have some : d ≠ 32 := by simpa using head
              rw [components_takeWhile (by simpa using some)]
              have left : ((d :: line).dropWhile (· ≠ 32)).length ≤ line.length := by
                simpa [some] using
                  (List.dropWhile_sublist (fun x : UInt8 => decide (x ≠ 32))).length_le
              have rest0 : 0 ∉ (d :: line).dropWhile (· ≠ 32) := fun mem =>
                proper (within ((List.dropWhile_sublist _).subset mem))
              have token0 : 0 ∉ (d :: line).takeWhile (· ≠ 32) := fun mem =>
                proper (within ((List.takeWhile_sublist _).subset mem))
              have nonempty : ((d :: line).takeWhile (· ≠ 32)).length ≠ 0 := by simp [some]
              generalize (d :: line).takeWhile (· ≠ 32) = token at token0 nonempty ⊢
              generalize (d :: line).dropWhile (· ≠ 32) = line' at rest0 left ⊢
              by_cases fits : token.length < 128
              · have next := ih
                  (token.map Option.some ++ Option.some 0 :: b.drop (token.length + 1))
                  (calls ++ (invocation regs token).toList) rest0
                  (by simp [size]; omega) (by simp at shorter enough; omega)
                have read := Buffer.cString_append (b.drop (token.length + 1)) token0
                simp only [fits, if_true, bind, Except.bind, nonempty, if_false, read,
                  process_eq token0, next]
                cases call : invocation regs token <;> simp [fits, call]
              · simp [fits, bind, Except.bind]

theorem parse_eq (proper : 0 ∉ cmdline) :
    parse regs cmdline =
      if ∀ token ∈ settings cmdline, token.length < 128 then
        .ok ((settings cmdline).filterMap (invocation regs))
      else .error .outOfBounds :=
  parseLoop_eq (.new 128) [] proper (Buffer.length_new 128) (Nat.lt_succ_self _)

end Parse

/-! ### Written settings -/

structure Setting where
  key : List UInt8
  value : List UInt8
  key_pos : key ≠ []
  key_le : key.length ≤ 63
  value_le : value.length ≤ 63
  key_proper : ∀ c ∈ key, c ≠ 0 ∧ c ≠ 32 ∧ c ≠ 61
  value_proper : ∀ c ∈ value, c ≠ 0 ∧ c ≠ 32

def Setting.text (s : Setting) : List UInt8 := s.key ++ 61 :: s.value

def spaces (n : Nat) : List UInt8 := List.replicate n 32

/-- Settings, each with the number of spaces behind it that are one too many. -/
def joined : List (Setting × Nat) → List UInt8
  | [] => []
  | [(s, _)] => s.text
  | (s, gap) :: rest => s.text ++ spaces (gap + 1) ++ joined rest

def render (lead : Nat) (line : List (Setting × Nat)) (trail : Nat) : List UInt8 :=
  spaces lead ++ joined line ++ spaces trail

/-- The first registered handler of each key, with the value. -/
def handled (regs : List (CommandLineArgumentRegistration φ)) (s : Setting) :
    Option (φ × List UInt8) :=
  (regs.find? fun reg => reg.matchString = some s.key).map fun reg => (reg.fn, s.value)

section Render
variable {regs : List (CommandLineArgumentRegistration φ)} {s : Setting}
  {line : List (Setting × Nat)} {c : UInt8}

theorem Setting.mem_text (h : c ∈ s.text) : c ≠ 0 ∧ c ≠ 32 := by
  rcases List.mem_append.mp h with key | value
  · exact ⟨(s.key_proper c key).1, (s.key_proper c key).2.1⟩
  · rcases List.mem_cons.mp value with rfl | value
    · decide
    · exact s.value_proper c value

theorem Setting.text_ne_nil (s : Setting) : s.text ≠ [] := by simp [Setting.text]

theorem Setting.text_length (s : Setting) : s.text.length < 128 := by
  have key := s.key_le
  have value := s.value_le
  simp only [Setting.text, List.length_append, List.length_cons]
  omega

theorem keyOf_text (s : Setting) : keyOf s.text = s.key := by
  have whole : s.text.takeWhile (· ≠ 61) = s.key := by
    unfold Setting.text
    rw [List.takeWhile_append_of_pos fun c mem => by simpa using (s.key_proper c mem).2.2]
    simp
  rw [keyOf, whole, List.take_of_length_le s.key_le]

/-- Every separator is taken out of the value. -/
theorem valueOf_text (s : Setting) : valueOf s.text = s.value.filter (· ≠ 61) := by
  have short : (s.value.filter (· ≠ 61)).length ≤ 63 :=
    (List.length_filter_le _ _).trans s.value_le
  rw [valueOf, keyOf_text, Setting.text, List.drop_left]
  simpa using List.take_of_length_le short

theorem invocation_text (s : Setting) :
    invocation regs s.text =
      (regs.find? fun reg => reg.matchString = some s.key).map fun reg =>
        (reg.fn, s.value.filter (· ≠ 61)) := by
  have short : s.key.length ≤ 256 := s.key_le.trans (by decide)
  rw [invocation, keyOf_text, valueOf_text, findRegistration_eq short]

theorem mem_joined (h : c ∈ joined line) : c ≠ 0 := by
  induction line using joined.induct with
  | case1 => cases h
  | case2 s gap => exact (Setting.mem_text h).1
  | case3 s gap rest more ih =>
      rw [joined.eq_3 _ _ _ more, List.mem_append, List.mem_append] at h
      rcases h with (text | space) | behind
      · exact (Setting.mem_text text).1
      · rw [List.eq_of_mem_replicate space]
        decide
      · exact ih behind

theorem proper_render (lead trail : Nat) (line : List (Setting × Nat)) :
    0 ∉ render lead line trail := by
  intro mem
  rcases List.mem_append.mp mem with front | space
  · rcases List.mem_append.mp front with space | text
    · cases List.eq_of_mem_replicate space
    · exact mem_joined text rfl
  · cases List.eq_of_mem_replicate space

theorem components_text (s : Setting) (n : Nat) (l : List UInt8) :
    components 32 (s.text ++ spaces (n + 1) ++ l) = s.text :: components 32 l := by
  have part : 32 ∉ s.text := fun mem => (Setting.mem_text mem).2 rfl
  rw [List.append_assoc, spaces, List.replicate_succ, List.cons_append,
    components_token s.text_ne_nil part fun x head => by simpa using head.symm]
  simp

theorem settings_render (lead trail : Nat) (line : List (Setting × Nat)) :
    settings (render lead line trail) = line.map fun item => item.1.text := by
  rw [settings, render, List.append_assoc, spaces, components_replicate_append]
  induction line using joined.induct with
  | case1 => exact components_seps fun x mem => List.eq_of_mem_replicate mem
  | case2 s gap =>
      have part : 32 ∉ s.text := fun mem => (Setting.mem_text mem).2 rfl
      have blank : components 32 (spaces trail) = [] :=
        components_seps fun x mem => List.eq_of_mem_replicate mem
      rw [joined, components_token s.text_ne_nil part, blank]
      · rfl
      · intro x head
        exact List.eq_of_mem_replicate (List.mem_of_head? head)
  | case3 s gap rest more ih =>
      rw [joined.eq_3 _ _ _ more, List.append_assoc, components_text, ih]
      rfl

theorem parse_render (lead trail : Nat) (line : List (Setting × Nat)) :
    parse regs (render lead line trail) =
      .ok (line.filterMap fun item => invocation regs item.1.text) := by
  rw [parse_eq (proper_render lead trail line), settings_render, if_pos]
  · rw [List.filterMap_map]
    rfl
  · intro token mem
    obtain ⟨item, _, rfl⟩ := List.mem_map.mp mem
    exact item.1.text_length

theorem filterMap_inj {α β : Type} {l : List α} {f g : α → Option β}
    (same : ∀ x ∈ l, (f x).isSome = (g x).isSome) :
    l.filterMap f = l.filterMap g ↔ ∀ x ∈ l, f x = g x := by
  induction l with
  | nil => simp
  | cons x l ih =>
      have first := same x List.mem_cons_self
      have rest := ih fun y mem => same y (List.mem_cons_of_mem x mem)
      rw [List.forall_mem_cons, ← rest]
      cases left : f x <;> cases right : g x <;> simp_all

theorem invocation_eq_handled :
    invocation regs s.text = handled regs s ↔
      ((∃ reg ∈ regs, reg.matchString = some s.key) → 61 ∉ s.value) := by
  rw [invocation_text, handled]
  cases found : regs.find? fun reg => reg.matchString = some s.key with
  | none =>
      have unknown : ¬ ∃ reg ∈ regs, reg.matchString = some s.key := by
        simpa using found
      simp [unknown]
  | some reg =>
      have known : ∃ reg ∈ regs, reg.matchString = some s.key :=
        ⟨reg, List.mem_of_find?_eq_some found, by simpa using List.find?_some found⟩
      have exact_iff : s.value.filter (· ≠ 61) = s.value ↔ 61 ∉ s.value := by
        simp only [List.filter_eq_self, decide_eq_true_eq]
        exact ⟨fun all mem => all 61 mem rfl, fun absent c mem same => absent (same ▸ mem)⟩
      simp only [known, true_implies, Option.map_some, Option.some.injEq, Prod.mk.injEq, true_and]
      exact exact_iff

/-- The command line round-trips exactly if no registered setting has a `=` in its value. -/
theorem parse_render_iff (regs : List (CommandLineArgumentRegistration φ)) (lead trail : Nat)
    (line : List (Setting × Nat)) :
    parse regs (render lead line trail) = .ok (line.filterMap fun item => handled regs item.1) ↔
      ∀ item ∈ line, (∃ reg ∈ regs, reg.matchString = some item.1.key) → 61 ∉ item.1.value := by
  rw [parse_render, Except.ok.injEq, filterMap_inj]
  · simp only [invocation_eq_handled]
  · intro item _
    rw [invocation_text, handled, Option.isSome_map, Option.isSome_map]

end Render

/-- The setting `k=a=b`. -/
def separated : Setting where
  key := [107]
  value := [97, 61, 98]
  key_pos := by decide
  key_le := by decide
  value_le := by decide
  key_proper := by simp
  value_proper := by simp

/-- The handler of `k` gets `ab`. -/
theorem parse_separated :
    parse [⟨some [107], ()⟩] (render 0 [(separated, 0)] 0) = .ok [((), [97, 98])] ∧
      ¬ ∀ (regs : List (CommandLineArgumentRegistration Unit)) (lead trail : Nat)
        (line : List (Setting × Nat)),
        parse regs (render lead line trail) =
          .ok (line.filterMap fun item => handled regs item.1) := by
  have run : parse [⟨some [107], ()⟩] (render 0 [(separated, 0)] 0) = .ok [((), [97, 98])] := by
    rw [parse_render]
    decide
  refine ⟨run, fun all => ?_⟩
  have same := run.symm.trans (all [⟨some [107], ()⟩] 0 0 [(separated, 0)])
  revert same
  decide
end CommandLine
end Infos.Util
