import Infos.Lib.Buffer

/-!
# Formatted output

`vsnprintf` of the kernel; the user library has the same text. The pointer `buffer` is
always `count` characters behind the start of the array, so it is kept as that index.
-/
namespace Infos.Util.Printf
open Infos.Lib

/-- A string argument; its memory ends behind the NUL. -/
structure CString where
  text : List UInt8
  proper : 0 ∉ text

def CString.memory (s : CString) : List UInt8 := s.text ++ [0]

inductive Arg where
  | word (v : UInt32)
  | long (v : UInt64)
  | str (s : CString)

/-- `va_arg` for `int`, `int32_t`, `uint32_t` and `unsigned int`. -/
def vaWord : List Arg → Except Fault (UInt32 × List Arg)
  | .word v :: args => .ok (v, args)
  | _ => .error .uninitialised

def vaLong : List Arg → Except Fault (UInt64 × List Arg)
  | .long v :: args => .ok (v, args)
  | _ => .error .uninitialised

def vaString : List Arg → Except Fault (List UInt8 × List Arg)
  | .str s :: args => .ok (s.memory, args)
  | _ => .error .uninitialised

/-- The loop of `prepend_to_buffer`. -/
def shift (buffer : Nat) : Nat → Buffer → Except Fault Buffer
  | 0, b => .ok b
  | i + 1, b => do
      let c ← b.read (buffer + i)
      shift buffer i (← b.write (buffer + i + 1) c)

def prependToBuffer (c : UInt8) (buffer size : Nat) (b : Buffer) : Except Fault Buffer := do
  let b ← shift buffer size b
  b.write buffer c

def digitChar (digitValue : Nat) : UInt8 :=
  if digitValue ≤ 9 then 48 + digitValue.toUInt8 else 97 + digitValue.toUInt8 - 10

/-- The loop over the digits, while there is `room`. -/
def appendDigits (buffer : Nat) (base : UInt64) :
    Nat → UInt64 → Nat → Buffer → Except Fault (Nat × Buffer)
  | 0, _, n, b => .ok (n, b)
  | room + 1, value, n, b =>
      if 0 < value then do
        let b ← prependToBuffer (digitChar (value % base).toNat) buffer n b
        appendDigits buffer base room (value / base) (n + 1) b
      else .ok (n, b)

/-- The loop over the padding. -/
def prependPad (buffer : Nat) (padChar : UInt8) :
    Nat → Int → Nat → Buffer → Except Fault (Nat × Buffer)
  | 0, _, n, b => .ok (n, b)
  | room + 1, pad, n, b =>
      if 0 < pad then do
        let b ← prependToBuffer padChar buffer n b
        prependPad buffer padChar room (pad - 1) (n + 1) b
      else .ok (n, b)

/-- The digits of `append_num`, the single one of 0 too. -/
def appendBody (buffer size : Nat) (value base : UInt64) (n : Nat) (b : Buffer) :
    Except Fault (Nat × Buffer) :=
  if 0 < value then appendDigits buffer base (size - n) value n b
  else if n < size then do
    let b ← prependToBuffer 48 buffer n b
    let b ← b.write buffer 48
    .ok (n + 1, b)
  else .ok (n, b)

/-- `int` arithmetic. -/
def wrap (x : Int) : Int := x.bmod (2 ^ 32)

theorem wrap_bounds (x : Int) : -2 ^ 31 ≤ wrap x ∧ wrap x < 2 ^ 31 :=
  ⟨Int.le_bmod (by decide), Int.bmod_lt (by decide)⟩

theorem wrap_eq {x : Int} (low : -2 ^ 31 ≤ x) (high : x < 2 ^ 31) : wrap x = x :=
  Int.bmod_eq_of_le low high

theorem wrap_below {x : Int} (low : -2 ^ 32 ≤ x) (high : x < -2 ^ 31) : wrap x = x + 2 ^ 32 := by
  have same : wrap x = wrap (x + 2 ^ 32) := (Int.add_bmod_right x (2 ^ 32)).symm
  rw [same]
  exact wrap_eq (by omega) (by omega)

def appendNum (buffer size : Nat) (value base : UInt64) (sgn : Bool) (pad : Int) (padChar : UInt8)
    (b : Buffer) : Except Fault (Nat × Buffer) := do
  let pad := if pad ≥ size then (size : Int) - 1 else pad
  let (n, value, b) ←
    if sgn ∧ value.toInt64 < 0 then do
      let b ← prependToBuffer 45 buffer 0 b
      .ok (1, -value, b)
    else .ok (0, value, b)
  let (n, b) ← appendBody buffer size value base n b
  prependPad buffer padChar (size - n) (wrap (pad - n)) n b

/-- The loop over the string; `text` is the memory from the pointer. -/
def copyText (buffer : Nat) : Nat → List UInt8 → Nat → Buffer → Except Fault (Nat × Buffer)
  | _, [], _, _ => .error .outOfBounds
  | room, c :: text, n, b =>
      if c ≠ 0 ∧ 0 < room then do
        copyText buffer (room - 1) text (n + 1) (← b.write (buffer + n) c)
      else .ok (n, b)

def appendPad (buffer : Nat) (pad : Int) (padChar : UInt8) :
    Nat → Nat → Buffer → Except Fault (Nat × Buffer)
  | 0, n, b => .ok (n, b)
  | room + 1, n, b =>
      if n < pad then do
        appendPad buffer pad padChar room (n + 1) (← b.write (buffer + n) padChar)
      else .ok (n, b)

def appendStr (buffer size : Nat) (text : List UInt8) (pad : Int) (padChar : UInt8) (b : Buffer) :
    Except Fault (Nat × Buffer) := do
  let (n, b) ← copyText buffer size text 0 b
  appendPad buffer pad padChar (size - n) n b

/-- What was read of a conversion. -/
structure Spec where
  padSize : Int := 0
  padChar : UInt8 := 32
  numberSize : Nat := 4

def Spec.zero (spec : Spec) : Spec :=
  if 0 < spec.padSize then { spec with padSize := wrap (spec.padSize * 10) }
  else { spec with padChar := 48 }

def Spec.digit (spec : Spec) (c : UInt8) : Spec :=
  { spec with padSize := wrap (wrap (spec.padSize * 10) + ((c.toNat : Int) - 48)) }

def Spec.long (spec : Spec) : Spec := { spec with numberSize := 8 }

/-- The value of `%d` and `%u`. -/
def vaDecimal (spec : Spec) (signed : Bool) (args : List Arg) : Except Fault (UInt64 × List Arg) :=
  if spec.numberSize = 8 then vaLong args
  else do
    let (v, args) ← vaWord args
    .ok (if signed then v.toInt32.toInt64.toUInt64 else v.toUInt64, args)

/-- The value of `%b`, `%x` and `%p`. -/
def vaUnsigned (spec : Spec) (pointer : Bool) (args : List Arg) :
    Except Fault (UInt64 × List Arg) :=
  if spec.numberSize = 8 ∨ pointer then vaLong args
  else do
    let (v, args) ← vaWord args
    .ok (v.toUInt64, args)

def finish (count : Nat) (b : Buffer) : Except Fault (Nat × Buffer) := do
  let b ← b.write count 0
  .ok (count, b)

/-- The loop, one character of the format at a time; `fmt` is the memory from the pointer, and
inside a conversion there is a `spec`. -/
def vsnprintfLoop (size : Nat) :
    List UInt8 → Option Spec → List Arg → Nat → Buffer → Except Fault (Nat × Buffer)
  | [], _, _, _, _ => .error .outOfBounds
  | c :: fmt, none, args, count, b =>
      if c ≠ 0 ∧ count < size - 1 then
        if c = 37 then vsnprintfLoop size fmt (some {}) args count b
        else do vsnprintfLoop size fmt none args (count + 1) (← b.write count c)
      else finish count b
  | c :: fmt, some spec, args, count, b =>
      -- a `continue` at the NUL leaves the loop
      if c = 0 then finish count b
      else if c = 48 then vsnprintfLoop size fmt (some spec.zero) args count b
      else if 49 ≤ c ∧ c ≤ 57 then vsnprintfLoop size fmt (some (spec.digit c)) args count b
      else if c = 100 ∨ c = 117 then do
        let (v, args) ← vaDecimal spec (c = 100) args
        let (rc, b) ← appendNum count (size - 1 - count) v 10 (c = 100) spec.padSize spec.padChar b
        vsnprintfLoop size fmt none args (count + rc) b
      else if c = 98 ∨ c = 120 ∨ c = 112 then do
        let (v, args) ← vaUnsigned spec (c = 112) args
        let (count, b) ←
          if c = 112 then do
            let (rc, b) ← appendStr count (size - 1 - count) [48, 120, 0] 0 32 b
            .ok (count + rc, b)
          else .ok (count, b)
        let (rc, b) ← appendNum count (size - 1 - count) v (if c = 98 then 2 else 16) false
          spec.padSize spec.padChar b
        vsnprintfLoop size fmt none args (count + rc) b
      else if c = 108 then vsnprintfLoop size fmt (some spec.long) args count b
      else if c = 115 then do
        let (text, args) ← vaString args
        let (rc, b) ← appendStr count (size - 1 - count) text spec.padSize spec.padChar b
        vsnprintfLoop size fmt none args (count + rc) b
      else if c = 99 then do
        let (v, args) ← vaWord args
        vsnprintfLoop size fmt none args (count + 1) (← b.write count v.toUInt8)
      else do vsnprintfLoop size fmt none args (count + 1) (← b.write count c)

/-- The count that is returned, and the array. -/
def vsnprintf (b : Buffer) (size : Nat) (fmt : List UInt8) (args : List Arg) :
    Except Fault (Nat × Buffer) :=
  if size = 0 then .ok (0, b) else vsnprintfLoop size fmt none args 0 b

end Infos.Util.Printf
