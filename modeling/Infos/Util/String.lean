import Infos.Lib.Exec

/-!
# Strings

A string is the list of its bytes, without the terminator. `char` is signed.
-/
namespace Infos.Util
open Infos.Lib

/-- `hash_type` is a `uint64_t`; keys are compared as numbers. -/
abbrev HashType := Nat

/-- `_data[i]` is promoted with its sign. -/
def computeHash (data : List UInt8) : UInt64 :=
  data.foldl (fun hash c => (hash ^^^ c.toInt8.toInt64.toUInt64) * 1099511628211)
    14695981039346656037

def getHash (data : List UInt8) : HashType := (computeHash data).toNat

/-- The string that starts at a pointer; `bytes` is the memory from there to the end of its
object. -/
def cString (bytes : List UInt8) : Except Fault (List UInt8) :=
  if 0 ∈ bytes then .ok (bytes.takeWhile (· ≠ 0)) else .error .outOfBounds

theorem cString_append {s rest : List UInt8} (h : 0 ∉ s) : cString (s ++ 0 :: rest) = .ok s := by
  rw [cString, if_pos (by simp), List.takeWhile_append_of_pos, List.takeWhile_cons_of_neg (by simp),
    List.append_nil]
  intro c hc
  exact decide_eq_true fun e => h (e ▸ hc)

end Infos.Util
