import Infos.Lib.Machine
import Infos.Util.String
import Infos.Util.StringSplit

/-!
# String objects

`String` with its size, its block of memory and its cached hash. Objects and blocks have
numbers, and a block that was deleted is not there any more.
-/
namespace Infos.Util.StringObjects
open Infos.Lib Function
open Infos.Util.StringSplit (plusChar split)

abbrev ObjectId := Nat

abbrev BlockId := Nat

structure StringObject where
  size : Nat
  data : Option BlockId
  hasHash : Bool
  hash : UInt64

structure Heap where
  objects : ObjectId → Option StringObject
  nextObject : ObjectId
  blocks : BlockId → Option (List UInt8)
  nextBlock : BlockId

/-! ### Memory -/

/-- `new char[]`, with what is then stored in it. -/
def alloc (bytes : List UInt8) : Exec Heap BlockId := do
  let s ← get
  set { s with blocks := update s.blocks s.nextBlock (some bytes), nextBlock := s.nextBlock + 1 }
  pure s.nextBlock

def delete : Option BlockId → Exec Heap Unit
  | none => pure ()
  | some b => do
      let s ← get
      match s.blocks b with
      | none => throw .useAfterFree
      | some _ => set { s with blocks := update s.blocks b none }

def object (id : ObjectId) : Exec Heap StringObject := do
  match (← get).objects id with
  | none => throw .useAfterFree
  | some o => pure o

def setObject (id : ObjectId) (o : StringObject) : Exec Heap Unit :=
  modify fun s => { s with objects := update s.objects id (some o) }

def newObject (o : StringObject) : Exec Heap ObjectId := do
  let s ← get
  set { s with objects := update s.objects s.nextObject (some o), nextObject := s.nextObject + 1 }
  pure s.nextObject

/-- `_data[0]` to `_data[_size - 1]`. The index is an `unsigned int`, which never gets to a larger
size. -/
def Heap.bytes (s : Heap) (o : StringObject) : Except Fault (List UInt8) :=
  if 2 ^ 32 ≤ o.size then .error .outOfFuel
  else if o.size = 0 then .ok []
  else
    match o.data with
    | none => .error .nullDeref
    | some b =>
        match s.blocks b with
        | none => .error .useAfterFree
        | some bytes =>
            if o.size ≤ bytes.length then .ok (bytes.take o.size) else .error .outOfBounds

def readBytes (o : StringObject) : Exec Heap (List UInt8) := do
  let s ← get
  lift (s.bytes o)

/-! ### Constructors and assignments -/

/-- A new string without a hash. -/
def newString (bytes : List UInt8) : Exec Heap ObjectId := do
  let data ← alloc (bytes ++ [0])
  newObject ⟨bytes.length, some data, false, 0⟩

/-- `str` is given by its bytes up to the NUL. -/
def ofCString (str : List UInt8) : Exec Heap ObjectId :=
  if 2 ^ 32 ≤ str.length then throw .outOfFuel else newString str

def copyConstruct (str : ObjectId) : Exec Heap ObjectId := do
  let str ← object str
  let bytes ← readBytes str
  let data ← alloc (bytes ++ [0])
  newObject ⟨str.size, some data, str.hasHash, str.hash⟩

/-- `_hash` is initialised with `_has_hash`. -/
def moveConstruct (str : ObjectId) : Exec Heap ObjectId := do
  let str ← object str
  newObject ⟨str.size, str.data, str.hasHash, if str.hasHash then 1 else 0⟩

def destroy (this : ObjectId) : Exec Heap Unit := do
  let o ← object this
  delete o.data
  modify fun s => { s with objects := update s.objects this none }

def assign (this s : ObjectId) : Exec Heap Unit :=
  if this = s then pure ()
  else do
    let o ← object this
    delete o.data
    let str ← object s
    let bytes ← readBytes str
    let data ← alloc (bytes ++ [0])
    setObject this ⟨str.size, some data, false, o.hash⟩

/-- The source keeps its flag and its hash. -/
def moveAssign (this s : ObjectId) : Exec Heap Unit :=
  if this = s then pure ()
  else do
    let o ← object this
    delete o.data
    let str ← object s
    setObject this ⟨str.size, str.data, str.hasHash, str.hash⟩
    setObject s ⟨0, none, str.hasHash, str.hash⟩

/-! ### The other operations -/

/-- `operator+` of two strings, with the sizes of `plusChar`. -/
def plus (l r : List UInt8) : Except Fault (List UInt8) :=
  let newSize := (l.length + r.length) % 2 ^ 32
  let bytes := (newSize + 1) % 2 ^ 32
  if l.length + r.length ≤ bytes ∧ newSize < bytes then .ok (l ++ r) else .error .outOfBounds

def concat (l r : ObjectId) : Exec Heap ObjectId := do
  let left ← readBytes (← object l)
  let right ← readBytes (← object r)
  newString (← lift (plus left right))

def concatChar (l : ObjectId) (r : UInt8) : Exec Heap ObjectId := do
  let left ← readBytes (← object l)
  newString (← lift (plusChar left r))

def newStrings : List (List UInt8) → Exec Heap Unit
  | [] => pure ()
  | part :: parts => do
      let _ ← newString part
      newStrings parts

/-- The list that is returned holds new strings; `fuel` is for the loop of `split`. -/
def splitString (fuel : Nat) (this : ObjectId) (delim : UInt8) (removeEmpty : Bool) :
    Exec Heap Unit := do
  let bytes ← readBytes (← object this)
  let parts ← lift (split fuel bytes delim removeEmpty)
  newStrings parts.elems

/-- `get_hash` stores what it computes. -/
def getHash (this : ObjectId) : Exec Heap UInt64 := do
  let o ← object this
  if o.hasHash then pure o.hash
  else do
    let bytes ← readBytes o
    setObject this ⟨o.size, o.data, true, computeHash bytes⟩
    pure (computeHash bytes)

/-- FNV-1a, each byte taken as 0 to 255. -/
def fnv1a (bytes : List UInt8) : UInt64 :=
  bytes.foldl (fun hash c => (hash ^^^ c.toUInt64) * 1099511628211) 14695981039346656037

/-! ### Runs -/

inductive Op where
  | empty
  | ofCString (str : List UInt8)
  | copyConstruct (str : ObjectId)
  | moveConstruct (str : ObjectId)
  | assign (this s : ObjectId)
  | moveAssign (this s : ObjectId)
  | concat (l r : ObjectId)
  | concatChar (l : ObjectId) (r : UInt8)
  | split (fuel : Nat) (this : ObjectId) (delim : UInt8) (removeEmpty : Bool)
  | getHash (this : ObjectId)
  | destroy (this : ObjectId)

def Op.run : Op → Exec Heap Unit
  | .empty => do let _ ← newString []
  | .ofCString str => do let _ ← StringObjects.ofCString str
  | .copyConstruct str => do let _ ← StringObjects.copyConstruct str
  | .moveConstruct str => do let _ ← StringObjects.moveConstruct str
  | .assign this s => StringObjects.assign this s
  | .moveAssign this s => StringObjects.moveAssign this s
  | .concat l r => do let _ ← StringObjects.concat l r
  | .concatChar l r => do let _ ← StringObjects.concatChar l r
  | .split fuel this delim removeEmpty => splitString fuel this delim removeEmpty
  | .getHash this => do let _ ← StringObjects.getHash this
  | .destroy this => StringObjects.destroy this

/-- Another object has the same block. -/
def Heap.Shared (s : Heap) (this : ObjectId) : Prop :=
  ∃ other o o' b, other ≠ this ∧ s.objects this = some o ∧ s.objects other = some o' ∧
    o.data = some b ∧ o'.data = some b

/-- The step does not put a byte from 128 on into a string, does not move the flag away from a
hash and does not delete a block that another string still has. -/
def Op.Careful (s : Heap) : Op → Prop
  | .ofCString str => ∀ c ∈ str, c < 128
  | .concatChar _ r => r < 128
  | .moveConstruct str => ∀ o, s.objects str = some o → o.hasHash = false
  | .assign this str => this ≠ str → ¬ s.Shared this
  | .moveAssign this str => this ≠ str → ¬ s.Shared this ∧
      ∀ o, s.objects str = some o → o.hasHash = true → o.size = 0
  | .destroy this => ¬ s.Shared this
  | _ => True

/-- Any operations on objects that exist. -/
def machine : Machine Heap Op Unit where
  start s := s = ⟨fun _ => none, 0, fun _ => none, 0⟩
  valid _ _ := True
  run := Op.run

/-- Runs whose steps are all careful. -/
def careful : Machine Heap Op Unit := { machine with valid := Op.Careful }

end Infos.Util.StringObjects
