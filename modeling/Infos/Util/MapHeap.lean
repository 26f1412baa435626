import Infos.Util.Map

/-!
# The ordered map in memory

The nodes of the map with their pointers. The two halves of `rebalance_insert`
and the two rotations differ by the side they work on.
-/
namespace Infos.Util.MapHeap
open Infos.Lib Function

abbrev Ptr := Nat

structure Node (κ α : Type) where
  key : κ
  value : α
  colour : Colour
  parent : Option Ptr
  left : Option Ptr
  right : Option Ptr

namespace Node
variable {κ α : Type}

def child (n : Node κ α) : Side → Option Ptr
  | .left => n.left
  | .right => n.right

def withChild (n : Node κ α) (side : Side) (p : Option Ptr) : Node κ α :=
  match side with
  | .left => { n with left := p }
  | .right => { n with right := p }

end Node

/-- The map object and the nodes it has allocated; `next` is where the next one goes. -/
structure MapState (κ α : Type) where
  root : Option Ptr
  count : Nat
  nodes : Ptr → Option (Node κ α)
  next : Ptr

def MapState.empty {κ α : Type} : MapState κ α := ⟨none, 0, fun _ => none, 0⟩

section Nodes
variable {κ α : Type}

def getNode (p : Ptr) : Exec (MapState κ α) (Node κ α) := do
  match (← get).nodes p with
  | some n => pure n
  | none => throw .useAfterFree

def modifyNode (p : Ptr) (f : Node κ α → Node κ α) : Exec (MapState κ α) Unit := do
  let n ← getNode p
  modify fun s => { s with nodes := update s.nodes p (some (f n)) }

/-- A pointer that is followed. -/
def deref (p : Option Ptr) : Exec (MapState κ α) Ptr :=
  match p with
  | some p => pure p
  | none => throw .nullDeref

def parent (p : Ptr) : Exec (MapState κ α) (Option Ptr) := do pure (← getNode p).parent

def grandparent (p : Ptr) : Exec (MapState κ α) (Option Ptr) := do
  match ← parent p with
  | none => pure none
  | some q => parent q

def setColour (p : Ptr) (colour : Colour) : Exec (MapState κ α) Unit :=
  modifyNode p fun n => { n with colour }

def setParent (p : Ptr) (q : Option Ptr) : Exec (MapState κ α) Unit :=
  modifyNode p fun n => { n with parent := q }

/-- `left(n)` and `right(n)`: a child that is not NULL is told its parent. -/
def setChild (side : Side) (p : Ptr) (child : Option Ptr) : Exec (MapState κ α) Unit := do
  modifyNode p fun n => n.withChild side child
  match child with
  | none => pure ()
  | some c => setParent c (some p)

def iAmLeft (p : Ptr) : Exec (MapState κ α) Bool := do
  match ← parent p with
  | none => throw .assertion
  | some q => do pure ((← getNode q).left == some p)

/-- The pivot takes the place of `n` below the parent of `n`. -/
def replaceBy (n pivot : Ptr) : Exec (MapState κ α) Unit := do
  match ← parent n with
  | none => do
      modify fun s => { s with root := some pivot }
      setParent pivot none
  | some p => do
      if ← iAmLeft n then setChild .left p (some pivot) else setChild .right p (some pivot)

/-- `rotate_left` and `rotate_right`: the child on the other side moves up. -/
def rotate (side : Side) (n : Option Ptr) : Exec (MapState κ α) Unit := do
  match n with
  | none => throw .assertion
  | some n => do
      match (← getNode n).child side.other with
      | none => throw .assertion
      | some pivot => do
          replaceBy n pivot
          setChild side.other n ((← getNode pivot).child side)
          setChild side pivot (some n)

def rotateLeft (n : Option Ptr) : Exec (MapState κ α) Unit := rotate .left n

def rotateRight (n : Option Ptr) : Exec (MapState κ α) Unit := rotate .right n

/-- `y && y->red()` -/
def isRed (y : Option Ptr) : Exec (MapState κ α) Bool := do
  match y with
  | none => pure false
  | some y => do pure ((← getNode y).colour == .red)

/-- Both children of the grandparent are red: they turn black and the violation moves up. -/
def recolour (x : Ptr) (y : Option Ptr) : Exec (MapState κ α) Ptr := do
  setColour (← deref (← parent x)) .black
  setColour (← deref y) .black
  setColour (← deref (← grandparent x)) .red
  deref (← grandparent x)

/-- An inner grandchild changes places with its parent. -/
def turnOutwards (side : Side) (x : Ptr) : Exec (MapState κ α) Ptr := do
  if (← getNode (← deref (← parent x))).child side.other = some x then do
    let x ← deref (← parent x)
    rotate side (some x)
    pure x
  else pure x

def raiseParent (side : Side) (x : Ptr) : Exec (MapState κ α) Unit := do
  setColour (← deref (← parent x)) .black
  setColour (← deref (← grandparent x)) .red
  rotate side.other (← grandparent x)

/-- The body of the loop where the parent of `x` is the child on `side` of its own parent. -/
def rebalanceStep (side : Side) (x : Ptr) : Exec (MapState κ α) Ptr := do
  let y := (← getNode (← deref (← grandparent x))).child side.other
  if ← isRed y then recolour x y
  else do
    let x ← turnOutwards side x
    raiseParent side x
    pure x

def rebalanceLoop : Nat → Ptr → Exec (MapState κ α) Unit
  | 0, _ => throw .outOfFuel
  | fuel + 1, x => do
      match ← parent x with
      | none => pure ()
      | some p => do
          if (← getNode p).colour = .red then do
            let g ← getNode (← deref (← grandparent x))
            let x ← rebalanceStep (if g.left = some p then .left else .right) x
            rebalanceLoop fuel x
          else pure ()

/-- Every round moves `x` up, so the number of nodes bounds the rounds. -/
def rebalanceInsert (nw : Ptr) : Exec (MapState κ α) Unit := do
  setColour nw .red
  rebalanceLoop ((← get).next + 1) nw
  setColour (← deref (← get).root) .black

def newNode (key : κ) (value : α) : Exec (MapState κ α) Ptr := do
  let s ← get
  set { s with
    nodes := update s.nodes s.next (some ⟨key, value, .red, none, none, none⟩)
    next := s.next + 1 }
  pure s.next

/-- `delete`, which does nothing for NULL. The destructor deletes the children first. -/
def deleteNode : Nat → Option Ptr → Exec (MapState κ α) Unit
  | 0, _ => throw .outOfFuel
  | _ + 1, none => pure ()
  | fuel + 1, some p => do
      let n ← getNode p
      deleteNode fuel n.left
      deleteNode fuel n.right
      modify fun s => { s with nodes := update s.nodes p none }

def clear : Exec (MapState κ α) Unit := do
  let s ← get
  deleteNode (s.next + 1) s.root
  modify fun s => { s with root := none, count := 0 }

variable [LinearOrder κ]

/-- The first loop of `add`: the node where the search for the key ends. -/
def findOwner (key : κ) : Nat → Ptr → Exec (MapState κ α) Ptr
  | 0, _ => throw .outOfFuel
  | fuel + 1, owner => do
      let n ← getNode owner
      if key < n.key then
        match n.left with
        | none => pure owner
        | some l => findOwner key fuel l
      else if key > n.key then
        match n.right with
        | none => pure owner
        | some r => findOwner key fuel r
      else pure owner

/-- The part of `add` for a key that is missing: `owner` gets a new child. -/
def addBelow (owner : Ptr) (ownerKey key : κ) (value : α) : Exec (MapState κ α) Unit := do
  let nw ← newNode key value
  if key < ownerKey then setChild .left owner (some nw) else setChild .right owner (some nw)
  rebalanceInsert nw
  modify fun s => { s with count := (s.count + 1) % 2 ^ 32 }

def add (key : κ) (value : α) : Exec (MapState κ α) Unit := do
  match (← get).root with
  | none => do
      let nw ← newNode key value
      modify fun s => { s with root := some nw }
      setColour nw .black
      modify fun s => { s with count := (s.count + 1) % 2 ^ 32 }
  | some root => do
      let owner ← findOwner key ((← get).next + 1) root
      let n ← getNode owner
      if key = n.key then modifyNode owner fun n => { n with value }
      else addBelow owner n.key key value

/-- The loop of `contains_key` and `try_get_value`. -/
def find (key : κ) : Nat → Option Ptr → Exec (MapState κ α) (Option (Node κ α))
  | 0, _ => throw .outOfFuel
  | _ + 1, none => pure none
  | fuel + 1, some p => do
      let n ← getNode p
      if key < n.key then find key fuel n.left
      else if key > n.key then find key fuel n.right
      else pure (some n)

def containsKey (key : κ) : Exec (MapState κ α) Bool := do
  let s ← get
  pure (← find key (s.next + 1) s.root).isSome

def tryGetValue (key : κ) : Exec (MapState κ α) (Option α) := do
  let s ← get
  pure ((← find key (s.next + 1) s.root).map Node.value)

end Nodes
end Infos.Util.MapHeap
