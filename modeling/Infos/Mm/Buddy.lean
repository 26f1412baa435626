import Infos.Lib.Chain
import Infos.Lib.Exec
import Infos.Lib.Words
import Mathlib.Data.Int.Basic

/-!
# The buddy page allocator, at the level of its pointers

A page descriptor pointer is its page frame number and NULL is `none`: the
descriptors are one array, so pointer order and arithmetic are those of the
frame numbers. The free lists live in slots, the `_free_areas` entries and the
`next_free` fields. An access outside either array is a fault, as is a failed
`assert`. Every list walk takes the same budget, and running out of it is a
fault too.
-/
namespace Infos.Mm.Buddy
open Infos.Lib Function

def maxOrder : Nat := 17

/-- The address of a `PageDescriptor *` variable. -/
inductive Slot where
  | area (order : Nat)
  | next (pgd : Nat)
  deriving DecidableEq, Repr

/-- `nrPages` is the length of the descriptor array. -/
structure State where
  nrPages : Nat
  slots : Slot → Option Nat

/-- The constructor clears every free area; the descriptors are zeroed. -/
def State.fresh (nrPages : Nat) : State := ⟨nrPages, fun _ => none⟩

def Slot.inBounds (nrPages : Nat) : Slot → Bool
  | .area k => k < maxOrder
  | .next p => p < nrPages

def load (slot : Slot) : Exec State (Option Nat) := do
  let s ← get
  if slot.inBounds s.nrPages then pure (s.slots slot) else throw .outOfBounds

def store (slot : Slot) (v : Option Nat) : Exec State Unit := do
  let s ← get
  if slot.inBounds s.nrPages then set { s with slots := update s.slots slot v }
  else throw .outOfBounds

def pagesPerBlock (order : Nat) : Nat := 1 <<< order

def isCorrectAlignmentForOrder (pgd order : Nat) : Bool := pgd % pagesPerBlock order == 0

/-- `pfn_to_pgd` lets the one-past-the-end descriptor through. -/
def pfnToPgd (nrPages pfn : Nat) : Option Nat := if pfn > nrPages then none else some pfn

def buddyOf (nrPages pgd order : Nat) : Option Nat :=
  if order ≥ maxOrder then none
  else if !isCorrectAlignmentForOrder pgd order then none
  else
    pfnToPgd nrPages
      (if isCorrectAlignmentForOrder pgd (order + 1) then pgd + pagesPerBlock order
      else pgd - pagesPerBlock order)

/-- `while (*slot && !stop(*slot)) slot = &(*slot)->next_free;` -/
def findSlot (stop : Nat → Bool) : Nat → Slot → Exec State Slot
  | 0, _ => throw .outOfFuel
  | fuel + 1, slot => do
      match ← load slot with
      | none => pure slot
      | some q => if stop q then pure slot else findSlot stop fuel (.next q)

def insertBlock (fuel pgd order : Nat) : Exec State Slot := do
  let slot ← findSlot (fun q => !decide (pgd > q)) fuel (.area order)
  store (.next pgd) (← load slot)
  store slot (some pgd)
  pure slot

/-- The block may be NULL here: `merge_block` passes on what `buddy_of` gave it. -/
def removeBlock (fuel : Nat) (pgd : Option Nat) (order : Nat) : Exec State Unit := do
  let slot ← findSlot (fun q => some q == pgd) fuel (.area order)
  assertThat ((← load slot) == pgd)
  match pgd with
  | none => throw .nullDeref
  | some p =>
      store slot (← load (.next p))
      store (.next p) none

def splitBlock (fuel : Nat) (blockPointer : Slot) (sourceOrder : Nat) :
    Exec State (Option Nat) := do
  match ← load blockPointer with
  | none => throw .assertion
  | some pageToSplit =>
      assertThat (isCorrectAlignmentForOrder pageToSplit sourceOrder)
      assertThat (sourceOrder > 0)
      removeBlock fuel (some pageToSplit) sourceOrder
      let _ ← insertBlock fuel pageToSplit (sourceOrder - 1)
      let _ ← insertBlock fuel (pageToSplit + pagesPerBlock (sourceOrder - 1)) (sourceOrder - 1)
      -- the source reads the slot again, which by now holds the successor
      load blockPointer

def mergeBlock (fuel : Nat) (blockPointer : Slot) (sourceOrder : Nat) : Exec State Slot := do
  match ← load blockPointer with
  | none => throw .assertion
  | some mergingBlock =>
      assertThat (isCorrectAlignmentForOrder mergingBlock sourceOrder)
      let bud := buddyOf (← get).nrPages mergingBlock sourceOrder
      removeBlock fuel (some mergingBlock) sourceOrder
      removeBlock fuel bud sourceOrder
      match bud with
      | none => throw .nullDeref
      | some b =>
          insertBlock fuel (if mergingBlock < b then mergingBlock else b) (sourceOrder + 1)

/-- The search loop of `alloc_pages`: the first `order + order_difference` with a block. -/
def findOrder (order : Nat) : Nat → Nat → Exec State (Option Nat)
  | 0, _ => throw .outOfFuel
  | fuel + 1, orderDifference => do
      match ← load (.area (order + orderDifference)) with
      | some _ => pure (some orderDifference)
      | none =>
          if order + (orderDifference + 1) ≥ maxOrder then pure none
          else findOrder order fuel (orderDifference + 1)

/-- The splitting loop of `alloc_pages`, down to a difference of zero. -/
def splitDown (fuel order : Nat) : Nat → Exec State Unit
  | 0 => pure ()
  | orderDifference + 1 => do
      let _ ← splitBlock fuel (.area (order + (orderDifference + 1))) (order + (orderDifference + 1))
      splitDown fuel order orderDifference

def allocPages (fuel order : Nat) : Exec State (Option Nat) := do
  if order ≥ maxOrder then pure none
  else
    match ← findOrder order fuel 0 with
    | none => pure none
    | some orderDifference =>
        splitDown fuel order orderDifference
        let allocatedPage ← load (.area order)
        removeBlock fuel allocatedPage order
        pure allocatedPage

/-- The overlap test of `free_pages`: the free block at `q` of order `ord` holds the first
or the last page of the block being freed. -/
def overlaps (pgd order q ord : Nat) : Bool :=
  let last := pgd + pagesPerBlock order - 1
  (q ≤ pgd && q + pagesPerBlock ord > pgd) || (q ≤ last && q + pagesPerBlock ord > last)

def checkList (pgd order ord : Nat) : Nat → Slot → Exec State Unit
  | 0, _ => throw .outOfFuel
  | fuel + 1, slot => do
      match ← load slot with
      | none => pure ()
      | some q =>
          if pgd + pagesPerBlock order - 1 > q then
            assertThat (!overlaps pgd order q ord)
            checkList pgd order ord fuel (.next q)
          else pure ()

/-- `for (ord = MAX_ORDER - 1; ord >= 0; ord--)`, with `n = ord + 1`. -/
def checkNotFree (fuel pgd order : Nat) : Nat → Exec State Unit
  | 0 => pure ()
  | n + 1 => do
      checkList pgd order n fuel (.area n)
      checkNotFree fuel pgd order n

/-- The merging loop of `free_pages`. -/
def coalesce (fuel : Nat) : Nat → Option Nat → Nat → Exec State Unit
  | 0, _, _ => throw .outOfFuel
  | n + 1, bud, order =>
      if order < maxOrder - 1 then do
        let slot ← findSlot (fun q => some q == bud) fuel (.area order)
        match ← load slot with
        | none => pure ()
        | some _ =>
            let slot ← mergeBlock fuel slot order
            match ← load slot with
            | none => throw .nullDeref
            | some merged => coalesce fuel n (buddyOf (← get).nrPages merged (order + 1)) (order + 1)
      else pure ()

def freePages (fuel pgd order : Nat) : Exec State Unit := do
  assertThat (isCorrectAlignmentForOrder pgd order)
  checkNotFree fuel pgd order maxOrder
  let _ ← insertBlock fuel pgd order
  coalesce fuel fuel (buddyOf (← get).nrPages pgd order) order

/-- The inner loop of `reserve_page`: split the block that holds the page, if this list has one. -/
def reserveScan (fuel pgd order : Nat) : Nat → Slot → Exec State Unit
  | 0, _ => throw .outOfFuel
  | n + 1, slot => do
      match ← load slot with
      | none => pure ()
      | some q =>
          if pgd ≥ q then
            if q ≤ pgd && q + pagesPerBlock order > pgd then do
              let _ ← splitBlock fuel slot order
              pure ()
            else reserveScan fuel pgd order n (.next q)
          else pure ()

/-- `for (order = MAX_ORDER - 1; order > 0; order--)` -/
def reserveDown (fuel pgd : Nat) : Nat → Exec State Unit
  | 0 => pure ()
  | order + 1 => do
      reserveScan fuel pgd (order + 1) fuel (.area (order + 1))
      reserveDown fuel pgd order

def reservePage (fuel pgd : Nat) : Exec State Bool := do
  reserveDown fuel pgd (maxOrder - 1)
  let slot ← findSlot (fun q => q == pgd) fuel (.area 0)
  match ← load slot with
  | none => pure false
  | some _ =>
      removeBlock fuel (some pgd) 0
      pure true

/-- `while (offset + pages_per_block(curr_order) <= nr_page_descriptors)`; the sum is a
`uint64_t`, and `offset` is an `int`. A negative offset points before the descriptors. -/
def initOrder (fuel nrPageDescriptors currOrder : Nat) : Nat → Int → Exec State Int
  | 0, _ => throw .outOfFuel
  | n + 1, offset =>
      if toUInt64 (offset + pagesPerBlock currOrder) ≤ nrPageDescriptors then do
        if offset < 0 then throw .outOfBounds
        assertThat (isCorrectAlignmentForOrder offset.toNat currOrder)
        let _ ← insertBlock fuel offset.toNat currOrder
        initOrder fuel nrPageDescriptors currOrder n (toInt32 (offset + pagesPerBlock currOrder))
      else pure offset

/-- `while (curr_order >= 0)`, with `n = curr_order + 1`. -/
def initOrders (fuel nrPageDescriptors : Nat) : Nat → Int → Exec State Int
  | 0, offset => pure offset
  | n + 1, offset => do
      let offset ← initOrder fuel nrPageDescriptors n fuel offset
      if toUInt64 offset = nrPageDescriptors then pure offset
      else initOrders fuel nrPageDescriptors n offset

def init (fuel nrPageDescriptors : Nat) : Exec State Bool := do
  let offset ← initOrders fuel nrPageDescriptors maxOrder 0
  pure (toUInt64 offset = nrPageDescriptors)

end Infos.Mm.Buddy
