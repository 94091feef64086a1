import ChrisOS.Utils.Mem

/-!
# Memory ranges and region lists

The macros of `mm/range.h`, which build one set of region-list functions for each region
type. A region is a range with whatever further attributes its type has; the functions
read only the range, except for the `pre_merge` test each region type supplies.

Every comparison and every end-point computation is on 32-bit words, as in the source. A
map's intrusive list is a Lean list of region values in link order: the descriptors'
own addresses and the free lists they come from are not part of this model.
-/

namespace ChrisOS.Mm

open ChrisOS.Utils

/-- The address and size fields every region type has. -/
@[ext] structure Range where
  address : Word
  size : Word
deriving DecidableEq, Repr

/-- A region: its range and the attributes of its region type. -/
@[ext] structure Region (ρ : Type*) extends Range where
  attrs : ρ
deriving DecidableEq, Repr

/-- `END_POINT_LT_END_POINT`. -/
def EndPointLtEndPoint (pStart pSize rStart rSize : Word) : Prop :=
  pSize ≤ rSize - (pStart - rStart)

/-- `END_POINT_GT_START_POINT`. -/
def EndPointGtStartPoint (pStart pSize rStart : Word) : Prop :=
  rStart ≤ pStart ∨ rStart - pStart ≤ pSize

/-- `START_POINT_IN_RANGE`. -/
def StartPointInRange (p start size : Word) : Prop := start ≤ p ∧ p - start < size

/-- `END_POINT_IN_RANGE`. -/
def EndPointInRange (pStart pSize rStart rSize : Word) : Prop :=
  EndPointGtStartPoint pStart pSize rStart ∧ EndPointLtEndPoint pStart pSize rStart rSize

instance (p start size : Word) : Decidable (StartPointInRange p start size) :=
  inferInstanceAs (Decidable (_ ∧ _))

instance (pStart pSize rStart rSize : Word) :
    Decidable (EndPointInRange pStart pSize rStart rSize) :=
  inferInstanceAs (Decidable ((_ ∨ _) ∧ _ ≤ _))

/-- The three joining cases of `_merge`, once the operands are sorted by address. -/
def mergeSorted (a b : Range) : Option Range :=
  if StartPointInRange b.address a.address a.size ∧
      EndPointInRange b.address b.size a.address a.size then
    some ⟨a.address, a.size⟩
  else if StartPointInRange b.address a.address a.size ∧
      EndPointInRange a.address a.size b.address b.size then
    some ⟨a.address, b.size + (b.address - a.address)⟩
  else if b.address - a.address = a.size then
    some ⟨a.address, a.size + b.size⟩
  else none

/-- `_cut`: subtract `b` from `a`, leaving the pieces in both; `none` is the `false` result. -/
def cut (a b : Range) : Option (Range × Range) :=
  if StartPointInRange b.address a.address a.size then
    if EndPointInRange b.address b.size a.address a.size then
      let second := b.address + b.size
      some (⟨a.address, b.address - a.address⟩, ⟨second, a.size - (second - a.address)⟩)
    else
      some (⟨a.address, b.address - a.address⟩, ⟨b.address, 0⟩)
  else if b.address < a.address then
    if EndPointInRange b.address b.size a.address a.size then
      some (⟨b.address + b.size, a.size - (b.size - (a.address - b.address))⟩, ⟨b.address, 0⟩)
    else if StartPointInRange a.address b.address b.size then
      some (⟨a.address, 0⟩, ⟨b.address, 0⟩)
    else none
  else none

variable {ρ : Type*}

/-- `_merge`: on success, `a` with its range replaced by the union. -/
def merge (preMerge : Region ρ → Region ρ → Bool) (a b : Region ρ) : Option (Region ρ) :=
  if preMerge a b then
    (if b.address < a.address then mergeSorted b.toRange a.toRange
      else mergeSorted a.toRange b.toRange).map fun output => { a with toRange := output }
  else none

/-- `_insert`: link an element in front of the first one with a greater address. -/
def insert : List (Region ρ) → Region ρ → List (Region ρ)
  | [], elem => [elem]
  | cur :: rest, elem =>
    if elem.address < cur.address then elem :: cur :: rest else cur :: insert rest elem

/-- The end of `_add` after a merge: the grown region is offered to its successor, which takes
its place in the list if they merge. -/
def mergeNext (preMerge : Region ρ → Region ρ → Bool) (cur : Region ρ) :
    List (Region ρ) → List (Region ρ)
  | [] => [cur]
  | next :: rest =>
    match merge preMerge next cur with
    | some next' => next' :: rest
    | none => cur :: next :: rest

/-- `_add`: merge into the first region that accepts, else link in address order. -/
def add (preMerge : Region ρ → Region ρ → Bool) : List (Region ρ) → Region ρ → List (Region ρ)
  | [], region => [region]
  | cur :: rest, region =>
    match merge preMerge cur region with
    | some cur' => mergeNext preMerge cur' rest
    | none =>
      if region.address < cur.address then region :: cur :: rest
      else cur :: add preMerge rest region

/-- `LL_DELETE` of a region whose size fell to zero. -/
def dropEmpty (region : Region ρ) : List (Region ρ) := if region.size = 0 then [] else [region]

/-- `_cut_and_stitch` of the region between `pre` and `post`, split where a saved next pointer
of the region would point: the second component starts with the old successor.

The right-hand piece is linked by `_insert` from the head of the whole list, before an
emptied region is unlinked, so its place is found with the region still present. -/
def cutAndStitchSplit (pre : List (Region ρ)) (region : Region ρ) (post : List (Region ρ))
    (hole : Range) : List (Region ρ) × List (Region ρ) :=
  match cut region.toRange hole with
  | none => (pre ++ [region], post)
  | some (left, tmp) =>
    let region' : Region ρ := { region with toRange := left }
    if tmp.size = 0 then (pre ++ dropEmpty region', post)
    else
      let newPiece : Region ρ := { region with toRange := tmp }
      if pre.any fun cur => newPiece.address < cur.address then
        (insert pre newPiece ++ dropEmpty region', post)
      else if newPiece.address < region'.address then
        (pre ++ newPiece :: dropEmpty region', post)
      else
        match post with
        | [] => (pre ++ dropEmpty region' ++ [newPiece], [])
        | next :: rest =>
          if newPiece.address < next.address then
            (pre ++ dropEmpty region' ++ [newPiece], next :: rest)
          else (pre ++ dropEmpty region', next :: insert rest newPiece)

/-- `_cut_and_stitch`: the whole list after cutting `hole` out of one of its regions. -/
def cutAndStitch (pre : List (Region ρ)) (region : Region ρ) (post : List (Region ρ))
    (hole : Range) : List (Region ρ) :=
  let parts := cutAndStitchSplit pre region post hole
  parts.1 ++ parts.2

/-- `_subtract`: visit the regions in link order, each with its successor saved beforehand.

A piece linked beyond the saved successor is visited in its turn, so the loop is bounded by
`fuel`; `none` means that it was not done by then. -/
def subtractFrom (hole : Range) : ℕ → List (Region ρ) → List (Region ρ) → Option (List (Region ρ))
  | _, pre, [] => some pre
  | 0, _, _ :: _ => none
  | fuel + 1, pre, region :: post =>
    let parts := cutAndStitchSplit pre region post hole
    subtractFrom hole fuel parts.1 parts.2

/-- `_find_address`: the first region that starts at `addr`. -/
def findAddress (l : List (Region ρ)) (addr : Word) : Option (Region ρ) :=
  l.find? fun region => region.address = addr

end ChrisOS.Mm
