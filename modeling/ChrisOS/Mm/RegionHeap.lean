import ChrisOS.Lib.LList
import ChrisOS.Mm.Allocator

/-!
# Region descriptors

The macros of `mm/range.h` once more, on the descriptors themselves. A map is a pointer to its first
descriptor, descriptors are linked through `next`, and a descriptor that is not needed goes to
the list `_free_regions`, from which the next one is taken.

Descriptors are numbered in the order in which `kalloc_static` hands them out; it never fails here.
What a new descriptor contains is arbitrary. The lists have names: `none` is `_free_regions` and
`some map` is the list of regions of a map. A loop over a list passes at most as many nodes as there
are descriptors, except that of `_subtract`, which may pass pieces it has made itself and has a
bound of its own. `none` is a null pointer dereferenced or a loop that does not end.
-/

namespace ChrisOS.Mm

open ChrisOS.Utils ChrisOS.Lib

/-- The lists, the fields of every descriptor, and how many descriptors there are. -/
structure RegionHeap (κ ρ : Type*) where
  heads : Option κ → Option ℕ
  next : ℕ → Option ℕ
  region : ℕ → Region ρ
  obtained : ℕ

/-- Before anything is added there are no descriptors and every list is empty. -/
def RegionHeap.initial {κ ρ : Type*} (next : ℕ → Option ℕ) (region : ℕ → Region ρ) :
    RegionHeap κ ρ :=
  ⟨fun _ => none, next, region, 0⟩

section Functions

variable {κ ρ : Type*} [DecidableEq κ]

/-- Store the result of a list operation. -/
def RegionHeap.setList (s : RegionHeap κ ρ) (place : Option κ)
    (links : (ℕ → Option ℕ) × Option ℕ) : RegionHeap κ ρ :=
  { s with next := links.1, heads := Function.update s.heads place links.2 }

omit [DecidableEq κ] in
/-- Write the fields of a descriptor, other than its link. -/
def RegionHeap.setRegion (s : RegionHeap κ ρ) (d : ℕ) (region : Region ρ) : RegionHeap κ ρ :=
  { s with region := Function.update s.region d region }

/-- `_alloc`. -/
def regionAlloc (s : RegionHeap κ ρ) : ℕ × RegionHeap κ ρ :=
  match s.heads none with
  | some region => (region, s.setList none (s.next, s.next region))
  | none => (s.obtained, { s with obtained := s.obtained + 1 })

/-- `_free`. -/
def regionFree (s : RegionHeap κ ρ) (region : ℕ) : RegionHeap κ ρ :=
  s.setList none (llPrepend s.next (s.heads none) region)

/-- `LL_DELETE` from a map, and `_free`. -/
def regionUnlink (s : RegionHeap κ ρ) (map : κ) (region : ℕ) : Option (RegionHeap κ ρ) :=
  (llDelete s.next (s.heads (some map)) region s.obtained).map fun links =>
    regionFree (s.setList (some map) links) region

/-- `LL_APPEND` to a map. -/
def regionAppend (s : RegionHeap κ ρ) (map : κ) (region : ℕ) : Option (RegionHeap κ ρ) :=
  (llAppend s.next (s.heads (some map)) region s.obtained).map (s.setList (some map))

/-- `LL_PREPEND_ELEM` in a map. -/
def regionPrependElem (s : RegionHeap κ ρ) (map : κ) (cur region : ℕ) : Option (RegionHeap κ ρ) :=
  (llPrependElem s.next (s.heads (some map)) cur region s.obtained).map (s.setList (some map))

/-- The loop of `_insert`, with the descriptor it is at. -/
def regionInsertFrom (s : RegionHeap κ ρ) (map : κ) (elem : ℕ) :
    ℕ → Option ℕ → Option (RegionHeap κ ρ)
  | _, none => regionAppend s map elem
  | 0, some _ => none
  | fuel + 1, some cur =>
    if (s.region elem).address < (s.region cur).address then regionPrependElem s map cur elem
    else regionInsertFrom s map elem fuel (s.next cur)

/-- `_insert`. -/
def regionInsert (s : RegionHeap κ ρ) (map : κ) (elem : ℕ) : Option (RegionHeap κ ρ) :=
  regionInsertFrom s map elem s.obtained (s.heads (some map))

/-- The end of `_add` after a merge: the grown region is offered to its successor. -/
def regionMergeNext (preMerge : Region ρ → Region ρ → Bool) (s : RegionHeap κ ρ) (map : κ) (cur : ℕ) :
    Option (RegionHeap κ ρ) :=
  match s.next cur with
  | some next =>
    match merge preMerge (s.region next) (s.region cur) with
    | some merged => regionUnlink (s.setRegion next merged) map cur
    | none => some s
  | none => some s

/-- The loop of `_add`, with the descriptor it is at. -/
def regionAddFrom (preMerge : Region ρ → Region ρ → Bool) (s : RegionHeap κ ρ) (map : κ)
    (region : ℕ) : ℕ → Option ℕ → Option (RegionHeap κ ρ)
  | _, none => regionAppend s map region
  | 0, some _ => none
  | fuel + 1, some cur =>
    match merge preMerge (s.region cur) (s.region region) with
    | some merged => regionMergeNext preMerge (regionFree (s.setRegion cur merged) region) map cur
    | none =>
      if (s.region region).address < (s.region cur).address then regionPrependElem s map cur region
      else regionAddFrom preMerge s map region fuel (s.next cur)

/-- `_add`. -/
def regionAdd (preMerge : Region ρ → Region ρ → Bool) (s : RegionHeap κ ρ) (map : κ) (region : ℕ) :
    Option (RegionHeap κ ρ) :=
  regionAddFrom preMerge s map region s.obtained (s.heads (some map))

/-- The `_add_new` of a region type: a new descriptor with its fields set, added to a map. -/
def regionAddNew (preMerge : Region ρ → Region ρ → Bool) (s : RegionHeap κ ρ) (map : κ)
    (fields : Region ρ) : Option (RegionHeap κ ρ) :=
  let (region, s) := regionAlloc s
  regionAdd preMerge (s.setRegion region fields) map region

/-- The right-hand piece of `_cut_and_stitch`: a new descriptor, first a copy of `region` with its
link, then linked in its place. -/
def regionStitch (s : RegionHeap κ ρ) (map : κ) (region : ℕ) (tmp : Range) :
    Option (RegionHeap κ ρ) :=
  let (newPiece, s) := regionAlloc s
  let s := { s with next := Function.update s.next newPiece (s.next region) }
  regionInsert (s.setRegion newPiece { s.region region with toRange := tmp }) map newPiece

/-- `_cut_and_stitch`. -/
def regionCutAndStitch (s : RegionHeap κ ρ) (map : κ) (region : ℕ) (hole : Range) :
    Option (RegionHeap κ ρ) :=
  match cut (s.region region).toRange hole with
  | none => some s
  | some (left, tmp) =>
    let s := s.setRegion region { s.region region with toRange := left }
    (if tmp.size = 0 then some s else regionStitch s map region tmp).bind fun s =>
      if (s.region region).size = 0 then regionUnlink s map region else some s

/-- The loop of `_subtract`, with the descriptor it is at; the next one is read before the cut. -/
def regionSubtractFrom (map : κ) (hole : Range) :
    ℕ → RegionHeap κ ρ → Option ℕ → Option (RegionHeap κ ρ)
  | _, s, none => some s
  | 0, _, some _ => none
  | fuel + 1, s, some cur =>
    let tmp := s.next cur
    (regionCutAndStitch s map cur hole).bind fun s => regionSubtractFrom map hole fuel s tmp

/-- `_subtract`. -/
def regionSubtract (fuel : ℕ) (s : RegionHeap κ ρ) (map : κ) (hole : Range) :
    Option (RegionHeap κ ρ) :=
  regionSubtractFrom map hole fuel s (s.heads (some map))

end Functions

/-- The heap of `struct allocator_region`. -/
abbrev AllocatorHeap (κ : Type*) := RegionHeap κ AllocRegionFlags

/-- The calls of the allocator. -/
inductive AllocatorCall (κ : Type*)
  | regionAddNew (map : κ) (addr size : Word) (flags : AllocRegionFlags)
  | memAlloc (map : κ) (size alignment : Word) (flags : AllocRegionFlags)
  | memFree (map : κ) (ptr size : Word) (flags : AllocRegionFlags)
  | rangeAcquire (map : κ) (address size : Word)

section Calls

variable {κ : Type*} [DecidableEq κ]

/-- `allocator_region_add_new`, which is also the body of `allocator_mem_free`. -/
def heapRegionAddNew (s : AllocatorHeap κ) (map : κ) (addr size : Word) (flags : AllocRegionFlags) :
    Option (AllocatorHeap κ) :=
  regionAddNew allocatorRegionPreMerge s map ⟨⟨addr, size⟩, flags⟩

/-- The loop of `allocator_mem_alloc`, with the descriptor it is at. -/
def heapMemAllocFrom (s : AllocatorHeap κ) (map : κ) (size alignment : Word)
    (flags : AllocRegionFlags) (hole : ℕ) : ℕ → Option ℕ → Option (Option Word × AllocatorHeap κ)
  | _, none => some (none, s)
  | 0, some _ => none
  | fuel + 1, some region =>
    if Offers size alignment flags (s.region region) then
      let alignedStart := alignAddress (s.region region).address alignment
      let s := s.setRegion hole { s.region hole with address := alignedStart, size := size }
      (regionCutAndStitch s map region ⟨alignedStart, size⟩).map fun s => (some alignedStart, s)
    else heapMemAllocFrom s map size alignment flags hole fuel (s.next region)

/-- `allocator_mem_alloc`: the descriptor for the hole is taken first, and never given back. -/
def heapMemAlloc (s : AllocatorHeap κ) (map : κ) (size alignment : Word) (flags : AllocRegionFlags) :
    Option (Option Word × AllocatorHeap κ) :=
  let (hole, s) := regionAlloc s
  heapMemAllocFrom s map size (effectiveAlignment alignment) flags hole s.obtained
    (s.heads (some map))

/-- A call, with the block `allocator_mem_alloc` returns. -/
def allocatorCall (fuel : ℕ) (s : AllocatorHeap κ) :
    AllocatorCall κ → Option (Option Word × AllocatorHeap κ)
  | .regionAddNew map addr size flags =>
    (heapRegionAddNew s map addr size flags).map fun s => (none, s)
  | .memAlloc map size alignment flags => heapMemAlloc s map size alignment flags
  | .memFree map ptr size flags => (heapRegionAddNew s map ptr size flags).map fun s => (none, s)
  | .rangeAcquire map address size =>
    (regionSubtract fuel s map ⟨address, size⟩).map fun s => (none, s)

end Calls

end ChrisOS.Mm
