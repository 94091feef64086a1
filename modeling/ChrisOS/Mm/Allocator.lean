import ChrisOS.Mm.RegionList

/-!
# The address-range allocator

`mm/allocator.c`: a map of free regions with flags, first-fit allocation and coalescing
free. The descriptor free list and the debug output of the source are left out.

The allocation test subtracts the alignment padding from the region size in 32-bit
arithmetic. A region that does not reach its next aligned address makes that subtraction
wrap and then passes the test with almost any size; `ReachesAligned` excludes it.
-/

namespace ChrisOS.Mm

open ChrisOS.Utils ChrisOS.Lib

/-- `enum alloc_region_flags`; the value zero, which no enumerator has, is used as well. -/
abbrev AllocRegionFlags := BitVec 32

/-- `ALLOC_VM_USER`. -/
def allocVmUser : AllocRegionFlags := 1

/-- `ALLOC_VM_KERNEL`. -/
def allocVmKernel : AllocRegionFlags := 2

/-- `ALLOC_PM_NORMAL`. -/
def allocPmNormal : AllocRegionFlags := 8

/-- `struct allocator_region`. -/
abbrev AllocatorRegion := Region AllocRegionFlags

/-- `struct allocator_map`: its regions in link order. -/
abbrev AllocatorMap := List AllocatorRegion

/-- An empty map. -/
def allocatorMapInit : AllocatorMap := []

/-- Regions merge when their flags agree. -/
def allocatorRegionPreMerge (a b : AllocatorRegion) : Bool := a.attrs == b.attrs

/-- `allocator_region_add`. -/
def allocatorRegionAdd (map : AllocatorMap) (region : AllocatorRegion) : AllocatorMap :=
  add allocatorRegionPreMerge map region

/-- Add a new region to a map. -/
def allocatorRegionAddNew (map : AllocatorMap) (addr size : Word) (flags : AllocRegionFlags) :
    AllocatorMap :=
  allocatorRegionAdd map ⟨⟨addr, size⟩, flags⟩

/-- Take a range out of a map, whatever regions it overlaps. -/
def allocatorRangeAcquire (fuel : ℕ) (map : AllocatorMap) (address size : Word) :
    Option AllocatorMap :=
  subtractFrom ⟨address, size⟩ fuel [] map

/-- Return a block to a map. -/
def allocatorMemFree (map : AllocatorMap) (ptr size : Word) (flags : AllocRegionFlags) :
    AllocatorMap :=
  allocatorRegionAdd map ⟨⟨ptr, size⟩, flags⟩

/-- The test of the allocation loop: matching flags, and enough size after the padding. -/
def Offers (size alignment : Word) (flags : AllocRegionFlags) (region : AllocatorRegion) : Prop :=
  (flags = 0 ∨ region.attrs = flags) ∧
    size ≤ region.size - (alignAddress region.address alignment - region.address)

instance (size alignment : Word) (flags : AllocRegionFlags) (region : AllocatorRegion) :
    Decidable (Offers size alignment flags region) :=
  inferInstanceAs (Decidable ((_ ∨ _) ∧ _))

/-- The allocation loop from some region on, with the regions already passed. -/
def allocatorMemAllocFrom (size alignment : Word) (flags : AllocRegionFlags) :
    AllocatorMap → AllocatorMap → Option (Word × AllocatorMap)
  | _, [] => none
  | pre, region :: post =>
    if Offers size alignment flags region then
      let alignedStart := alignAddress region.address alignment
      some (alignedStart, cutAndStitch pre region post ⟨alignedStart, size⟩)
    else allocatorMemAllocFrom size alignment flags (pre ++ [region]) post

/-- Allocate a block from the first region that has room. -/
def allocatorMemAlloc (map : AllocatorMap) (size alignment : Word) (flags : AllocRegionFlags) :
    Option (Word × AllocatorMap) :=
  allocatorMemAllocFrom size (effectiveAlignment alignment) flags [] map

/-- The allocator's test is flag equality. -/
theorem allocatorRegionPreMerge_decides : DecidesJoin allocatorRegionPreMerge (· = ·) :=
  ⟨fun a b => by simp [allocatorRegionPreMerge], fun _ _ h => h⟩

/-- What the allocation loop does: it passes regions that fail the test and cuts the block out
of the first one that does not, or it passes them all. -/
theorem allocatorMemAllocFrom_cases (size alignment : Word) (flags : AllocRegionFlags)
    (pre map : AllocatorMap) :
    (allocatorMemAllocFrom size alignment flags pre map = none ∧
      ∀ q ∈ map, ¬ Offers size alignment flags q) ∨
    ∃ passed region post, map = passed ++ region :: post ∧
      (∀ q ∈ passed, ¬ Offers size alignment flags q) ∧ Offers size alignment flags region ∧
      allocatorMemAllocFrom size alignment flags pre map =
        some (alignAddress region.address alignment,
          cutAndStitch (pre ++ passed) region post ⟨alignAddress region.address alignment, size⟩) := by
  induction map generalizing pre with
  | nil => exact Or.inl ⟨rfl, by simp⟩
  | cons region post ih =>
    by_cases hoffers : Offers size alignment flags region
    · refine Or.inr ⟨[], region, post, rfl, by simp, hoffers, ?_⟩
      rw [allocatorMemAllocFrom, if_pos hoffers, List.append_nil]
    · rw [allocatorMemAllocFrom, if_neg hoffers]
      obtain ⟨hnone, hall⟩ | ⟨passed, region', post', rfl, hpassed, hoffers', hresult⟩ :=
        ih (pre ++ [region])
      · exact Or.inl ⟨hnone, List.forall_mem_cons.mpr ⟨hoffers, hall⟩⟩
      · refine Or.inr ⟨region :: passed, region', post', rfl,
          List.forall_mem_cons.mpr ⟨hoffers, hpassed⟩, hoffers', ?_⟩
        rw [hresult, List.append_assoc]
        rfl

/-- `allocator_mem_alloc` fails exactly when no region passes the test. -/
theorem allocatorMemAlloc_eq_none_iff (map : AllocatorMap) (size alignment : Word)
    (flags : AllocRegionFlags) :
    allocatorMemAlloc map size alignment flags = none ↔
      ∀ q ∈ map, ¬ Offers size (effectiveAlignment alignment) flags q := by
  unfold allocatorMemAlloc
  obtain ⟨hnone, hall⟩ | ⟨passed, region, post, rfl, _, hoffers, hresult⟩ :=
    allocatorMemAllocFrom_cases size (effectiveAlignment alignment) flags [] map
  · exact iff_of_true hnone hall
  · refine iff_of_false (by rw [hresult]; simp) fun hall => ?_
    exact hall region (by simp) hoffers

variable {flags : AllocRegionFlags} {size alignment : Word} {map map' : AllocatorMap} {result : Word}

/-- A block comes from the first region that passes the test. -/
theorem allocatorMemAlloc_eq_some
    (h : allocatorMemAlloc map size alignment flags = some (result, map')) :
    ∃ passed region post, map = passed ++ region :: post ∧
      (∀ q ∈ passed, ¬ Offers size (effectiveAlignment alignment) flags q) ∧
      Offers size (effectiveAlignment alignment) flags region ∧
      result = alignAddress region.address (effectiveAlignment alignment) ∧
      map' = cutAndStitch passed region post ⟨result, size⟩ := by
  unfold allocatorMemAlloc at h
  obtain ⟨hnone, _⟩ | ⟨passed, region, post, rfl, hpassed, hoffers, hresult⟩ :=
    allocatorMemAllocFrom_cases size (effectiveAlignment alignment) flags [] map
  · rw [hnone] at h
    cases h
  · rw [hresult] at h
    cases h
    exact ⟨passed, region, post, rfl, hpassed, hoffers, rfl, rfl⟩

/-- The region contains its next aligned address, or ends there: the padding fits in its size. -/
def ReachesAligned (alignment : Word) (r : Range) : Prop :=
  alignAddress r.address alignment - r.address ≤ r.size

instance (alignment : Word) (r : Range) : Decidable (ReachesAligned alignment r) :=
  inferInstanceAs (Decidable (_ ≤ _))

variable {region : AllocatorRegion}

/-- In a region that fits and reaches its next aligned address, a passed test gives an aligned
block inside the region. -/
theorem Offers.block_within (h : Offers size alignment flags region) (k : ℕ)
    (halign : alignment.toNat = 2 ^ k) (hfits : region.Fits)
    (hreach : ReachesAligned alignment region.toRange) (hsize : 0 < size.toNat) :
    2 ^ k ∣ (alignAddress region.address alignment).toNat ∧
      region.lo ≤ (alignAddress region.address alignment).toNat ∧
      (alignAddress region.address alignment).toNat + size.toNat ≤ region.hi := by
  obtain ⟨_, hdvd⟩ := alignAddress_pad region.address alignment k halign
  have htest := h.2
  unfold ReachesAligned at hreach
  simp only [Range.Fits, Range.hi, Range.lo] at hfits ⊢
  have hexact : (alignAddress region.address alignment).toNat =
      region.address.toNat + (alignAddress region.address alignment - region.address).toNat := by
    bv_omega
  rw [← hexact] at hdvd
  exact ⟨hdvd, by omega, by bv_omega⟩

/-- A region that ends on an aligned address reaches its next aligned address. -/
theorem reachesAligned_of_dvd_hi {alignment : Word} {r : Range} (k : ℕ)
    (halign : alignment.toNat = 2 ^ k) (hne : r.lo < r.hi) (hdvd : 2 ^ k ∣ r.hi) :
    ReachesAligned alignment r := by
  have hpad := alignAddress_pad_le r.address alignment k r.hi halign hdvd (Nat.le_of_lt hne)
  unfold ReachesAligned
  simp only [Range.hi] at hpad
  bv_omega

/-- A region with room for an aligned block anywhere passes the test. -/
theorem offers_of_aligned (k : ℕ) (halign : alignment.toNat = 2 ^ k)
    (hflags : flags = 0 ∨ region.attrs = flags) {a : ℕ} (hdvd : 2 ^ k ∣ a) (hlo : region.lo ≤ a)
    (hhi : a + size.toNat ≤ region.hi) : Offers size alignment flags region := by
  refine ⟨hflags, ?_⟩
  have hpad := alignAddress_pad_le region.address alignment k a halign hdvd hlo
  simp only [Range.lo, Range.hi] at hlo hhi
  bv_omega

/-- The region the allocation loop stops at, if any, reaches its next aligned address. -/
def StopsInside (map : AllocatorMap) (size alignment : Word) (flags : AllocRegionFlags) : Prop :=
  ∀ region ∈ map.find? (Offers size (effectiveAlignment alignment) flags ·),
    ReachesAligned (effectiveAlignment alignment) region.toRange

/-- The region the loop stops at passes the test. -/
theorem offers_of_find (h : region ∈ map.find? (Offers size alignment flags ·)) :
    Offers size alignment flags region := by
  have hfind : map.find? (Offers size alignment flags ·) = some region := h
  have htest := List.find?_some hfind
  exact of_decide_eq_true htest

/-- A loop that passes all regions does not stop outside one. -/
theorem stopsInside_of_eq_none (h : allocatorMemAlloc map size alignment flags = none) :
    StopsInside map size alignment flags :=
  fun region hfind => absurd (offers_of_find hfind)
    ((allocatorMemAlloc_eq_none_iff _ _ _ _).mp h region (List.mem_of_find?_eq_some hfind))

/-- A block is taken out of the region the loop stops at. -/
theorem allocatorMemAlloc_eq_some_find
    (h : allocatorMemAlloc map size alignment flags = some (result, map')) :
    ∃ passed region post, map = passed ++ region :: post ∧
      map.find? (Offers size (effectiveAlignment alignment) flags ·) = some region ∧
      Offers size (effectiveAlignment alignment) flags region ∧
      result = alignAddress region.address (effectiveAlignment alignment) ∧
      map' = cutAndStitch passed region post ⟨result, size⟩ := by
  obtain ⟨passed, region, post, rfl, hpassed, hoffers, hresult, hmap'⟩ := allocatorMemAlloc_eq_some h
  refine ⟨passed, region, post, rfl, ?_, hoffers, hresult, hmap'⟩
  rw [List.find?_append, List.find?_eq_none.mpr (by simpa using hpassed), List.find?_cons]
  simp [hoffers]

/-- Allocation from a list of disjoint regions, stopping at one that reaches its aligned address: the
block is aligned, lay inside one matching region, and is exactly what left the map. -/
theorem allocatorMemAlloc_carves {join : AllocRegionFlags → AllocRegionFlags → Prop} (k : ℕ)
    (halign : (effectiveAlignment alignment).toNat = 2 ^ k) (htidy : Tidy join map)
    (hstop : StopsInside map size alignment flags) (hsize : 0 < size.toNat)
    (h : allocatorMemAlloc map size alignment flags = some (result, map')) :
    (∃ region ∈ map, result = alignAddress region.address (effectiveAlignment alignment) ∧
        (flags = 0 ∨ region.attrs = flags) ∧ region.lo ≤ result.toNat ∧
        result.toNat + size.toNat ≤ region.hi) ∧
      2 ^ k ∣ result.toNat ∧ Tidy join map' ∧
      ∀ x c, Covered map' x c ↔
        Covered map x c ∧ ¬ (result.toNat ≤ x ∧ x < result.toNat + size.toNat) := by
  obtain ⟨passed, region, post, rfl, hfind, hoffers, rfl, rfl⟩ := allocatorMemAlloc_eq_some_find h
  have hmem : region ∈ passed ++ region :: post := by simp
  obtain ⟨hdvd, hlo, hhi⟩ :=
    hoffers.block_within k halign (htidy.fits region hmem) (hstop region hfind) hsize
  obtain ⟨htidy', hcover⟩ := cutAndStitch_tidy
    ⟨alignAddress region.address (effectiveAlignment alignment), size⟩
    htidy hlo hhi (by simp only [Range.lo, Range.hi]; omega)
  exact ⟨⟨region, hmem, rfl, hoffers.1, hlo, hhi⟩, hdvd, htidy', hcover⟩

/-- Allocation from a tidy map whose regions reach their aligned addresses: the block is
aligned, lay inside one matching region, and is exactly what left the map. -/
theorem allocatorMemAlloc_tidy (k : ℕ) (halign : (effectiveAlignment alignment).toNat = 2 ^ k)
    (htidy : Tidy (· = ·) map)
    (hreach : ∀ r ∈ map, ReachesAligned (effectiveAlignment alignment) r.toRange)
    (hsize : 0 < size.toNat)
    (h : allocatorMemAlloc map size alignment flags = some (result, map')) :
    (∃ region ∈ map, result = alignAddress region.address (effectiveAlignment alignment) ∧
        (flags = 0 ∨ region.attrs = flags) ∧ region.lo ≤ result.toNat ∧
        result.toNat + size.toNat ≤ region.hi) ∧
      2 ^ k ∣ result.toNat ∧ Tidy (· = ·) map' ∧
      ∀ x c, Covered map' x c ↔
        Covered map x c ∧ ¬ (result.toNat ≤ x ∧ x < result.toNat + size.toNat) := by
  exact allocatorMemAlloc_carves k halign htidy
    (fun region hregion => hreach region (List.mem_of_find?_eq_some hregion)) hsize h

/-- Where an aligned block of free addresses with acceptable flags exists, allocation succeeds. -/
theorem allocatorMemAlloc_ne_none (k : ℕ)
    (halign : (effectiveAlignment alignment).toNat = 2 ^ k)
    (htidy : Tidy (· = ·) map) (hsize : 0 < size.toNat) {a : ℕ} {c : AllocRegionFlags}
    (hflags : flags = 0 ∨ c = flags) (hdvd : 2 ^ k ∣ a)
    (hfree : ∀ x, a ≤ x → x < a + size.toNat → Covered map x c) :
    allocatorMemAlloc map size alignment flags ≠ none := by
  obtain ⟨s, hs, rfl, hlo, hhi⟩ := htidy.canonical.exists_of_coversWith (by omega) hfree
  obtain ⟨region, hregion, rfl⟩ := List.mem_map.mp hs
  intro hnone
  rw [allocatorMemAlloc_eq_none_iff] at hnone
  exact hnone region hregion (offers_of_aligned k halign hflags hdvd hlo hhi)

/-- First fit on a tidy map is lowest fit: no aligned block of free addresses with acceptable
flags starts before the one returned. -/
theorem allocatorMemAlloc_least (k : ℕ) (halign : (effectiveAlignment alignment).toNat = 2 ^ k)
    (htidy : Tidy (· = ·) map)
    (hreach : ∀ r ∈ map, ReachesAligned (effectiveAlignment alignment) r.toRange)
    (hsize : 0 < size.toNat)
    (h : allocatorMemAlloc map size alignment flags = some (result, map')) {a : ℕ}
    {c : AllocRegionFlags} (hflags : flags = 0 ∨ c = flags) (hdvd : 2 ^ k ∣ a)
    (hfree : ∀ x, a ≤ x → x < a + size.toNat → Covered map x c) : result.toNat ≤ a := by
  obtain ⟨passed, region, post, rfl, hpassed, hoffers, rfl, _⟩ := allocatorMemAlloc_eq_some h
  obtain ⟨s, hs, rfl, hlo, hhi⟩ := htidy.canonical.exists_of_coversWith (by omega) hfree
  obtain ⟨q, hq, rfl⟩ := List.mem_map.mp hs
  have hqoffers := offers_of_aligned k halign hflags hdvd hlo hhi
  have hmem : region ∈ passed ++ region :: post := by simp
  obtain ⟨_, hstart, hend⟩ :=
    hoffers.block_within k halign (htidy.fits region hmem) (hreach region hmem) hsize
  obtain hq | hq := List.mem_append.mp hq
  · exact absurd hqoffers (hpassed q hq)
  · obtain rfl | hq := List.mem_cons.mp hq
    · have hpad := alignAddress_pad_le q.address _ k a halign hdvd hlo
      simp only [Range.lo, Range.hi] at hstart hend
      have hfits := htidy.fits q hmem
      simp only [Range.Fits, Range.hi] at hfits
      bv_omega
    · have hafter := htidy.around.2 q hq
      change q.lo ≤ a at hlo
      omega

/-- Returning a disjoint block to a tidy map adds exactly the block. -/
theorem allocatorRegionAdd_tidy (r : AllocatorRegion)
    (htidy : Tidy (· = ·) map) (hr : r.lo < r.hi) (hfits : r.Fits)
    (hdisjoint : ∀ x c, Covered map x c → ¬ (r.lo ≤ x ∧ x < r.hi))
    (hroom : ∀ c, ∃ y < 2 ^ 32, ¬ Covered (r :: map) y c) :
    Tidy (· = ·) (allocatorRegionAdd map r) ∧
      ∀ x c, Covered (allocatorRegionAdd map r) x c ↔ Covered (r :: map) x c := by
  exact add_tidy allocatorRegionPreMerge_decides map r htidy hr hfits
    (htidy.disjoint_of_not_covered hr hdisjoint) hroom

/-- Freeing a block adds exactly the block to a tidy map; address zero stays outside. -/
theorem allocatorMemFree_tidy {r : Range} (flags : AllocRegionFlags)
    (htidy : Tidy (· = ·) map) (hr : r.lo < r.hi) (hfits : r.Fits)
    (hdisjoint : ∀ x c, Covered map x c → ¬ (r.lo ≤ x ∧ x < r.hi))
    (hmap : ∀ c, ¬ Covered map 0 c) (hblock : ¬ (r.lo ≤ 0 ∧ 0 < r.hi)) :
    Tidy (· = ·) (allocatorMemFree map r.address r.size flags) ∧
      ∀ x c, Covered (allocatorMemFree map r.address r.size flags) x c ↔
        (flags = c ∧ r.lo ≤ x ∧ x < r.hi) ∨ Covered map x c := by
  have hroom : ∀ c, ∃ y < 2 ^ 32, ¬ Covered (⟨r, flags⟩ :: map) y c := by
    intro c
    refine ⟨0, by decide, fun hzero => ?_⟩
    obtain ⟨_, hzero⟩ | hzero := (covered_cons _ _ 0 c).mp hzero
    · exact hblock hzero
    · exact hmap c hzero
  obtain ⟨hfree, hcover⟩ := allocatorRegionAdd_tidy ⟨r, flags⟩ htidy hr hfits hdisjoint hroom
  exact ⟨hfree, fun x c => (hcover x c).trans (covered_cons _ _ x c)⟩

end ChrisOS.Mm
