import ChrisOS.Mm.Allocator
import ChrisOS.Mm.RegionCut
import Mathlib.Data.List.Basic

/-!
# What allocation and freeing do to a map

Two results about `allocator_mem_alloc`. On a map of disjoint regions it finds an aligned block
exactly when a region has one and takes exactly that block out, if and only if the region it stops at
reaches its own next aligned address. On a canonical map, freeing an allocated block with the flags
of the region it lies in restores the map, without that proviso: a region that passes the test by a
wrapped subtraction is not cut if the block lies in another one.
-/

namespace ChrisOS.Mm

open ChrisOS.Utils ChrisOS.Lib

/-- `allocator_mem_alloc` as the callers see it: the value returned, and `*result` and the map
afterwards. -/
def allocatorMemAllocCall (map : AllocatorMap) (size alignment : Word) (flags : AllocRegionFlags)
    (result : Word) : Bool × Word × AllocatorMap :=
  match allocatorMemAlloc map size alignment flags with
  | some (alignedStart, map') => (true, alignedStart, map')
  | none => (false, result, map)

/-- A region with acceptable flags contains the block of `size` bytes at `a`. -/
def HasBlock (map : AllocatorMap) (flags : AllocRegionFlags) (a size : ℕ) : Prop :=
  ∃ region ∈ map, (flags = 0 ∨ region.attrs = flags) ∧ region.lo ≤ a ∧ a + size ≤ region.hi

variable {region : AllocatorRegion}

/-- Cutting a block that lies outside a region leaves the list as it is. -/
theorem cutAndStitch_of_disjoint {pre post : AllocatorMap} {hole : Range}
    (hregion : region.lo < region.hi) (hfits : region.Fits) (hole_fits : hole.Fits)
    (hne : hole.lo < hole.hi) (hdisjoint : region.hi ≤ hole.lo ∨ hole.hi ≤ region.lo) :
    cutAndStitch pre region post hole = pre ++ region :: post := by
  have hsize : ¬ region.size = 0 := fun hzero => by
    simp only [Range.lo, Range.hi, hzero] at hregion
    simp at hregion
  unfold cutAndStitch cutAndStitchSplit
  obtain hnone | hsome := cut_of_disjoint hfits hole_fits hne hdisjoint
  · simp [hnone]
  · simp only [hsome, if_true, dropEmpty, if_neg hsize, List.append_assoc, List.singleton_append]

variable {a b : AllocatorRegion}

/-- Two regions of a tidy map are the same or disjoint. -/
theorem Tidy.eq_or_disjoint {map : AllocatorMap} {join : AllocRegionFlags → AllocRegionFlags → Prop}
    (htidy : Tidy join map) (ha : a ∈ map) (hb : b ∈ map) :
    a = b ∨ a.hi ≤ b.lo ∨ b.hi ≤ a.lo := by
  obtain heq | hbefore | hafter :=
    htidy.canonical.before_or_after (List.mem_map_of_mem hb) (List.mem_map_of_mem ha)
  · exact Or.inl (Region.span_injective heq)
  · exact Or.inr (Or.inl hbefore.1)
  · exact Or.inr (Or.inr hafter.1)

/-- What a call for `size` bytes should return and do: it succeeds if a matching region contains an
aligned block, it then returns such a block and takes exactly the block out, and otherwise the map is
unchanged. -/
structure AllocatesExactly (map : AllocatorMap) (size align : ℕ) (flags : AllocRegionFlags)
    (call : Bool × Word × AllocatorMap) : Prop where
  found : call.1 = true ↔ ∃ a, align ∣ a ∧ HasBlock map flags a size
  aligned : call.1 = true → align ∣ call.2.1.toNat
  inside : call.1 = true → HasBlock map flags call.2.1.toNat size
  removed : call.1 = true → ∀ x c, Covered call.2.2 x c ↔
    Covered map x c ∧ ¬ (call.2.1.toNat ≤ x ∧ x < call.2.1.toNat + size)
  unchanged : call.1 = false → call.2.2 = map

/-- On every map of non-empty, sorted and disjoint regions `allocator_mem_alloc` does that exactly if the
region the loop stops at reaches its next aligned address. -/
theorem allocatorMemAllocCall_exact_iff {map : AllocatorMap} {size alignment : Word}
    {flags : AllocRegionFlags} (k : ℕ) (halign : (effectiveAlignment alignment).toNat = 2 ^ k)
    (hmap : Tidy (fun _ _ => False) map) (hsize : 0 < size.toNat) (old : Word) :
    AllocatesExactly map size.toNat (2 ^ k) flags
        (allocatorMemAllocCall map size alignment flags old) ↔
      StopsInside map size alignment flags := by
  unfold allocatorMemAllocCall
  cases halloc : allocatorMemAlloc map size alignment flags with
  | some block =>
    obtain ⟨result, carved⟩ := block
    constructor
    · rintro ⟨-, -, hinside, hremoved, -⟩ region hfind
      obtain ⟨passed, stopped, post, rfl, hfind', -, rfl, rfl⟩ := allocatorMemAlloc_eq_some_find halloc
      obtain rfl := Option.some.inj (hfind'.symm.trans hfind)
      obtain ⟨other, hother, -, hlo, hhi⟩ := hinside rfl
      dsimp only at hlo hhi
      have hmem : stopped ∈ passed ++ stopped :: post := by simp
      obtain rfl | hdisjoint := hmap.eq_or_disjoint hmem hother
      · -- the block lies in the region the loop stopped at, so the padding does
        have hfits := hmap.fits stopped hmem
        unfold ReachesAligned
        simp only [Range.Fits, Range.lo, Range.hi] at hlo hhi hfits
        bv_omega
      · -- it lies in another one, from which nothing was cut
        exfalso
        have hfits := hmap.fits other hother
        rw [cutAndStitch_of_disjoint (hmap.lo_lt_hi hmem) (hmap.fits stopped hmem)
          (Nat.le_trans hhi hfits) (Nat.lt_add_of_pos_right hsize)
          (by simp only [Range.lo, Range.hi] at *; omega)] at hremoved
        have hcovered := covered_of_mem hother hlo (by omega)
        exact ((hremoved rfl _ _).mp hcovered).2 ⟨Nat.le_refl _, Nat.lt_add_of_pos_right hsize⟩
    · intro hstop
      obtain ⟨⟨region, hregion, _, hin⟩, hdvd, _, hcarved⟩ :=
        allocatorMemAlloc_carves k halign hmap hstop hsize halloc
      have hblock : HasBlock map flags result.toNat size.toNat := ⟨region, hregion, hin⟩
      exact ⟨iff_of_true rfl ⟨_, hdvd, hblock⟩, fun _ => hdvd, fun _ => hblock, fun _ => hcarved,
        fun hfalse => absurd hfalse Bool.noConfusion⟩
  | none =>
    have hnone := (allocatorMemAlloc_eq_none_iff map size alignment flags).mp halloc
    refine iff_of_true ⟨iff_of_false Bool.false_ne_true ?_, fun h => absurd h Bool.noConfusion,
      fun h => absurd h Bool.noConfusion, fun h => absurd h Bool.noConfusion, fun _ => rfl⟩
      (stopsInside_of_eq_none halloc)
    rintro ⟨a, hdvd, region, hregion, hflags, hlo, hhi⟩
    exact hnone region hregion (offers_of_aligned k halign hflags hdvd hlo hhi)

/-- A page from a map of two regions: the first region has no room for it, so it comes from the
second, at the first page boundary. -/
theorem allocatorMemAllocCall_exact_iff_page :
    allocatorMemAllocCall [⟨⟨0x1000, 0x800⟩, 8⟩, ⟨⟨0x2800, 0x2000⟩, 8⟩] 0x1000 0x1000 8 0 =
        (true, 0x3000, [⟨⟨0x1000, 0x800⟩, 8⟩, ⟨⟨0x2800, 0x800⟩, 8⟩, ⟨⟨0x4000, 0x800⟩, 8⟩]) ∧
      ∀ x c,
        Covered [⟨⟨0x1000, 0x800⟩, 8⟩, ⟨⟨0x2800, 0x800⟩, 8⟩, ⟨⟨0x4000, 0x800⟩, (8 : AllocRegionFlags)⟩]
            x c ↔
          Covered [⟨⟨0x1000, 0x800⟩, 8⟩, ⟨⟨0x2800, 0x2000⟩, (8 : AllocRegionFlags)⟩] x c ∧
            ¬ (0x3000 ≤ x ∧ x < 0x3000 + 0x1000) := by
  have hcall : allocatorMemAllocCall [⟨⟨0x1000, 0x800⟩, 8⟩, ⟨⟨0x2800, 0x2000⟩, 8⟩] 0x1000 0x1000 8 0 =
      (true, 0x3000, [⟨⟨0x1000, 0x800⟩, 8⟩, ⟨⟨0x2800, 0x800⟩, 8⟩, ⟨⟨0x4000, 0x800⟩, 8⟩]) := by
    decide
  have hmap : Tidy (fun _ _ => False)
      [⟨⟨0x1000, 0x800⟩, 8⟩, ⟨⟨0x2800, 0x2000⟩, (8 : AllocRegionFlags)⟩] := by
    refine ⟨⟨?_, ?_⟩, by decide⟩
    · simp [Region.span, Range.lo, Range.hi]
    · simp [Region.span, Range.lo, Range.hi, Span.Before]
  have hstop : StopsInside [⟨⟨0x1000, 0x800⟩, 8⟩, ⟨⟨0x2800, 0x2000⟩, 8⟩] 0x1000 0x1000 8 := by
    unfold StopsInside
    decide
  have hexact := (allocatorMemAllocCall_exact_iff 12 (by decide) hmap (by decide) 0).mpr hstop
  rw [hcall] at hexact
  exact ⟨hcall, hexact.removed rfl⟩

/-- A byte in front of a page boundary offered for a page: the padding is larger than the region, the
remaining size wraps, and the call returns a block that no region contains. -/
theorem allocatorMemAllocCall_outside :
    Tidy (fun _ _ => False) [⟨⟨0x1001, 1⟩, (8 : AllocRegionFlags)⟩] ∧
      allocatorMemAllocCall [⟨⟨0x1001, 1⟩, 8⟩] 0x1000 0x1000 8 0 =
        (true, 0x2000, [⟨⟨0x1001, 1⟩, 8⟩]) ∧
      ¬ ∃ a, 2 ^ 12 ∣ a ∧ HasBlock [⟨⟨0x1001, 1⟩, 8⟩] 8 a 0x1000 := by
  refine ⟨⟨⟨by simp [Region.span, Range.lo, Range.hi], by simp⟩, by decide⟩, by decide, ?_⟩
  rintro ⟨a, -, region, hregion, -, hlo, hhi⟩
  obtain rfl := List.mem_singleton.mp hregion
  simp only [Range.lo, Range.hi] at hlo hhi
  simp at hlo hhi
  omega

section Free

variable {map : AllocatorMap}

/-- Merging a block that lies inside a region with the same flags leaves the region as it is. -/
theorem merge_of_within (hfits : a.Fits) (hattrs : a.attrs = b.attrs) (hlo : a.lo ≤ b.lo)
    (hhi : b.hi ≤ a.hi) (hne : b.lo < b.hi) :
    merge allocatorRegionPreMerge a b = some a := by
  have hstart : a.lo ≤ b.lo ∧ b.lo < a.hi := ⟨hlo, by omega⟩
  have hnot : ¬ b.address < a.address := fun hlt => by
    have : b.lo < a.lo := BitVec.lt_def.mp hlt
    omega
  have hwithin : StartPointInRange b.address a.address a.size ∧
      EndPointInRange b.address b.size a.address a.size :=
    ⟨(startPointInRange_iff hfits b.toRange).mpr hstart,
      (endPointInRange_iff_of_start hfits hstart).mpr hhi⟩
  rw [merge, if_pos (by simp [allocatorRegionPreMerge, hattrs]), if_neg hnot, mergeSorted,
    if_pos hwithin]
  rfl

/-- Two regions of a canonical map do not merge. -/
theorem merge_of_separate (ha : a.lo < a.hi) (hb : b.lo < b.hi)
    (hseparate : a.span.Before (· = ·) b.span) :
    merge allocatorRegionPreMerge b a = none := by
  cases hmerge : merge allocatorRegionPreMerge b a with
  | none => rfl
  | some m =>
    have hle : a.hi ≤ b.lo := hseparate.1
    obtain ⟨hpre, _, _, _, htouch⟩ := merge_of_disjoint hb ha (Or.inr hle) hmerge
    have hflags : b.attrs = a.attrs := (allocatorRegionPreMerge_decides.iff b a).mp hpre
    have hgap : a.hi < b.lo := hseparate.2 hflags.symm
    simp only [Range.lo, Range.hi] at *
    omega

/-- Adding a block that a region of a canonical map contains, with the region's flags, changes
nothing. -/
theorem allocatorRegionAdd_of_within (htidy : Tidy (· = ·) map) {region block : AllocatorRegion}
    (hregion : region ∈ map) (hattrs : region.attrs = block.attrs) (hlo : region.lo ≤ block.lo)
    (hhi : block.hi ≤ region.hi) (hne : block.lo < block.hi) :
    allocatorRegionAdd map block = map := by
  unfold allocatorRegionAdd
  induction map with
  | nil => cases hregion
  | cons cur rest ih =>
    have hcur : cur.lo < cur.hi := htidy.lo_lt_hi List.mem_cons_self
    have hordered := List.pairwise_cons.mp htidy.canonical.ordered
    have hbefore : ∀ q ∈ rest, cur.span.Before (· = ·) q.span := fun q hq =>
      hordered.1 q.span (List.mem_map_of_mem hq)
    obtain rfl | hrest := List.mem_cons.mp hregion
    · -- the region takes the block in, and its successor does not take the region in
      rw [add, merge_of_within (htidy.fits region List.mem_cons_self) hattrs hlo hhi hne]
      cases rest with
      | nil => rfl
      | cons next rest =>
        have hnone := merge_of_separate hcur (htidy.tail.lo_lt_hi List.mem_cons_self)
          (hbefore next List.mem_cons_self)
        simp only [mergeNext, hnone]
    · -- an earlier region lies before the block, with a gap if the flags agree
      have hsep : cur.span.Before (· = ·) region.span := hbefore region hrest
      have hle : cur.hi ≤ region.lo := hsep.1
      have hnone : merge allocatorRegionPreMerge cur block = none := by
        cases hmerge : merge allocatorRegionPreMerge cur block with
        | none => rfl
        | some m =>
          obtain ⟨hpre, _, _, _, htouch⟩ := merge_of_disjoint hcur hne (Or.inl (by omega)) hmerge
          have hflags : cur.attrs = block.attrs := (allocatorRegionPreMerge_decides.iff _ _).mp hpre
          have hgap : cur.hi < region.lo := hsep.2 (hflags.trans hattrs.symm)
          omega
      have hnot : ¬ block.address < cur.address := fun hlt => by
        have : block.lo < cur.lo := BitVec.lt_def.mp hlt
        omega
      simp only [add, hnone, if_neg hnot]
      rw [ih htidy.tail hrest]

/-- No flags value covers the whole 32-bit space in a canonical map: the region would have the size
`2 ^ 32`. -/
theorem Tidy.exists_not_covered (htidy : Tidy (· = ·) map) (c : AllocRegionFlags) :
    ∃ y < 2 ^ 32, ¬ Covered map y c := by
  by_contra hall
  push Not at hall
  obtain ⟨s, hs, _, hlo, hhi⟩ := htidy.canonical.exists_of_coversWith (a := 0) (b := 2 ^ 32)
    (by decide) fun x _ hx => hall x hx
  obtain ⟨region, _, rfl⟩ := List.mem_map.mp hs
  simp only [Region.span, Range.lo, Range.hi] at hlo hhi
  have := region.size.isLt
  omega

/-- The flags that cover an address of a region are the region's. -/
theorem Tidy.attrs_of_covered {join : AllocRegionFlags → AllocRegionFlags → Prop} (htidy : Tidy join map)
    (hregion : region ∈ map) {x : ℕ}
    {c : AllocRegionFlags} (hlo : region.lo ≤ x) (hhi : x < region.hi) (hx : Covered map x c) :
    region.attrs = c := by
  obtain ⟨other, hother, rfl, hotherLo, hotherHi⟩ := (covered_iff map x c).mp hx
  obtain rfl | hdisjoint := htidy.eq_or_disjoint hregion hother
  · rfl
  · omega

/-- A tidy map is determined by what it covers. -/
theorem Tidy.eq_of_covered {map map' : AllocatorMap} (h : Tidy (· = ·) map) (h' : Tidy (· = ·) map')
    (hcover : ∀ x c, Covered map x c ↔ Covered map' x c) : map = map' :=
  List.map_injective_iff.mpr Region.span_injective
    (h.canonical.eq_of_coversWith h'.canonical hcover)

/-- Adding the block that a map lacks gives the map. -/
theorem Tidy.allocatorRegionAdd_eq {rest : AllocatorMap} {block : AllocatorRegion}
    (htidy : Tidy (· = ·) map) (hrest : Tidy (· = ·) rest) (hblock : block.lo < block.hi)
    (hfits : block.Fits) (hdisjoint : ∀ x c, Covered rest x c → ¬ (block.lo ≤ x ∧ x < block.hi))
    (hcover : ∀ x c, Covered (block :: rest) x c ↔ Covered map x c) :
    allocatorRegionAdd rest block = map := by
  obtain ⟨hadded, hcovered⟩ := allocatorRegionAdd_tidy block hrest hblock hfits hdisjoint
    fun c => by simpa only [hcover] using htidy.exists_not_covered c
  exact hadded.eq_of_covered htidy fun x c => (hcovered x c).trans (hcover x c)

end Free

/-- For every canonical map, freeing an allocated block that lies inside a region of the map, with the
flags of that region, gives back the map. -/
theorem allocatorMemFree_allocatorMemAlloc {map map' : AllocatorMap} {size alignment : Word}
    {flags : AllocRegionFlags} {result : Word} (htidy : Tidy (· = ·) map) (hsize : 0 < size.toNat)
    (h : allocatorMemAlloc map size alignment flags = some (result, map'))
    {region : AllocatorRegion} (hregion : region ∈ map) (hlo : region.lo ≤ result.toNat)
    (hhi : result.toNat + size.toNat ≤ region.hi) :
    allocatorMemFree map' result size region.attrs = map := by
  obtain ⟨passed, stopped, post, rfl, _, _, _, rfl⟩ := allocatorMemAlloc_eq_some h
  let block : AllocatorRegion := ⟨⟨result, size⟩, region.attrs⟩
  have hblock : block.lo < block.hi := Nat.lt_add_of_pos_right hsize
  have hregionFits : region.Fits := htidy.fits region hregion
  have hblockFits : block.Fits := Nat.le_trans hhi hregionFits
  have hmem : stopped ∈ passed ++ stopped :: post := by simp
  by_cases hsame : region = stopped
  · -- the block was carved from its region, so what it covers comes back
    subst hsame
    obtain ⟨hcarved, hcover⟩ := cutAndStitch_tidy block.toRange htidy hlo hhi hblock
    have hback : ∀ x c, Covered (block :: cutAndStitch passed region post block.toRange) x c ↔
        Covered (passed ++ region :: post) x c := by
      intro x c
      rw [covered_cons, hcover]
      by_cases hx : result.toNat ≤ x ∧ x < result.toNat + size.toNat
      · have hin : region.lo ≤ x ∧ x < region.hi := by omega
        constructor
        · rintro (⟨rfl, _⟩ | ⟨_, hout⟩)
          · exact covered_of_mem hregion hin.1 hin.2
          · exact absurd hx hout
        · exact fun hcovered => Or.inl ⟨htidy.attrs_of_covered hregion hin.1 hin.2 hcovered, hx⟩
      · exact ⟨fun h => h.elim (fun h => absurd h.2 hx) And.left, fun h => Or.inr ⟨h, hx⟩⟩
    exact htidy.allocatorRegionAdd_eq hcarved hblock hblockFits (fun x c hx => ((hcover x c).mp hx).2)
      hback
  · -- the loop stopped at another region, which is disjoint from the block and was not cut
    have hdisjoint : stopped.hi ≤ block.lo ∨ block.hi ≤ stopped.lo := by
      have := (htidy.eq_or_disjoint hregion hmem).resolve_left hsame
      change stopped.hi ≤ result.toNat ∨ result.toNat + size.toNat ≤ stopped.lo
      omega
    rw [cutAndStitch_of_disjoint (htidy.lo_lt_hi hmem) (htidy.fits stopped hmem) hblockFits hblock
      hdisjoint]
    exact allocatorRegionAdd_of_within htidy hregion rfl hlo hhi hblock

/-- A page carved from the middle of the only region and freed again. -/
theorem allocatorMemFree_allocatorMemAlloc_page :
    allocatorMemAlloc [⟨⟨0x2800, 0x2000⟩, 8⟩] 0x1000 0x1000 8 =
        some (0x3000, [⟨⟨0x2800, 0x800⟩, 8⟩, ⟨⟨0x4000, 0x800⟩, 8⟩]) ∧
      allocatorMemFree [⟨⟨0x2800, 0x800⟩, 8⟩, ⟨⟨0x4000, 0x800⟩, 8⟩] 0x3000 0x1000 8 =
        [⟨⟨0x2800, 0x2000⟩, 8⟩] := by
  have halloc : allocatorMemAlloc [⟨⟨0x2800, 0x2000⟩, 8⟩] 0x1000 0x1000 8 =
      some (0x3000, [⟨⟨0x2800, 0x800⟩, 8⟩, ⟨⟨0x4000, 0x800⟩, 8⟩]) := by decide
  have htidy : Tidy (· = ·) [⟨⟨0x2800, 0x2000⟩, (8 : AllocRegionFlags)⟩] :=
    ⟨⟨by simp [Region.span, Range.lo, Range.hi], by simp⟩, by decide⟩
  exact ⟨halloc, allocatorMemFree_allocatorMemAlloc htidy (by decide) halloc List.mem_cons_self
    (by decide) (by decide)⟩

end ChrisOS.Mm
