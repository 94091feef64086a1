import ChrisOS.Mm.Allocator
import ChrisOS.Lib.SpanRuns

/-!
# The free list does not depend on the order of additions

Adding a family of disjoint regions to an empty map, in any order, gives one list: the
family sorted by address, with every maximal run of touching regions of equal flags
replaced by a single region. Each addition keeps the list canonical, and a canonical list
is determined by which addresses it covers with which flags.
-/

namespace ChrisOS.Mm

open ChrisOS.Utils ChrisOS.Lib

/-- The region with a given exact span. -/
def Region.ofSpan {ρ : Type*} (s : Span ρ) : Region ρ :=
  ⟨⟨BitVec.ofNat 32 s.lo, BitVec.ofNat 32 (s.hi - s.lo)⟩, s.label⟩

/-- A family of regions in increasing address order. -/
def sortByAddress (family : List AllocatorRegion) : List AllocatorRegion :=
  family.mergeSort fun a b => decide (a.address ≤ b.address)

/-- The family sorted by address, each maximal run of touching equal-flag regions as one. -/
def canonicalMap (family : List AllocatorRegion) : AllocatorMap :=
  (runs ((sortByAddress family).map Region.span)).map Region.ofSpan

/-- Regions that may be handed to an empty map one after the other: non-empty, below the end
of the 32-bit space, pairwise disjoint, and no flags value covers the whole space. -/
structure DisjointFamily (family : List AllocatorRegion) : Prop where
  nonempty : ∀ r ∈ family, r.size ≠ 0
  fits : ∀ r ∈ family, r.Fits
  disjoint : family.Pairwise fun a b => a.hi ≤ b.lo ∨ b.hi ≤ a.lo
  room : ∀ flags, ∃ y < 2 ^ 32, ∀ r ∈ family, r.attrs = flags → ¬ (r.lo ≤ y ∧ y < r.hi)

/-- Being a disjoint family does not depend on the order. -/
theorem DisjointFamily.perm {family order : List AllocatorRegion} (h : DisjointFamily family)
    (hperm : order.Perm family) : DisjointFamily order where
  nonempty r hr := h.nonempty r (hperm.subset hr)
  fits r hr := h.fits r (hperm.subset hr)
  disjoint := hperm.symm.pairwise h.disjoint fun hab => hab.symm
  room flags := by
    obtain ⟨y, hy, hfree⟩ := h.room flags
    exact ⟨y, hy, fun r hr => hfree r (hperm.subset hr)⟩

/-- Adding the remaining regions to a tidy map that is disjoint from them keeps it tidy and
adds exactly their coverage. -/
theorem foldl_allocatorRegionAdd_tidy (order : List AllocatorRegion) (map : AllocatorMap)
    (htidy : Tidy (· = ·) map) (hfamily : DisjointFamily order)
    (hdisjoint : ∀ r ∈ order, ∀ x c, Covered map x c → ¬ (r.lo ≤ x ∧ x < r.hi))
    (hroom : ∀ c, ∃ y < 2 ^ 32, ¬ Covered map y c ∧ ¬ Covered order y c) :
    Tidy (· = ·) (order.foldl allocatorRegionAdd map) ∧
      ∀ x c, Covered (order.foldl allocatorRegionAdd map) x c ↔ Covered map x c ∨ Covered order x c := by
  induction order generalizing map with
  | nil => exact ⟨htidy, fun x c => by simp⟩
  | cons r rest ih =>
    obtain ⟨hfirst, hpairs⟩ := List.pairwise_cons.mp hfamily.disjoint
    have hr : r.lo < r.hi := Range.lo_lt_hi (hfamily.nonempty r List.mem_cons_self)
    have hrest : DisjointFamily rest :=
      { nonempty := fun q hq => hfamily.nonempty q (List.mem_cons_of_mem _ hq)
        fits := fun q hq => hfamily.fits q (List.mem_cons_of_mem _ hq)
        disjoint := hpairs
        room := fun flags => by
          obtain ⟨y, hy, hfree⟩ := hfamily.room flags
          exact ⟨y, hy, fun q hq => hfree q (List.mem_cons_of_mem _ hq)⟩ }
    obtain ⟨htidy', hcover⟩ := allocatorRegionAdd_tidy r htidy hr
      (hfamily.fits r List.mem_cons_self) (hdisjoint r List.mem_cons_self) fun c => by
        obtain ⟨y, hy, hmap, horder⟩ := hroom c
        rw [covered_cons] at horder
        refine ⟨y, hy, ?_⟩
        rw [covered_cons]
        grind
    have hstep := ih (allocatorRegionAdd map r) htidy' hrest
      (fun q hq x c hx => by
        rw [hcover, covered_cons] at hx
        obtain ⟨_, hlo, hhi⟩ | hx := hx
        · have := hfirst q hq
          omega
        · exact hdisjoint q (List.mem_cons_of_mem _ hq) x c hx)
      (fun c => by
        obtain ⟨y, hy, hmap, horder⟩ := hroom c
        rw [covered_cons] at horder
        refine ⟨y, hy, ?_, fun h => horder (Or.inr h)⟩
        rw [hcover, covered_cons]
        grind)
    refine ⟨hstep.1, fun x c => ?_⟩
    rw [List.foldl_cons, hstep.2, hcover, covered_cons, covered_cons]
    grind

variable {family : List AllocatorRegion}

/-- Sorting puts a disjoint family in increasing order without overlap. -/
theorem sortByAddress_ordered (h : DisjointFamily family) :
    (sortByAddress family).Pairwise fun a b => a.hi ≤ b.lo := by
  have hfamily : DisjointFamily (sortByAddress family) := h.perm (List.mergeSort_perm _ _)
  have hsorted : (sortByAddress family).Pairwise fun a b => decide (a.address ≤ b.address) := by
    apply List.pairwise_mergeSort
    · intro a b c hab hbc
      exact decide_eq_true (BitVec.le_trans (of_decide_eq_true hab) (of_decide_eq_true hbc))
    · intro a b
      simpa using BitVec.le_total a.address b.address
  refine (hsorted.and hfamily.disjoint).imp_of_mem fun {a b} ha hb hab => ?_
  have hlo := Range.lo_lt_hi (hfamily.nonempty b hb)
  have hle := of_decide_eq_true hab.1
  have hdis := hab.2
  simp only [Range.lo, Range.hi] at *
  bv_omega

/-- A span that a region can have is the span of that region. -/
theorem Region.span_ofSpan {ρ : Type*} (s : Span ρ) (hle : s.lo ≤ s.hi) (hlo : s.lo < 2 ^ 32)
    (hsize : s.hi - s.lo < 2 ^ 32) : (Region.ofSpan s).span = s := by
  simp only [Region.span, Region.ofSpan, Range.lo, Range.hi, BitVec.toNat_ofNat,
    Nat.mod_eq_of_lt hlo, Nat.mod_eq_of_lt hsize]
  rw [Nat.add_sub_cancel' hle]

/-- The runs of a disjoint family are canonical and cover exactly what the family covers. -/
theorem runs_sortByAddress (h : DisjointFamily family) :
    Canonical (· = ·) (runs ((sortByAddress family).map Region.span)) ∧
      ∀ x c, CoversWith (runs ((sortByAddress family).map Region.span)) x c ↔ Covered family x c := by
  have hperm : (sortByAddress family).Perm family := List.mergeSort_perm _ _
  obtain ⟨hcanonical, hcover⟩ := runs_canonical ((sortByAddress family).map Region.span)
    (fun t ht => by
      obtain ⟨r, hr, rfl⟩ := List.mem_map.mp ht
      exact Range.lo_lt_hi (h.nonempty r (hperm.subset hr)))
    (List.pairwise_map.mpr (sortByAddress_ordered h))
  refine ⟨hcanonical, fun x c => (hcover x c).trans ?_⟩
  change Covered (sortByAddress family) x c ↔ Covered family x c
  simp only [covered_iff, hperm.mem_iff]

/-- The runs of a disjoint family are spans of regions: none is as large as the 32-bit space. -/
theorem map_span_canonicalMap (h : DisjointFamily family) :
    (canonicalMap family).map Region.span = runs ((sortByAddress family).map Region.span) := by
  obtain ⟨hcanonical, hcover⟩ := runs_sortByAddress h
  unfold canonicalMap
  rw [List.map_map]
  refine (List.map_congr_left fun s hs => ?_).trans (List.map_id _)
  have hne := hcanonical.nonempty s hs
  have hbound : ∀ x, s.lo ≤ x → x < s.hi → x < 2 ^ 32 := by
    intro x hlo hhi
    obtain ⟨r, hr, _, _, hx⟩ := (covered_iff _ _ _).mp ((hcover x s.label).mp ⟨s, hs, rfl, hlo, hhi⟩)
    exact Nat.lt_of_lt_of_le hx (h.fits r hr)
  have hroom : ∃ y < 2 ^ 32, ¬ (s.lo ≤ y ∧ y < s.hi) := by
    obtain ⟨y, hy, hfree⟩ := h.room s.label
    refine ⟨y, hy, fun hin => ?_⟩
    obtain ⟨r, hr, hattrs, hx⟩ := (covered_iff _ _ _).mp ((hcover y s.label).mp ⟨s, hs, rfl, hin⟩)
    exact hfree r hr hattrs hx
  have hfirst := hbound s.lo (Nat.le_refl _) hne
  have hlast := hbound (s.hi - 1) (by omega) (by omega)
  obtain ⟨y, hy, hout⟩ := hroom
  exact Region.span_ofSpan s (Nat.le_of_lt hne) hfirst (by omega)

/-- Every order of adding a disjoint family to an empty map gives its canonical map. -/
theorem allocatorRegionAdd_any_order (family order : List AllocatorRegion)
    (h : DisjointFamily family) (hperm : order.Perm family) :
    order.foldl allocatorRegionAdd allocatorMapInit = canonicalMap family := by
  have horder := h.perm hperm
  obtain ⟨htidy, hcover⟩ := foldl_allocatorRegionAdd_tidy order allocatorMapInit
    ⟨Canonical.nil, by simp [allocatorMapInit]⟩ horder (by simp [allocatorMapInit]) fun c => by
      obtain ⟨y, hy, hfree⟩ := horder.room c
      refine ⟨y, hy, not_covered_nil y c, fun hcov => ?_⟩
      obtain ⟨r, hr, hattrs, hx⟩ := (covered_iff _ _ _).mp hcov
      exact hfree r hr hattrs hx
  obtain ⟨hcanonical, hruns⟩ := runs_sortByAddress h
  apply List.map_injective_iff.mpr Region.span_injective
  rw [map_span_canonicalMap h]
  apply htidy.canonical.eq_of_coversWith hcanonical
  intro x c
  rw [hruns]
  change Covered _ x c ↔ _
  rw [hcover]
  simp only [covered_iff, hperm.mem_iff, allocatorMapInit, List.not_mem_nil, false_and,
    exists_false, false_or]

/-- Two touching kernel regions and a user region between two others, added in two orders. -/
theorem allocatorRegionAdd_any_order_four :
    [⟨⟨0x3000, 0x1000⟩, 2⟩, ⟨⟨0x1000, 0x1000⟩, 2⟩, ⟨⟨0x4000, 0x1000⟩, 1⟩, ⟨⟨0x2000, 0x1000⟩, 2⟩].foldl
        allocatorRegionAdd allocatorMapInit =
      canonicalMap [⟨⟨0x1000, 0x1000⟩, 2⟩, ⟨⟨0x2000, 0x1000⟩, 2⟩, ⟨⟨0x3000, 0x1000⟩, 2⟩,
        ⟨⟨0x4000, 0x1000⟩, 1⟩] := by
  apply allocatorRegionAdd_any_order
  · exact
      { nonempty := by decide
        fits := by decide
        disjoint := by decide
        room := fun flags => ⟨0, by decide, by
          simp [Range.lo, Range.hi]⟩ }
  · decide

end ChrisOS.Mm
