import ChrisOS.Mm.Allocator

/-!
# Merging regions, and adding a region that overlaps others

`_merge` of `mm/range.h` for operands in any position. It works on distances between end points, not
on the end points, so as long as the operands together span less than `2 ^ 32` it joins them exactly
when they overlap or touch, into their hull.

`_add` merges the new region into the first region that takes it and offers the result to one
successor. A region that overlaps more of the map leaves a third one behind, inside the merged one.
-/

namespace ChrisOS.Mm

open ChrisOS.Utils ChrisOS.Lib

/-- The closed intervals have a point in common: the ranges overlap or touch. -/
def Range.Meets (a b : Range) : Prop := ∃ x, (a.lo ≤ x ∧ x ≤ a.hi) ∧ (b.lo ≤ x ∧ x ≤ b.hi)

/-- From the lowest start to the highest end is less than `2 ^ 32`. -/
def Range.SpanBelow (a b : Range) : Prop := max a.hi b.hi < min a.lo b.lo + 2 ^ 32

/-- The range from the lowest start to the highest end. -/
def Range.hull (a b : Range) : Range :=
  ⟨BitVec.ofNat 32 (min a.lo b.lo), BitVec.ofNat 32 (max a.hi b.hi - min a.lo b.lo)⟩

theorem Range.lo_le_hi (r : Range) : r.lo ≤ r.hi := Nat.le_add_right _ _

theorem Range.lo_lt (r : Range) : r.lo < 2 ^ 32 := r.address.isLt

/-- Meeting, by end points. -/
theorem Range.meets_iff (a b : Range) : a.Meets b ↔ a.lo ≤ b.hi ∧ b.lo ≤ a.hi := by
  have ha := a.lo_le_hi
  have hb := b.lo_le_hi
  constructor
  · rintro ⟨x, hxa, hxb⟩
    omega
  · intro h
    exact ⟨max a.lo b.lo, by omega, by omega⟩

instance (a b : Range) : Decidable (a.Meets b) := decidable_of_iff' _ (a.meets_iff b)

variable {a b : Range}

theorem Range.Meets.symm (h : a.Meets b) : b.Meets a := by
  rw [Range.meets_iff] at h ⊢
  omega

theorem Range.SpanBelow.symm (h : a.SpanBelow b) : b.SpanBelow a := by
  unfold Range.SpanBelow at h ⊢
  omega

theorem Range.hull_comm (a b : Range) : a.hull b = b.hull a := by
  rw [hull, hull, Nat.min_comm, Nat.max_comm]

@[simp] theorem Range.hull_lo (a b : Range) : (a.hull b).lo = min a.lo b.lo := by
  have ha := a.lo_lt
  have hb := b.lo_lt
  change (BitVec.ofNat 32 (min a.lo b.lo)).toNat = _
  rw [BitVec.toNat_ofNat, Nat.mod_eq_of_lt (by omega)]

theorem Range.hull_hi (h : a.SpanBelow b) : (a.hull b).hi = max a.hi b.hi := by
  have ha := a.lo_le_hi
  unfold SpanBelow at h
  change (a.hull b).lo + (BitVec.ofNat 32 (max a.hi b.hi - min a.lo b.lo)).toNat = _
  rw [hull_lo, BitVec.toNat_ofNat, Nat.mod_eq_of_lt (by omega)]
  omega

/-- Ranges with the same end points are the same. -/
theorem Range.eq_of_span (hlo : a.lo = b.lo) (hhi : a.hi = b.hi) : a = b := by
  unfold Range.lo at hlo
  unfold Range.hi at hhi
  exact Range.ext (BitVec.eq_of_toNat_eq hlo) (BitVec.eq_of_toNat_eq (by omega))

/-- Sorted ranges join exactly when the first reaches the second. The three cases of the code are
containment, a proper overlap and adjacency; in each the size is the distance between end points. -/
theorem mergeSorted_eq_hull (hle : a.lo ≤ b.lo) (hspan : a.SpanBelow b) :
    mergeSorted a b = if a.Meets b then some (a.hull b) else none := by
  have hstart : StartPointInRange b.address a.address a.size ↔ b.lo < a.hi := by
    simp only [Range.lo, Range.hi] at hle ⊢
    unfold StartPointInRange
    bv_omega
  have hwithin : b.lo < a.hi →
      (EndPointInRange b.address b.size a.address a.size ↔ b.hi ≤ a.hi) := by
    intro hlt
    simp only [Range.lo, Range.hi] at hle hlt ⊢
    unfold EndPointInRange EndPointGtStartPoint EndPointLtEndPoint
    bv_omega
  have hoverlap : b.lo < a.hi →
      (EndPointInRange a.address a.size b.address b.size ↔ a.hi ≤ b.hi) := by
    intro hlt
    simp only [Range.SpanBelow, Range.lo, Range.hi] at hle hlt hspan ⊢
    unfold EndPointInRange EndPointGtStartPoint EndPointLtEndPoint
    bv_omega
  have hadjacent : b.address - a.address = a.size ↔ b.lo = a.hi := by
    simp only [Range.lo, Range.hi] at hle ⊢
    bv_omega
  have hmeets : a.Meets b ↔ b.lo ≤ a.hi := by
    have := b.lo_le_hi
    rw [Range.meets_iff]
    omega
  unfold mergeSorted
  simp only [hstart, hadjacent, hmeets]
  obtain hlt | heq | hgt := Nat.lt_trichotomy b.lo a.hi
  · rw [if_pos (Nat.le_of_lt hlt)]
    simp only [hwithin hlt, hoverlap hlt, hlt, true_and]
    by_cases hin : b.hi ≤ a.hi
    · rw [if_pos hin, Option.some_inj]
      refine Range.eq_of_span ?_ ?_
      · rw [Range.hull_lo]
        exact (Nat.min_eq_left hle).symm
      · rw [Range.hull_hi hspan]
        exact (Nat.max_eq_left hin).symm
    · rw [if_neg hin, if_pos (by omega), Option.some_inj]
      refine Range.eq_of_span ?_ ?_
      · rw [Range.hull_lo]
        exact (Nat.min_eq_left hle).symm
      · rw [Range.hull_hi hspan, Nat.max_eq_right (by omega)]
        simp only [Range.SpanBelow, Range.lo, Range.hi] at hle hspan ⊢
        bv_omega
  · rw [if_pos (Nat.le_of_eq heq), if_neg (by omega), if_neg (by omega), if_pos heq,
      Option.some_inj]
    refine Range.eq_of_span ?_ ?_
    · rw [Range.hull_lo]
      exact (Nat.min_eq_left hle).symm
    · have := b.lo_le_hi
      rw [Range.hull_hi hspan, Nat.max_eq_right (by omega)]
      simp only [Range.SpanBelow, Range.lo, Range.hi] at heq hspan ⊢
      bv_omega
  · rw [if_neg (by omega), if_neg (by omega), if_neg (by omega), if_neg (by omega)]

variable {ρ : Type*}

/-- `_merge`, in whatever order the operands stand. -/
theorem merge_eq_hull (preMerge : Region ρ → Region ρ → Bool) {a b : Region ρ}
    (hspan : a.SpanBelow b.toRange) :
    merge preMerge a b =
      if preMerge a b = true ∧ a.Meets b.toRange then
        some { a with toRange := a.hull b.toRange }
      else none := by
  unfold merge
  by_cases hpre : preMerge a b = true
  · rw [if_pos hpre]
    by_cases hlt : b.address < a.address
    · have hle : b.lo ≤ a.lo := Nat.le_of_lt (BitVec.lt_def.mp hlt)
      rw [if_pos hlt, mergeSorted_eq_hull hle hspan.symm, Range.hull_comm]
      by_cases hmeets : a.Meets b.toRange
      · rw [if_pos hmeets.symm, if_pos ⟨hpre, hmeets⟩, Option.map_some]
      · rw [if_neg (fun h => hmeets h.symm), if_neg (fun h => hmeets h.2), Option.map_none]
    · have hle : a.lo ≤ b.lo := BitVec.not_lt.mp hlt
      rw [if_neg hlt, mergeSorted_eq_hull hle hspan]
      by_cases hmeets : a.Meets b.toRange
      · rw [if_pos hmeets, if_pos ⟨hpre, hmeets⟩, Option.map_some]
      · rw [if_neg hmeets, if_neg (fun h => hmeets h.2), Option.map_none]
  · rw [if_neg hpre, if_neg (fun h => hpre h.1)]

/-- `allocator_region_merge` as its callers see it: the value returned and both operands
afterwards. -/
def allocatorRegionMerge (a b : AllocatorRegion) : Bool × AllocatorRegion × AllocatorRegion :=
  match merge allocatorRegionPreMerge a b with
  | some union => (true, union, b)
  | none => (false, a, b)

/-- The whole outcome of a merge. -/
theorem allocatorRegionMerge_eq {a b : AllocatorRegion} (hspan : a.SpanBelow b.toRange) :
    allocatorRegionMerge a b =
      if a.attrs = b.attrs ∧ a.Meets b.toRange then
        (true, { a with toRange := a.hull b.toRange }, b)
      else (false, a, b) := by
  have htest : allocatorRegionPreMerge a b = true ↔ a.attrs = b.attrs :=
    allocatorRegionPreMerge_decides.iff a b
  rw [allocatorRegionMerge, merge_eq_hull _ hspan]
  simp only [htest]
  by_cases hjoin : a.attrs = b.attrs ∧ a.Meets b.toRange
  · rw [if_pos hjoin, if_pos hjoin]
  · rw [if_neg hjoin, if_neg hjoin]

/-- Merging is exact union: it succeeds on equal flags and intervals that overlap or touch, leaves
the first operand from the lowest start to the highest end and the second as it was, and changes
nothing otherwise; in the other order the union is the same. -/
theorem allocatorRegionMerge_union {a b : AllocatorRegion} (hspan : a.SpanBelow b.toRange) :
    ((allocatorRegionMerge a b).1 = true ↔ a.attrs = b.attrs ∧ a.Meets b.toRange) ∧
      ((allocatorRegionMerge a b).1 = true →
        (allocatorRegionMerge a b).2.1.lo = min a.lo b.lo ∧
          (allocatorRegionMerge a b).2.1.hi = max a.hi b.hi ∧
          (allocatorRegionMerge a b).2.1.attrs = a.attrs ∧ (allocatorRegionMerge a b).2.2 = b) ∧
      ((allocatorRegionMerge a b).1 = false → (allocatorRegionMerge a b).2 = (a, b)) ∧
      (allocatorRegionMerge b a).1 = (allocatorRegionMerge a b).1 ∧
      ((allocatorRegionMerge a b).1 = true →
        (allocatorRegionMerge b a).2.1 = (allocatorRegionMerge a b).2.1) := by
  have hswap : b.attrs = a.attrs ∧ b.Meets a.toRange ↔ a.attrs = b.attrs ∧ a.Meets b.toRange :=
    ⟨fun h => ⟨h.1.symm, h.2.symm⟩, fun h => ⟨h.1.symm, h.2.symm⟩⟩
  rw [allocatorRegionMerge_eq hspan, allocatorRegionMerge_eq hspan.symm]
  by_cases hjoin : a.attrs = b.attrs ∧ a.Meets b.toRange
  · rw [if_pos hjoin, if_pos (hswap.mpr hjoin)]
    refine ⟨iff_of_true rfl hjoin, fun _ => ⟨Range.hull_lo _ _, Range.hull_hi hspan, rfl, rfl⟩,
      fun h => (nomatch h), rfl, fun _ => ?_⟩
    dsimp only
    rw [Range.hull_comm, hjoin.1]
  · rw [if_neg hjoin, if_neg (fun h => hjoin (hswap.mp h))]
    exact ⟨iff_of_false Bool.false_ne_true hjoin, fun h => (nomatch h), fun _ => rfl, rfl,
      fun h => (nomatch h)⟩

/-- Two regions that overlap in half a page, up to the end of the address space. -/
theorem allocatorRegionMerge_union_top :
    (allocatorRegionMerge ⟨⟨0xFFFFE000, 0x1800⟩, 8⟩ ⟨⟨0xFFFFF000, 0x1000⟩, 8⟩).1 = true ∧
      (allocatorRegionMerge ⟨⟨0xFFFFE000, 0x1800⟩, 8⟩ ⟨⟨0xFFFFF000, 0x1000⟩, 8⟩).2.1.lo =
        0xFFFFE000 ∧
      (allocatorRegionMerge ⟨⟨0xFFFFE000, 0x1800⟩, 8⟩ ⟨⟨0xFFFFF000, 0x1000⟩, 8⟩).2.1.hi = 2 ^ 32 := by
  have hunion := allocatorRegionMerge_union (a := ⟨⟨0xFFFFE000, 0x1800⟩, 8⟩)
    (b := ⟨⟨0xFFFFF000, 0x1000⟩, 8⟩) (by unfold Range.SpanBelow; decide)
  have htrue := hunion.1.mpr (by decide)
  exact ⟨htrue, (hunion.2.1 htrue).1, (hunion.2.1 htrue).2.1⟩

/-- Non-empty regions in address order, of which no two overlap. -/
structure Normalised (l : List (Region ρ)) : Prop where
  nonempty : ∀ q ∈ l, q.lo < q.hi
  ordered : l.Pairwise fun p q => p.hi ≤ q.lo

instance (l : List (Region ρ)) : Decidable (Normalised l) :=
  decidable_of_iff ((∀ q ∈ l, q.lo < q.hi) ∧ l.Pairwise fun p q => p.hi ≤ q.lo)
    ⟨fun h => ⟨h.1, h.2⟩, fun h => ⟨h.1, h.2⟩⟩

/-- Normalised is canonical for labels that are never joined. -/
theorem normalised_iff_canonical (l : List (Region ρ)) :
    Normalised l ↔ Canonical (fun _ _ => False) (l.map Region.span) := by
  constructor
  · intro h
    refine ⟨?_, List.pairwise_map.mpr (h.ordered.imp fun hle => ⟨hle, False.elim⟩)⟩
    intro s hs
    obtain ⟨q, hq, rfl⟩ := List.mem_map.mp hs
    exact h.nonempty q hq
  · intro h
    exact ⟨fun q hq => h.nonempty q.span (List.mem_map_of_mem hq),
      (List.pairwise_map.mp h.ordered).imp fun hbefore => hbefore.1⟩

theorem normalised_cons (r : Region ρ) (l : List (Region ρ)) :
    Normalised (r :: l) ↔ r.lo < r.hi ∧ (∀ q ∈ l, r.hi ≤ q.lo) ∧ Normalised l := by
  constructor
  · intro h
    obtain ⟨hbefore, hordered⟩ := List.pairwise_cons.mp h.ordered
    obtain ⟨hr, hl⟩ := List.forall_mem_cons.mp h.nonempty
    exact ⟨hr, hbefore, hl, hordered⟩
  · rintro ⟨hr, hbefore, hl⟩
    exact ⟨List.forall_mem_cons.mpr ⟨hr, hl.nonempty⟩, List.pairwise_cons.mpr ⟨hbefore, hl.ordered⟩⟩

section OverlappingAdd

variable {cur region : AllocatorRegion} {map : AllocatorMap} {flags : AllocRegionFlags}

/-- Whether a region begins before the new one ends and does not end before it begins. -/
def reachedBy (region q : AllocatorRegion) : Bool := region.lo ≤ q.hi ∧ q.lo < region.hi

/-- Regions that carry `flags`, together spanning less than `2 ^ 32`. -/
structure OneKind (flags : AllocRegionFlags) (l : AllocatorMap) : Prop where
  flags : ∀ q ∈ l, q.attrs = flags
  span : ∀ p ∈ l, ∀ q ∈ l, q.hi < p.lo + 2 ^ 32

instance (l : AllocatorMap) : Decidable (OneKind flags l) :=
  decidable_of_iff ((∀ q ∈ l, q.attrs = flags) ∧ ∀ p ∈ l, ∀ q ∈ l, q.hi < p.lo + 2 ^ 32)
    ⟨fun h => ⟨h.1, h.2⟩, fun h => ⟨h.1, h.2⟩⟩

/-- Fewer regions are of one kind as well. -/
theorem OneKind.subset {l l' : AllocatorMap} (h : OneKind flags l) (hsub : l' ⊆ l) :
    OneKind flags l' :=
  ⟨fun q hq => h.flags q (hsub hq), fun p hp q hq => h.span p (hsub hp) q (hsub hq)⟩

/-- Two regions of one kind span less than `2 ^ 32`. -/
theorem OneKind.spanBelow (h : OneKind flags (region :: cur :: map)) :
    cur.SpanBelow region.toRange := by
  have hcur : cur ∈ region :: cur :: map := by simp
  have hregion : region ∈ region :: cur :: map := by simp
  have := h.span cur hcur cur hcur
  have := h.span cur hcur region hregion
  have := h.span region hregion cur hcur
  have := h.span region hregion region hregion
  unfold Range.SpanBelow
  omega

/-- Two regions of one kind merge exactly when they meet. -/
theorem OneKind.merge_eq (h : OneKind flags (region :: cur :: map)) :
    merge allocatorRegionPreMerge cur region =
      if cur.Meets region.toRange then some ⟨cur.hull region.toRange, flags⟩ else none := by
  have hcur : cur ∈ region :: cur :: map := by simp
  have hregion : region ∈ region :: cur :: map := by simp
  have htest : allocatorRegionPreMerge cur region = true :=
    (allocatorRegionPreMerge_decides.iff cur region).mpr
      ((h.flags cur hcur).trans (h.flags region hregion).symm)
  simp only [merge_eq_hull _ h.spanBelow, htest, true_and, h.flags cur hcur]

/-- A merged region takes the place of its two parts. -/
theorem OneKind.hull (h : OneKind flags (region :: cur :: map))
    (hmeets : cur.Meets region.toRange) :
    (cur.hull region.toRange).lo = min cur.lo region.lo ∧
      (cur.hull region.toRange).hi = max cur.hi region.hi ∧
      OneKind flags (⟨cur.hull region.toRange, flags⟩ :: map) ∧
      ∀ x c, Covered (⟨cur.hull region.toRange, flags⟩ :: map) x c ↔
        Covered (region :: cur :: map) x c := by
  have hcur : cur ∈ region :: cur :: map := by simp
  have hregion : region ∈ region :: cur :: map := by simp
  have hlo : (cur.hull region.toRange).lo = min cur.lo region.lo := Range.hull_lo _ _
  have hhi : (cur.hull region.toRange).hi = max cur.hi region.hi := Range.hull_hi h.spanBelow
  refine ⟨hlo, hhi, ⟨?_, ?_⟩, fun x c => ?_⟩
  · exact List.forall_mem_cons.mpr ⟨rfl, fun q hq => h.flags q (by simp [hq])⟩
  · have hbound : ∀ p ∈ (⟨cur.hull region.toRange, flags⟩ :: map : AllocatorMap),
        ∃ a ∈ region :: cur :: map, ∃ b ∈ region :: cur :: map, a.lo = p.lo ∧ b.hi = p.hi := by
      intro p hp
      rcases List.mem_cons.mp hp with rfl | hp
      · have hmin : ∃ a ∈ region :: cur :: map, a.lo = (cur.hull region.toRange).lo := by
          obtain hle | hle := Nat.le_total cur.lo region.lo
          · exact ⟨cur, hcur, by omega⟩
          · exact ⟨region, hregion, by omega⟩
        have hmax : ∃ b ∈ region :: cur :: map, b.hi = (cur.hull region.toRange).hi := by
          obtain hle | hle := Nat.le_total cur.hi region.hi
          · exact ⟨region, hregion, by omega⟩
          · exact ⟨cur, hcur, by omega⟩
        obtain ⟨a, ha, halo⟩ := hmin
        obtain ⟨b, hb, hbhi⟩ := hmax
        exact ⟨a, ha, b, hb, halo, hbhi⟩
      · exact ⟨p, by simp [hp], p, by simp [hp], rfl, rfl⟩
    intro p hp q hq
    obtain ⟨a, ha, _, _, halo, _⟩ := hbound p hp
    obtain ⟨_, _, b, hb, _, hbhi⟩ := hbound q hq
    rw [← halo, ← hbhi]
    exact h.span a ha b hb
  · rw [Range.meets_iff] at hmeets
    rw [covered_cons, covered_cons, covered_cons, h.flags cur hcur, h.flags region hregion, hlo, hhi]
    have hpoint : (min cur.lo region.lo ≤ x ∧ x < max cur.hi region.hi) ↔
        (region.lo ≤ x ∧ x < region.hi) ∨ (cur.lo ≤ x ∧ x < cur.hi) := by
      omega
    rw [hpoint]
    grind

/-- The result of offering a grown region to its successor: coverage is kept, and the list is
normalised unless the grown region reaches into the region after that successor. -/
theorem mergeNext_overlapping (hmap : Normalised map) (hkind : OneKind flags (cur :: map))
    (hcur : cur.lo < cur.hi) (hbegin : ∀ q ∈ map, cur.lo ≤ q.lo) :
    (∀ x c, Covered (mergeNext allocatorRegionPreMerge cur map) x c ↔ Covered (cur :: map) x c) ∧
      (Normalised (mergeNext allocatorRegionPreMerge cur map) ↔ ∀ q ∈ map.tail, cur.hi ≤ q.lo) := by
  cases map with
  | nil =>
    exact ⟨fun x c => Iff.rfl, iff_of_true ((normalised_cons _ _).mpr ⟨hcur, by simp, hmap⟩) (by simp)⟩
  | cons next rest =>
    obtain ⟨hnext, hafter, hrest⟩ := (normalised_cons next rest).mp hmap
    have hfirst := hbegin next List.mem_cons_self
    rw [mergeNext, hkind.merge_eq]
    by_cases hmeets : next.Meets cur.toRange
    · obtain ⟨hlo, hhi, _, hcover⟩ := hkind.hull hmeets
      rw [if_pos hmeets]
      refine ⟨hcover, ?_⟩
      change Normalised (⟨next.hull cur.toRange, flags⟩ :: rest) ↔ ∀ q ∈ rest, cur.hi ≤ q.lo
      rw [normalised_cons]
      change (next.hull cur.toRange).lo < (next.hull cur.toRange).hi ∧
        (∀ q ∈ rest, (next.hull cur.toRange).hi ≤ q.lo) ∧ Normalised rest ↔ _
      rw [hlo, hhi]
      constructor
      · intro h q hq
        exact Nat.le_trans (Nat.le_max_right _ _) (h.2.1 q hq)
      · intro h
        exact ⟨by omega, fun q hq => Nat.max_le.mpr ⟨hafter q hq, h q hq⟩, hrest⟩
    · rw [if_neg hmeets]
      rw [Range.meets_iff] at hmeets
      have hgap : cur.hi ≤ next.lo := by omega
      have hall : ∀ q ∈ next :: rest, cur.hi ≤ q.lo := by
        intro q hq
        rcases List.mem_cons.mp hq with rfl | hq
        · exact hgap
        · have := hafter q hq
          omega
      exact ⟨fun x c => Iff.rfl, iff_of_true ((normalised_cons _ _).mpr ⟨hcur, hall, hmap⟩)
        fun q hq => hall q (List.mem_of_mem_tail hq)⟩

/-- No region of a list that starts at or after the end of the new one is reached by it. -/
theorem countP_reachedBy_eq_zero (h : ∀ q ∈ map, region.hi ≤ q.lo) :
    map.countP (reachedBy region) = 0 := by
  rw [List.countP_eq_zero]
  intro q hq hreach
  have := h q hq
  simp only [reachedBy, decide_eq_true_eq] at hreach
  omega

/-- From a region that does not end before the new one begins on, the new one reaches every
region that it begins before the end of. -/
theorem three_le_countP_reachedBy (region : AllocatorRegion) {next q : AllocatorRegion}
    {rest : AllocatorMap} (h : Normalised (cur :: next :: rest)) (hcur : region.lo ≤ cur.hi)
    (hq : q ∈ rest) (hlt : q.lo < region.hi) :
    2 < (cur :: next :: rest).countP (reachedBy region) := by
  obtain ⟨hcurNe, hcurBefore, hnext⟩ := (normalised_cons _ _).mp h
  obtain ⟨hnextNe, hnextBefore, hrest⟩ := (normalised_cons _ _).mp hnext
  have hstep := hcurBefore next List.mem_cons_self
  have hstep' := hnextBefore q hq
  have hqNe := hrest.nonempty q hq
  have hreach : reachedBy region cur = true ∧ reachedBy region next = true ∧ reachedBy region q = true := by
    simp only [reachedBy, decide_eq_true_eq]
    omega
  have hpos : 0 < rest.countP (reachedBy region) := List.countP_pos_iff.mpr ⟨q, hq, hreach.2.2⟩
  rw [List.countP_cons_of_pos hreach.1, List.countP_cons_of_pos hreach.2.1]
  omega

/-- Adding to a normalised map a region of its kind: what is covered is the union, and the map stays
normalised exactly when the region reaches no more than two of the old ones. -/
theorem add_overlapping (hmap : Normalised map) (hkind : OneKind flags (region :: map))
    (hregion : region.lo < region.hi) :
    (∀ x c, Covered (add allocatorRegionPreMerge map region) x c ↔ Covered (region :: map) x c) ∧
      (Normalised (add allocatorRegionPreMerge map region) ↔
        map.countP (reachedBy region) ≤ 2) := by
  induction map with
  | nil =>
    exact ⟨fun x c => Iff.rfl,
      iff_of_true ((normalised_cons _ _).mpr ⟨hregion, by simp, hmap⟩) (by simp)⟩
  | cons cur rest ih =>
    obtain ⟨hcur, hbefore, hrest⟩ := (normalised_cons cur rest).mp hmap
    rw [add, hkind.merge_eq]
    by_cases hmeets : cur.Meets region.toRange
    · obtain ⟨hlo, hhi, hkind', hcover⟩ := hkind.hull hmeets
      rw [Range.meets_iff] at hmeets
      have hbegin : ∀ q ∈ rest, (cur.hull region.toRange).lo ≤ q.lo := fun q hq => by
        have := hbefore q hq
        omega
      obtain ⟨hcover', hnormal⟩ := mergeNext_overlapping hrest hkind'
        (show (cur.hull region.toRange).lo < (cur.hull region.toRange).hi by omega) hbegin
      rw [if_pos (by rw [Range.meets_iff]; exact hmeets)]
      refine ⟨fun x c => (hcover' x c).trans (hcover x c), hnormal.trans ?_⟩
      change (∀ q ∈ rest.tail, (cur.hull region.toRange).hi ≤ q.lo) ↔ _
      rw [hhi]
      cases rest with
      | nil =>
        refine iff_of_true (by simp) (Nat.le_trans (List.countP_le_length) (by simp))
      | cons next rest =>
        change (∀ q ∈ rest, _) ↔ _
        constructor
        · intro h
          have hzero : rest.countP (reachedBy region) = 0 :=
            countP_reachedBy_eq_zero fun q hq => Nat.le_trans (Nat.le_max_right _ _) (h q hq)
          rw [List.countP_cons, List.countP_cons, hzero]
          split <;> split <;> omega
        · intro hcount q hq
          have hq' := hbefore q (List.mem_cons_of_mem _ hq)
          by_contra hlt
          have := three_le_countP_reachedBy region hmap hmeets.2 hq (by omega)
          omega
    · rw [if_neg hmeets]
      rw [Range.meets_iff] at hmeets
      dsimp only
      by_cases hlt : region.address < cur.address
      · have hlt' : region.lo < cur.lo := BitVec.lt_def.mp hlt
        have hall : ∀ q ∈ cur :: rest, region.hi ≤ q.lo := by
          intro q hq
          rcases List.mem_cons.mp hq with rfl | hq
          · omega
          · have := hbefore q hq
            omega
        rw [if_pos hlt]
        refine ⟨fun x c => Iff.rfl, iff_of_true ((normalised_cons _ _).mpr ⟨hregion, hall, hmap⟩) ?_⟩
        rw [countP_reachedBy_eq_zero hall]
        omega
      · have hge : cur.lo ≤ region.lo := BitVec.not_lt.mp hlt
        have hgap : cur.hi < region.lo := by omega
        obtain ⟨hcover, hnormal⟩ := ih hrest (hkind.subset fun q hq => by
          rcases List.mem_cons.mp hq with rfl | hq <;> simp [*])
        rw [if_neg hlt]
        refine ⟨fun x c => ?_, ?_⟩
        · rw [covered_cons, hcover, covered_cons, covered_cons, covered_cons]
          grind
        · have hskip : reachedBy region cur = false := by
            simp only [reachedBy, decide_eq_false_iff_not]
            omega
          rw [normalised_cons, List.countP_cons_of_neg (by simp [hskip]), ← hnormal]
          refine ⟨fun h => h.2.2, fun h => ⟨hcur, fun q hq => ?_, h⟩⟩
          -- the start of every region of the result is covered by the region or by the rest
          have hstart := (hcover _ _).mp (covered_of_mem hq (Nat.le_refl _) (h.nonempty q hq))
          rcases (covered_cons _ _ _ _).mp hstart with ⟨_, hle, _⟩ | hstart
          · omega
          · obtain ⟨t, ht, _, hle, _⟩ := (covered_iff _ _ _).mp hstart
            exact Nat.le_trans (hbefore t ht) hle

end OverlappingAdd

/-- Adding a region of the map's kind, wherever it lies, leaves exactly the union covered. The map is
again in order and free of overlaps exactly when the region reaches at most two of the old ones. -/
theorem allocatorRegionAdd_normalised_iff {map : AllocatorMap} {region : AllocatorRegion}
    {flags : AllocRegionFlags} (hmap : Normalised map) (hkind : OneKind flags (region :: map))
    (hregion : region.lo < region.hi) :
    (∀ x c, Covered (allocatorRegionAdd map region) x c ↔
      Covered map x c ∨ (region.attrs = c ∧ region.lo ≤ x ∧ x < region.hi)) ∧
      (Normalised (allocatorRegionAdd map region) ↔ map.countP (reachedBy region) ≤ 2) := by
  obtain ⟨hcover, hnormal⟩ := add_overlapping hmap hkind hregion
  refine ⟨fun x c => ?_, hnormal⟩
  rw [allocatorRegionAdd, hcover, covered_cons, or_comm]

/-- A region that bridges two others. -/
theorem allocatorRegionAdd_bridges_two :
    Normalised (allocatorRegionAdd [⟨⟨0x1000, 0x1000⟩, 8⟩, ⟨⟨0x3000, 0x1000⟩, 8⟩]
      ⟨⟨0x1800, 0x2000⟩, 8⟩) :=
  (allocatorRegionAdd_normalised_iff (by decide) (by decide : OneKind 8 _) (by decide)).2.mpr
    (by decide)

/-- A region that swallows three others leaves the third behind: two overlapping regions. -/
theorem allocatorRegionAdd_swallows_three :
    allocatorRegionAdd
        [⟨⟨0x1000, 0x1000⟩, 8⟩, ⟨⟨0x3000, 0x1000⟩, 8⟩, ⟨⟨0x5000, 0x1000⟩, 8⟩] ⟨⟨0x1000, 0x5000⟩, 8⟩ =
      [⟨⟨0x1000, 0x5000⟩, 8⟩, ⟨⟨0x5000, 0x1000⟩, 8⟩] ∧
      ¬ Normalised (allocatorRegionAdd
        [⟨⟨0x1000, 0x1000⟩, 8⟩, ⟨⟨0x3000, 0x1000⟩, 8⟩, ⟨⟨0x5000, 0x1000⟩, 8⟩]
        ⟨⟨0x1000, 0x5000⟩, 8⟩) := by
  decide

end ChrisOS.Mm
