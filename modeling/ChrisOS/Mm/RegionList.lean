import ChrisOS.Mm.RangeArith

/-!
# Region lists kept in canonical form

A region list is tidy when its spans are canonical and every region fits below `2 ^ 32`.
Adding a region that is disjoint from the list keeps it tidy and adds exactly the region's
span, provided no label ends up covering the whole 32-bit space: a merged region of that
size would have the size field zero. Cutting a hole out of one region keeps it tidy and
removes exactly the hole.

`join` is the relation on attributes behind a region type's `pre_merge` test.
-/

namespace ChrisOS.Mm

open ChrisOS.Utils ChrisOS.Lib

variable {ρ : Type*}

/-- The exact interval of a region, labelled by its attributes. -/
def Region.span (r : Region ρ) : Span ρ := ⟨r.lo, r.hi, r.attrs⟩

/-- Address `x` lies in a region with attributes `c`. -/
def Covered (l : List (Region ρ)) (x : ℕ) (c : ρ) : Prop := CoversWith (l.map Region.span) x c

/-- Canonical spans, all below the end of the 32-bit space. -/
structure Tidy (join : ρ → ρ → Prop) (l : List (Region ρ)) : Prop where
  canonical : Canonical join (l.map Region.span)
  fits : ∀ r ∈ l, r.Fits

/-- The `pre_merge` test of a region type accepts exactly the attributes `join` relates, and
those are equal. -/
structure DecidesJoin (preMerge : Region ρ → Region ρ → Bool) (join : ρ → ρ → Prop) : Prop where
  iff : ∀ a b, preMerge a b = true ↔ join a.attrs b.attrs
  eq : ∀ c d, join c d → c = d

theorem covered_iff (l : List (Region ρ)) (x : ℕ) (c : ρ) :
    Covered l x c ↔ ∃ r ∈ l, r.attrs = c ∧ r.lo ≤ x ∧ x < r.hi := by
  simp [Covered, CoversWith, Region.span, Span.Covers]

theorem covered_singleton (r : Region ρ) (x : ℕ) : Covered [r] x r.attrs ↔ r.lo ≤ x ∧ x < r.hi := by
  simp [covered_iff]

theorem covered_cons (r : Region ρ) (l : List (Region ρ)) (x : ℕ) (c : ρ) :
    Covered (r :: l) x c ↔ (r.attrs = c ∧ r.lo ≤ x ∧ x < r.hi) ∨ Covered l x c :=
  coversWith_cons r.span (l.map Region.span) x c

@[simp] theorem not_covered_nil (x : ℕ) (c : ρ) : ¬ Covered ([] : List (Region ρ)) x c :=
  coversWith_nil x c

/-- A region's span determines it. -/
theorem Region.span_injective : Function.Injective (Region.span : Region ρ → Span ρ) := by
  intro a b h
  simp only [Region.span, Span.mk.injEq, Range.lo, Range.hi] at h
  obtain ⟨haddress, hsize, hattrs⟩ := h
  exact Region.ext (BitVec.eq_of_toNat_eq haddress) (BitVec.eq_of_toNat_eq (by omega)) hattrs

variable {preMerge : Region ρ → Region ρ → Bool}

/-- The range that merging two disjoint touching regions produces. -/
theorem merge_of_disjoint {a b m : Region ρ} (ha : a.lo < a.hi) (hb : b.lo < b.hi)
    (hdisjoint : a.hi ≤ b.lo ∨ b.hi ≤ a.lo)
    (h : merge preMerge a b = some m) :
    preMerge a b = true ∧ m.attrs = a.attrs ∧ m.lo = min a.lo b.lo ∧
      m.size = a.size + b.size ∧ (a.hi = b.lo ∨ b.hi = a.lo) := by
  unfold merge at h
  split at h
  · next hpre =>
    obtain ⟨output, hout, rfl⟩ := Option.map_eq_some_iff.mp h
    simp only [Range.lo, Range.hi] at ha hb hdisjoint
    by_cases hlt : b.address < a.address
    · have hle : b.toRange.hi ≤ a.toRange.lo := by
        simp only [Range.lo, Range.hi]
        bv_omega
      rw [if_pos hlt, mergeSorted_of_le _ _ hle] at hout
      split at hout
      · next htouch =>
        cases hout
        refine ⟨hpre, rfl, ?_, BitVec.add_comm _ _, Or.inr htouch⟩
        simp only [Range.lo]
        bv_omega
      · cases hout
    · have hle : a.toRange.hi ≤ b.toRange.lo := by
        simp only [Range.lo, Range.hi]
        bv_omega
      rw [if_neg hlt, mergeSorted_of_le _ _ hle] at hout
      split at hout
      · next htouch =>
        cases hout
        refine ⟨hpre, rfl, ?_, rfl, Or.inl htouch⟩
        simp only [Range.lo]
        bv_omega
      · cases hout
  · cases h

/-- Disjoint regions that pass the test and touch do merge. -/
theorem merge_ne_none {a b : Region ρ} (ha : a.lo < a.hi) (hb : b.lo < b.hi) (hpre : preMerge a b = true)
    (htouch : a.hi = b.lo ∨ b.hi = a.lo) : merge preMerge a b ≠ none := by
  simp only [Range.lo, Range.hi] at ha hb htouch
  unfold merge
  rw [if_pos hpre]
  by_cases hlt : b.address < a.address
  · have htouch' : b.toRange.hi = a.toRange.lo := by
      simp only [Range.lo, Range.hi]
      bv_omega
    rw [if_pos hlt, mergeSorted_of_le _ _ (Nat.le_of_eq htouch'), if_pos htouch']
    simp
  · have htouch' : a.toRange.hi = b.toRange.lo := by
      simp only [Range.lo, Range.hi]
      bv_omega
    rw [if_neg hlt, mergeSorted_of_le _ _ (Nat.le_of_eq htouch'), if_pos htouch']
    simp

/-- The exact span of a merged region, when it is not the whole 32-bit space. -/
theorem merge_span {a b m : Region ρ} (ha : a.lo < a.hi) (hb : b.lo < b.hi) (hfa : a.Fits) (hfb : b.Fits)
    (hdisjoint : a.hi ≤ b.lo ∨ b.hi ≤ a.lo) (h : merge preMerge a b = some m)
    (hroom : ∃ y < 2 ^ 32, ¬ (a.lo ≤ y ∧ y < a.hi) ∧ ¬ (b.lo ≤ y ∧ y < b.hi)) :
    m.lo = min a.lo b.lo ∧ m.hi = max a.hi b.hi := by
  obtain ⟨_, _, hlo, hsize, htouch⟩ := merge_of_disjoint ha hb hdisjoint h
  obtain ⟨y, hy, hya, hyb⟩ := hroom
  refine ⟨hlo, ?_⟩
  simp only [Range.Fits, Range.lo, Range.hi] at *
  rw [hlo, hsize, BitVec.toNat_add]
  omega

variable {join : ρ → ρ → Prop} {l : List (Region ρ)} {r : Region ρ}

/-- A region in front of a tidy list, judged by what the list covers. -/
theorem Tidy.cons (h : Tidy join l) (hr : r.lo < r.hi) (hfits : r.Fits)
    (hafter : ∀ x c, Covered l x c → r.hi ≤ x ∧ (join r.attrs c → r.hi < x)) :
    Tidy join (r :: l) :=
  ⟨h.canonical.cons hr hafter, List.forall_mem_cons.mpr ⟨hfits, h.fits⟩⟩

/-- The tail of a tidy list is tidy. -/
theorem Tidy.tail (h : Tidy join (r :: l)) : Tidy join l :=
  ⟨h.canonical.tail, fun q hq => h.fits q (List.mem_cons_of_mem _ hq)⟩

/-- Every region of a tidy list is non-empty. -/
theorem Tidy.lo_lt_hi (h : Tidy join l) (hr : r ∈ l) : r.lo < r.hi :=
  h.canonical.nonempty r.span (List.mem_map_of_mem hr)

/-- What the tail covers lies past the head, strictly so where the labels may be joined. -/
theorem Tidy.after (h : Tidy join (r :: l)) {x : ℕ} {c : ρ} (hx : Covered l x c) :
    r.hi ≤ x ∧ (join r.attrs c → r.hi < x) :=
  ⟨h.canonical.le_of_coversWith_tail hx, h.canonical.lt_of_coversWith_tail hx⟩

/-- A region's own addresses are covered with its attributes. -/
theorem covered_of_mem (hr : r ∈ l) {x : ℕ} (hlo : r.lo ≤ x) (hhi : x < r.hi) : Covered l x r.attrs :=
  ⟨r.span, List.mem_map_of_mem hr, rfl, hlo, hhi⟩

/-- A range that meets no covered address is disjoint from every region. -/
theorem Tidy.disjoint_of_not_covered {r : Range} (h : Tidy join l) (hr : r.lo < r.hi)
    (hdisjoint : ∀ x c, Covered l x c → ¬ (r.lo ≤ x ∧ x < r.hi)) :
    ∀ q ∈ l, q.hi ≤ r.lo ∨ r.hi ≤ q.lo := by
  intro q hq
  have hlow := hdisjoint _ _ (covered_of_mem hq (Nat.le_refl _) (h.lo_lt_hi hq))
  have hstart : ¬ (q.lo ≤ r.lo ∧ r.lo < q.hi) := fun hin =>
    hdisjoint _ _ (covered_of_mem hq hin.1 hin.2) ⟨Nat.le_refl _, hr⟩
  omega

/-- `join` passes between regions in either order. -/
theorem DecidesJoin.preMerge_of_join (hpre : DecidesJoin preMerge join) {a b : Region ρ}
    (hj : join a.attrs b.attrs) :
    preMerge a b = true ∧ preMerge b a = true := by
  have heq := hpre.eq _ _ hj
  refine ⟨(hpre.iff a b).mpr hj, (hpre.iff b a).mpr ?_⟩
  rw [heq] at hj ⊢
  exact hj

/-- Offering a grown region to the regions after it keeps the list tidy. -/
theorem mergeNext_tidy (hpre : DecidesJoin preMerge join) (cur : Region ρ) {rest : List (Region ρ)}
    (hrest : Tidy join rest) (hcur : cur.lo < cur.hi) (hfits : cur.Fits)
    (hafter : ∀ x c, Covered rest x c → cur.hi ≤ x)
    (hroom : ∀ c, ∃ y < 2 ^ 32, ¬ Covered (cur :: rest) y c) :
    Tidy join (mergeNext preMerge cur rest) ∧
      ∀ x c, Covered (mergeNext preMerge cur rest) x c ↔ Covered (cur :: rest) x c := by
  cases rest with
  | nil => exact ⟨hrest.cons hcur hfits (by simp), fun x c => Iff.rfl⟩
  | cons next rest =>
    have hnext : next.lo < next.hi := hrest.lo_lt_hi List.mem_cons_self
    have hnextFits : next.Fits := hrest.fits next List.mem_cons_self
    have hle : cur.hi ≤ next.lo :=
      hafter _ _ (covered_of_mem List.mem_cons_self (Nat.le_refl _) hnext)
    cases hmerge : merge preMerge next cur with
    | some next' =>
      simp only [mergeNext, hmerge]
      obtain ⟨htest, hattrs, _, _, htouch⟩ := merge_of_disjoint hnext hcur (Or.inr hle) hmerge
      have heq : next.attrs = cur.attrs := hpre.eq _ _ ((hpre.iff _ _).mp htest)
      obtain ⟨y, hy, hyfree⟩ := hroom cur.attrs
      rw [covered_cons, covered_cons, heq] at hyfree
      obtain ⟨hlo, hhi⟩ := merge_span hnext hcur hnextFits hfits (Or.inr hle) hmerge
        ⟨y, hy, fun h => hyfree (Or.inr (Or.inl ⟨rfl, h⟩)), fun h => hyfree (Or.inl ⟨rfl, h⟩)⟩
      have hlo' : next'.lo = cur.lo := by omega
      have hhi' : next'.hi = next.hi := by omega
      have hfits' : next'.Fits := by
        unfold Range.Fits at hnextFits ⊢
        omega
      refine ⟨hrest.tail.cons (by omega) hfits' fun x c hx => ?_, fun x c => ?_⟩
      · rw [hattrs, hhi']
        exact hrest.after hx
      · rw [covered_cons, covered_cons, covered_cons, hattrs, heq, hlo', hhi']
        grind
    | none =>
      rw [show mergeNext preMerge cur (next :: rest) = cur :: next :: rest by
        simp only [mergeNext, hmerge]]
      refine ⟨hrest.cons hcur hfits fun x c hx => ⟨hafter x c hx, fun hj => ?_⟩, fun x c => Iff.rfl⟩
      rw [covered_cons] at hx
      obtain ⟨rfl, hx, _⟩ | hx := hx
      · by_cases htouch : cur.hi = next.lo
        · exact absurd hmerge (merge_ne_none hnext hcur (hpre.preMerge_of_join hj).2 (Or.inr htouch))
        · omega
      · have := (hrest.after hx).1
        omega

/-- Adding a disjoint region keeps the list tidy and adds exactly the region's span. -/
theorem add_tidy (hpre : DecidesJoin preMerge join) (l : List (Region ρ)) (r : Region ρ)
    (htidy : Tidy join l)
    (hr : r.lo < r.hi) (hfits : r.Fits) (hdisjoint : ∀ q ∈ l, q.hi ≤ r.lo ∨ r.hi ≤ q.lo)
    (hroom : ∀ c, ∃ y < 2 ^ 32, ¬ Covered (r :: l) y c) :
    Tidy join (add preMerge l r) ∧
      ∀ x c, Covered (add preMerge l r) x c ↔ Covered (r :: l) x c := by
  induction l with
  | nil => exact ⟨htidy.cons hr hfits (by simp), fun x c => Iff.rfl⟩
  | cons cur rest ih =>
    have hcur : cur.lo < cur.hi := htidy.lo_lt_hi List.mem_cons_self
    have hcurFits : cur.Fits := htidy.fits cur List.mem_cons_self
    have hdis : cur.hi ≤ r.lo ∨ r.hi ≤ cur.lo := hdisjoint cur List.mem_cons_self
    have hdisRest : ∀ q ∈ rest, q.hi ≤ r.lo ∨ r.hi ≤ q.lo :=
      fun q hq => hdisjoint q (List.mem_cons_of_mem _ hq)
    have houtside : ∀ x c, Covered rest x c → x < r.lo ∨ r.hi ≤ x := by
      intro x c hx
      obtain ⟨s, hs, _, hlo, hhi⟩ := hx
      obtain ⟨q, hq, rfl⟩ := List.mem_map.mp hs
      have := hdisRest q hq
      simp only [Region.span] at hlo hhi
      omega
    cases hmerge : merge preMerge cur r with
    | some cur' =>
      simp only [add, hmerge]
      obtain ⟨htest, hattrs, _, _, htouch⟩ := merge_of_disjoint hcur hr hdis hmerge
      have heq : cur.attrs = r.attrs := hpre.eq _ _ ((hpre.iff _ _).mp htest)
      obtain ⟨y, hy, hyfree⟩ := hroom r.attrs
      rw [covered_cons, covered_cons, heq] at hyfree
      obtain ⟨hlo, hhi⟩ := merge_span hcur hr hcurFits hfits hdis hmerge
        ⟨y, hy, fun h => hyfree (Or.inr (Or.inl ⟨rfl, h⟩)), fun h => hyfree (Or.inl ⟨rfl, h⟩)⟩
      have hcover : ∀ x c, Covered (cur' :: rest) x c ↔ Covered (r :: cur :: rest) x c := by
        intro x c
        rw [covered_cons, covered_cons, covered_cons, hattrs, heq]
        grind
      have hfits' : cur'.Fits := by
        unfold Range.Fits at hcurFits hfits ⊢
        omega
      obtain ⟨htidy', hcover'⟩ := mergeNext_tidy hpre cur' htidy.tail (by omega) hfits'
        (fun x c hx => by
          have := (htidy.after hx).1
          have := houtside x c hx
          omega)
        (fun c => by simpa only [hcover] using hroom c)
      exact ⟨htidy', fun x c => (hcover' x c).trans (hcover x c)⟩
    | none =>
      have hgap : join cur.attrs r.attrs → cur.hi ≠ r.lo ∧ r.hi ≠ cur.lo := by
        intro hj
        have htest := (hpre.preMerge_of_join hj).1
        exact ⟨fun h => merge_ne_none hcur hr htest (Or.inl h) hmerge,
          fun h => merge_ne_none hcur hr htest (Or.inr h) hmerge⟩
      simp only [add, hmerge]
      split
      · next hlt =>
        have hbefore : r.hi ≤ cur.lo := by
          simp only [Range.lo, Range.hi] at hdis hcur ⊢
          bv_omega
        refine ⟨htidy.cons hr hfits fun x c hx => ?_, fun x c => Iff.rfl⟩
        rw [covered_cons] at hx
        obtain ⟨rfl, hx, _⟩ | hx := hx
        · refine ⟨by omega, fun hj => ?_⟩
          have heq := hpre.eq _ _ hj
          have := (hgap (by rw [heq] at hj ⊢; exact hj)).2
          omega
        · have := (htidy.after hx).1
          exact ⟨by omega, fun _ => by omega⟩
      · next hlt =>
        have hbefore : cur.hi ≤ r.lo := by
          simp only [Range.lo, Range.hi] at hdis hr ⊢
          bv_omega
        obtain ⟨htidy', hcover'⟩ := ih htidy.tail hdisRest fun c => by
          obtain ⟨y, hy, hyfree⟩ := hroom c
          refine ⟨y, hy, fun h => hyfree ?_⟩
          rw [covered_cons] at h
          rw [covered_cons, covered_cons]
          grind
        refine ⟨htidy'.cons hcur hcurFits fun x c hx => ?_, fun x c => ?_⟩
        · rw [hcover', covered_cons] at hx
          obtain ⟨rfl, hx, _⟩ | hx := hx
          · exact ⟨by omega, fun hj => by have := (hgap hj).1; omega⟩
          · exact htidy.after hx
        · rw [covered_cons, hcover', covered_cons, covered_cons, covered_cons]
          grind

theorem covered_append (l l' : List (Region ρ)) (x : ℕ) (c : ρ) :
    Covered (l ++ l') x c ↔ Covered l x c ∨ Covered l' x c := by
  unfold Covered
  rw [List.map_append, coversWith_append]

variable {pre post : List (Region ρ)} {region : Region ρ}

/-- Regions before and after one region of a tidy list, by address. -/
theorem Tidy.around (h : Tidy join (pre ++ region :: post)) :
    (∀ q ∈ pre, q.hi ≤ region.lo) ∧ ∀ q ∈ post, region.hi ≤ q.lo := by
  have hordered := h.canonical.ordered
  rw [List.map_append, List.map_cons, List.pairwise_append] at hordered
  obtain ⟨_, htail, hcross⟩ := hordered
  refine ⟨fun q hq => ?_, fun q hq => ?_⟩
  · exact (hcross q.span (List.mem_map_of_mem hq) region.span List.mem_cons_self).1
  · exact ((List.pairwise_cons.mp htail).1 q.span (List.mem_map_of_mem hq)).1

/-- An emptied region leaves no span, any other leaves its own. -/
theorem map_span_dropEmpty (region : Region ρ) :
    (dropEmpty region).map Region.span = piece region.lo region.hi region.attrs := by
  unfold dropEmpty piece Range.hi Range.lo
  split
  · next hzero => simp [hzero]
  · next hsize =>
    rw [if_pos (by bv_omega)]
    rfl

/-- The pieces of a cut stay in the region's place when the right-hand one, if there is one, belongs
between the left-hand one and the regions that follow. -/
theorem cutAndStitchSplit_of_cut {hole left right : Range}
    (hcut : cut region.toRange hole = some (left, right))
    (hplace : right.size ≠ 0 → (∀ q ∈ pre, ¬ right.address < q.address) ∧
      ¬ right.address < left.address ∧ ∀ q ∈ post, right.address < q.address) :
    cutAndStitchSplit pre region post hole =
      (pre ++ dropEmpty { region with toRange := left } ++
        dropEmpty { region with toRange := right }, post) := by
  unfold cutAndStitchSplit
  rw [hcut]
  dsimp only
  split
  · next hzero => simp [dropEmpty, hzero]
  · next hsize =>
    obtain ⟨hpre, hleft, hpost⟩ := hplace hsize
    have hany : pre.any (fun cur => right.address < cur.address) = false := by
      rw [List.any_eq_false]
      intro q hq
      simpa using hpre q hq
    have hright : dropEmpty { region with toRange := right } = [{ region with toRange := right }] :=
      if_neg hsize
    rw [if_neg (by simp [hany]), if_neg hleft, hright]
    cases post with
    | nil => rfl
    | cons next rest => simp only [if_pos (hpost next List.mem_cons_self)]

/-- Cutting a hole out of a region of an ordered list leaves the pieces in the region's place. -/
theorem cutAndStitchSplit_of_within (hole : Range) (hfits : region.Fits)
    (hbefore : ∀ q ∈ pre, q.lo ≤ region.lo)
    (hafter : ∀ q ∈ post, region.hi ≤ q.lo) (hlo : region.lo ≤ hole.lo) (hhi : hole.hi ≤ region.hi)
    (hstart : hole.lo < region.hi) :
    ∃ left right : Region ρ,
      cutAndStitchSplit pre region post hole = (pre ++ dropEmpty left ++ dropEmpty right, post) ∧
      (dropEmpty left).map Region.span = piece region.lo hole.lo region.attrs ∧
      (dropEmpty right).map Region.span = piece hole.hi region.hi region.attrs := by
  obtain ⟨hcut, hleft, hright⟩ := cut_of_within hlo hhi hfits hstart
  refine ⟨⟨⟨region.address, hole.address - region.address⟩, region.attrs⟩,
    ⟨⟨hole.address + hole.size, region.size - (hole.address + hole.size - region.address)⟩,
      region.attrs⟩, ?_, ?_, ?_⟩
  · refine cutAndStitchSplit_of_cut hcut fun hsize => ?_
    dsimp only at hsize ⊢
    have hend : (hole.address + hole.size).toNat = hole.hi := by
      simp only [Range.Fits, Range.hi, Range.lo] at *
      bv_omega
    have hpast : ∀ q : Region ρ, q.lo ≤ region.lo → ¬ hole.address + hole.size < q.address := by
      intro q hq
      simp only [Range.hi, Range.lo] at *
      bv_omega
    refine ⟨fun q hq => hpast q (hbefore q hq), hpast region (Nat.le_refl _), fun q hq => ?_⟩
    have := hafter q hq
    simp only [Range.hi, Range.lo] at *
    bv_omega
  · rw [map_span_dropEmpty]
    congr 1
    simp only [Range.hi, Range.lo] at *
    omega
  · rw [map_span_dropEmpty]
    by_cases hlt : hole.hi < region.hi
    · congr 1 <;> simp only [Range.Fits, Range.hi, Range.lo] at * <;> bv_omega
    · rw [piece_of_le (by simp only [Range.hi, Range.lo] at *; omega), piece_of_le (by omega)]

/-- With no region left to visit the subtraction is done. -/
theorem subtractFrom_nil (hole : Range) (fuel : ℕ) (pre : List (Region ρ)) :
    subtractFrom hole fuel pre [] = some pre := by
  cases fuel <;> rfl

/-- What is left of the regions after a hole has been cut out of one of them. -/
theorem map_span_cutAndStitch (hole : Range) (h : Tidy join (pre ++ region :: post))
    (hlo : region.lo ≤ hole.lo)
    (hhi : hole.hi ≤ region.hi) (hstart : hole.lo < region.hi) :
    (cutAndStitch pre region post hole).map Region.span =
      pre.map Region.span ++ (piece region.lo hole.lo region.attrs ++
        (piece hole.hi region.hi region.attrs ++ post.map Region.span)) := by
  obtain ⟨hbefore, hafter⟩ := h.around
  obtain ⟨left, right, hsplit, hleft, hright⟩ := cutAndStitchSplit_of_within hole
    (h.fits region (by simp)) (fun q hq => Nat.le_trans (Nat.le_add_right _ _) (hbefore q hq)) hafter
    hlo hhi hstart
  simp only [cutAndStitch, hsplit, List.map_append, hleft, hright, List.append_assoc]

/-- Cutting a non-empty hole out of one region keeps the list tidy and removes exactly the hole. -/
theorem cutAndStitch_tidy (hole : Range) (h : Tidy join (pre ++ region :: post))
    (hlo : region.lo ≤ hole.lo)
    (hhi : hole.hi ≤ region.hi) (hne : hole.lo < hole.hi) :
    Tidy join (cutAndStitch pre region post hole) ∧
      ∀ x c, Covered (cutAndStitch pre region post hole) x c ↔
        Covered (pre ++ region :: post) x c ∧ ¬ (hole.lo ≤ x ∧ x < hole.hi) := by
  have hcan := h.canonical
  rw [List.map_append, List.map_cons] at hcan
  have hspans := map_span_cutAndStitch hole h hlo hhi (by omega)
  refine ⟨⟨?_, ?_⟩, fun x c => ?_⟩
  · rw [hspans]
    exact hcan.carve hole.lo hole.hi hne hlo hhi
  · intro q hq
    have hspan : q.span ∈ (cutAndStitch pre region post hole).map Region.span :=
      List.mem_map_of_mem hq
    have hregion : region.Fits := h.fits region (by simp)
    rw [hspans] at hspan
    simp only [List.mem_append] at hspan
    unfold Range.Fits at hregion ⊢
    obtain hq | hq | hq | hq := hspan
    · obtain ⟨q', hq', heq⟩ := List.mem_map.mp hq
      rw [← Region.span_injective heq]
      exact h.fits q' (by simp [hq'])
    · have : q.hi = hole.lo := congrArg Span.hi (mem_piece hq)
      omega
    · have : q.hi = region.hi := congrArg Span.hi (mem_piece hq)
      omega
    · obtain ⟨q', hq', heq⟩ := List.mem_map.mp hq
      rw [← Region.span_injective heq]
      exact h.fits q' (by simp [hq'])
  · unfold Covered
    rw [hspans, List.map_append, List.map_cons]
    exact coversWith_carve hcan hole.lo hole.hi hne hlo hhi x c

/-- Unlinking one region keeps the list tidy and removes exactly that region's span. -/
theorem Tidy.unlink (h : Tidy join (pre ++ region :: post)) :
    Tidy join (pre ++ post) ∧ ∀ x c, Covered (pre ++ post) x c ↔
      Covered (pre ++ region :: post) x c ∧ ¬ (region.lo ≤ x ∧ x < region.hi) := by
  have hsub : (pre ++ post).Sublist (pre ++ region :: post) :=
    (List.Sublist.refl pre).append (List.sublist_cons_self region post)
  obtain ⟨hbefore, hafter⟩ := h.around
  refine ⟨⟨⟨fun s hs => h.canonical.nonempty s ((hsub.map _).subset hs),
    h.canonical.ordered.sublist (hsub.map _)⟩, fun r hr => h.fits r (hsub.subset hr)⟩, fun x c => ?_⟩
  have hoff : ∀ q ∈ pre ++ post, q.lo ≤ x → x < q.hi → ¬ (region.lo ≤ x ∧ x < region.hi) := by
    intro q hq hlo hhi
    obtain hq | hq := List.mem_append.mp hq
    · have := hbefore q hq
      omega
    · have := hafter q hq
      omega
  constructor
  · intro hx
    obtain ⟨q, hq, hattrs, hlo, hhi⟩ := (covered_iff _ _ _).mp hx
    exact ⟨(covered_iff _ _ _).mpr ⟨q, hsub.subset hq, hattrs, hlo, hhi⟩, hoff q hq hlo hhi⟩
  · intro hx
    obtain ⟨hx, hout⟩ := hx
    rw [covered_append, covered_cons] at hx
    rw [covered_append]
    obtain hx | ⟨_, hx⟩ | hx := hx
    · exact Or.inl hx
    · exact absurd hx hout
    · exact Or.inr hx

end ChrisOS.Mm
