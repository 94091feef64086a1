import ChrisOS.Mm.Descriptors
import ChrisOS.Mm.RegionCut
import ChrisOS.Mm.RegionMerge

/-!
# Taking a range out of a map

`allocator_range_acquire` walks the list with the successor saved and cuts the hole out of every
region. A piece that is linked behind its region is in front of the saved successor, so the walk
meets every old region once and no new one: the list afterwards is the old one with every region
replaced by what is left of it.

A hole that does not start at zero is not subject to the wrapped distance of `_cut`.
-/

namespace ChrisOS.Mm

open ChrisOS.Utils ChrisOS.Lib

variable {ρ : Type*}

section Cut

variable {pre post : List (Region ρ)} {region : Region ρ} {hole : Range}

/-- A cut that leaves nothing on the right of the hole. -/
theorem cutAndStitchSplit_of_left {left : Range} {p : Word}
    (hcut : cut region.toRange hole = some (left, ⟨p, 0⟩)) :
    cutAndStitchSplit pre region post hole =
      (pre ++ dropEmpty { region with toRange := left }, post) := by
  rw [cutAndStitchSplit_of_cut hcut (absurd rfl ·)]
  exact congrArg₂ Prod.mk (List.append_nil _) rfl

/-- One step of the walk leaves in the region's place what the hole does not take. -/
theorem cutAndStitchSplit_eq (hregion : region.Fits) (hhole : hole.Fits) (hpos : 0 < hole.lo)
    (hne : region.lo < region.hi) (hbefore : ∀ q ∈ pre, q.lo ≤ region.lo)
    (hafter : ∀ q ∈ post, region.hi ≤ q.lo) :
    ∃ pieces, cutAndStitchSplit pre region post hole = (pre ++ pieces, post) ∧
      pieces.map Region.span = region.span.without hole.lo hole.hi := by
  have hsize := hole.lo_le_hi
  have hwithout : region.span.without hole.lo hole.hi =
      piece region.lo (min region.hi hole.lo) region.attrs ++
        piece (max region.lo hole.hi) region.hi region.attrs := rfl
  have hspace : ¬ SpansWholeSpace region.toRange hole := fun h => by
    have := h.2
    omega
  have hpass : cut region.toRange hole = none → region.hi ≤ hole.lo ∨ hole.hi ≤ region.lo →
      ∃ pieces, cutAndStitchSplit pre region post hole = (pre ++ pieces, post) ∧
        pieces.map Region.span = region.span.without hole.lo hole.hi := by
    intro hcut hout
    refine ⟨[region], by rw [cutAndStitchSplit, hcut], ?_⟩
    exact (Span.without_of_disjoint hsize hne hout).symm
  obtain hlt | hge := Nat.lt_or_ge hole.lo region.lo
  · have hcut := cut_of_lt hregion hhole hlt
    by_cases hend : region.lo ≤ hole.hi ∧ hole.hi ≤ region.hi
    · -- the hole takes the beginning of the region
      rw [if_pos ⟨hend, hspace⟩] at hcut
      refine ⟨_, cutAndStitchSplit_of_left hcut, ?_⟩
      rw [map_span_dropEmpty, hwithout,
        piece_of_le (show min region.hi hole.lo ≤ region.lo by omega), List.nil_append]
      refine piece_congr _ ?_
      simp only [Range.Fits, Range.lo, Range.hi] at *
      bv_omega
    · rw [if_neg (fun h => hend h.1)] at hcut
      by_cases hin : region.lo < hole.hi
      · -- the hole takes the whole region
        rw [if_pos hin] at hcut
        refine ⟨_, cutAndStitchSplit_of_left hcut, ?_⟩
        rw [hwithout, piece_of_le (show min region.hi hole.lo ≤ region.lo by omega),
          piece_of_le (show region.hi ≤ max region.lo hole.hi by omega)]
        rfl
      · rw [if_neg hin] at hcut
        exact hpass hcut (Or.inr (Nat.le_of_not_lt hin))
  · obtain hstart | hout := Nat.lt_or_ge hole.lo region.hi
    · obtain hend | hend := Nat.lt_or_ge region.hi hole.hi
      · -- the hole takes the end of the region
        refine ⟨_, cutAndStitchSplit_of_left (cut_of_right hregion ⟨hge, hstart⟩ hend), ?_⟩
        rw [map_span_dropEmpty, hwithout,
          piece_of_le (show region.hi ≤ max region.lo hole.hi by omega), List.append_nil]
        refine piece_congr _ (Or.inl ⟨rfl, ?_⟩)
        simp only [Range.lo, Range.hi] at *
        bv_omega
      · -- the hole splits the region
        obtain ⟨left, right, hsplit, hleft, hright⟩ :=
          cutAndStitchSplit_of_within hole hregion hbefore hafter hge hend hstart
        refine ⟨_, by rw [hsplit, List.append_assoc], ?_⟩
        rw [List.map_append, hleft, hright, hwithout, Nat.min_eq_right (Nat.le_of_lt hstart),
          Nat.max_eq_right (Nat.le_trans hge hsize)]
    · exact hpass (cut_of_after hregion hout) (Or.inl hout)

end Cut

/-- The walk over a list in order without overlaps takes the hole out of every region. -/
theorem subtractFrom_eq {hole : Range} (hhole : hole.Fits) (hpos : 0 < hole.lo)
    {l : List (Region ρ)} (hl : Normalised l) (hfits : ∀ q ∈ l, q.Fits) {pre : List (Region ρ)}
    (hpre : ∀ p ∈ pre, ∀ q ∈ l, p.lo ≤ q.lo) {fuel : ℕ} (hfuel : l.length ≤ fuel) :
    ∃ rest, subtractFrom hole fuel pre l = some (pre ++ rest) ∧
      rest.map Region.span = (l.map Region.span).flatMap (Span.without hole.lo hole.hi) := by
  induction l generalizing pre fuel with
  | nil => exact ⟨[], by rw [subtractFrom_nil, List.append_nil], rfl⟩
  | cons region post ih =>
    obtain ⟨hne, hafter, hpost⟩ := (normalised_cons region post).mp hl
    obtain ⟨fuel, rfl⟩ := Nat.exists_eq_add_one.mpr (Nat.zero_lt_of_lt hfuel)
    obtain ⟨pieces, hsplit, hpieces⟩ := cutAndStitchSplit_eq (hfits region List.mem_cons_self) hhole
      hpos hne (fun p hp => hpre p hp region List.mem_cons_self) hafter
    have hpre' : ∀ p ∈ pre ++ pieces, ∀ q ∈ post, p.lo ≤ q.lo := by
      intro p hp q hq
      rcases List.mem_append.mp hp with hp | hp
      · exact hpre p hp q (List.mem_cons_of_mem _ hq)
      · have hin : p.span ∈ region.span.without hole.lo hole.hi :=
          hpieces ▸ List.mem_map_of_mem hp
        calc p.lo ≤ p.hi := p.lo_le_hi
          _ ≤ region.hi := (mem_without hin).2.1
          _ ≤ q.lo := hafter q hq
    obtain ⟨rest, hwalk, hrest⟩ := ih hpost (fun q hq => hfits q (List.mem_cons_of_mem _ hq)) hpre'
      (Nat.le_of_succ_le_succ hfuel)
    refine ⟨pieces ++ rest, ?_, ?_⟩
    · rw [subtractFrom, hsplit]
      dsimp only
      rw [hwalk, List.append_assoc]
    · rw [List.map_append, hpieces, hrest, List.map_cons, List.flatMap_cons]

/-- Acquiring a range on the list of regions. -/
theorem allocatorRangeAcquire_eq {map : AllocatorMap} {address size : Word} (hmap : Normalised map)
    (hfits : ∀ q ∈ map, q.Fits) (hpos : 0 < address.toNat)
    (hhole : address.toNat + size.toNat ≤ 2 ^ 32) {fuel : ℕ} (hfuel : map.length ≤ fuel) :
    ∃ map', allocatorRangeAcquire fuel map address size = some map' ∧ Normalised map' ∧
      ∀ x c, Covered map' x c ↔
        Covered map x c ∧ ¬ (address.toNat ≤ x ∧ x < address.toNat + size.toNat) := by
  have hfits' : (⟨address, size⟩ : Range).Fits := hhole
  obtain ⟨map', hwalk, hspans⟩ := subtractFrom_eq hfits' hpos hmap hfits
    (List.forall_mem_nil _) hfuel
  refine ⟨map', by rw [allocatorRangeAcquire, hwalk, List.nil_append], ?_, fun x c => ?_⟩
  · rw [normalised_iff_canonical, hspans]
    exact ((normalised_iff_canonical map).mp hmap).flatMap_without (Range.lo_le_hi _)
      fun _ hjoin => hjoin.elim
  · rw [Covered, hspans, coversWith_flatMap_without]
    rfl

/-- Acquiring a range that does not start at zero is exact, on descriptors that are freed and used
again as the walk goes: the other maps are untouched, the list stays in order without overlaps or
empty regions, and what it covers, with which flags, is what it covered before less the range. -/
theorem allocatorRangeAcquire_exact {κ : Type*} [DecidableEq κ] {s : AllocatorHeap κ}
    {lists : Option κ → List ℕ} {lost : List ℕ} (h : Linked s lists lost) (map : κ)
    {address size : Word} (hmap : Normalised (s.maps lists map))
    (hfits : ∀ q ∈ s.maps lists map, q.Fits) (hpos : 0 < address.toNat)
    (hhole : address.toNat + size.toNat ≤ 2 ^ 32) {fuel : ℕ}
    (hfuel : (lists (some map)).length ≤ fuel) :
    ∃ s' lists', allocatorCall fuel s (.rangeAcquire map address size) = some (none, s') ∧
      Linked s' lists' lost ∧ (∀ other, other ≠ map → s'.maps lists' other = s.maps lists other) ∧
      Normalised (s'.maps lists' map) ∧
      ∀ x c, Covered (s'.maps lists' map) x c ↔
        Covered (s.maps lists map) x c ∧ ¬ (address.toNat ≤ x ∧ x < address.toNat + size.toNat) := by
  have hlength : (s.maps lists map).length ≤ fuel := by
    rw [RegionHeap.maps, List.length_map]
    exact hfuel
  obtain ⟨map', hacquire, hnormal, hcover⟩ := allocatorRangeAcquire_eq hmap hfits hpos hhole hlength
  have hcall : mapsCall fuel (s.maps lists) (.rangeAcquire map address size) =
      some (none, Function.update (s.maps lists) map map') := by
    rw [mapsCall, hacquire, Option.map_some]
  obtain ⟨hnone, _⟩ | ⟨o, s', lists', taken, hmaps, heap, h', htaken⟩ :=
    allocatorCall_spec h fuel (.rangeAcquire map address size)
  · rw [hnone] at hcall
    cases hcall
  · obtain ⟨rfl, hupdate⟩ := Prod.mk.inj (Option.some.inj (hmaps.symm.trans hcall))
    obtain rfl := List.length_eq_zero_iff.mp htaken
    refine ⟨s', lists', heap, h', fun other hother => ?_, ?_⟩
    · rw [hupdate, Function.update_of_ne hother]
    · rw [hupdate, Function.update_self]
      exact ⟨hnormal, hcover⟩

/-- A hole that trims two regions with different flags and deletes the one between them. -/
theorem allocatorRangeAcquire_exact_three :
    ∃ (s : AllocatorHeap Unit) (lists : Option Unit → List ℕ) (lost : List ℕ), Linked s lists lost ∧
      s.maps lists () = [⟨⟨0x1000, 0x1000⟩, 8⟩, ⟨⟨0x3000, 0x1000⟩, 0⟩, ⟨⟨0x5000, 0x1000⟩, 2⟩] ∧
      ∃ s' lists', allocatorCall 3 s (.rangeAcquire () 0x1800 0x4000) = some (none, s') ∧
        Linked s' lists' lost ∧ Normalised (s'.maps lists' ()) ∧
        Covered (s'.maps lists' ()) 0x1000 8 ∧ ¬ Covered (s'.maps lists' ()) 0x3000 0 ∧
        Covered (s'.maps lists' ()) 0x5800 2 := by
  obtain ⟨s, lists, lost, _, h, hmaps⟩ := allocator_refines_maps
    (linked_initial (fun _ => none) fun _ => ⟨⟨0, 0⟩, 0⟩)
    (show runCalls (mapsCall 0) (fun _ : Unit => [])
      [.regionAddNew () 0x1000 0x1000 8, .regionAddNew () 0x3000 0x1000 0,
        .regionAddNew () 0x5000 0x1000 2] = some _ from rfl)
  have hmap : s.maps lists () =
      [⟨⟨0x1000, 0x1000⟩, 8⟩, ⟨⟨0x3000, 0x1000⟩, 0⟩, ⟨⟨0x5000, 0x1000⟩, 2⟩] := by
    rw [hmaps]
    decide
  have hlength : (lists (some ())).length ≤ 3 := by
    rw [← List.length_map (f := s.region)]
    exact Nat.le_of_eq (congrArg List.length hmap)
  obtain ⟨s', lists', hcall, h', _, hnormal, hcover⟩ := allocatorRangeAcquire_exact h ()
    (by rw [hmap]; decide) (by rw [hmap]; decide) (show 0 < (0x1800 : Word).toNat by decide)
    (show (0x1800 : Word).toNat + (0x4000 : Word).toNat ≤ 2 ^ 32 by decide) hlength
  refine ⟨s, lists, lost, h, hmap, s', lists', hcall, h', hnormal, ?_⟩
  simp only [hcover, hmap, covered_iff]
  decide

end ChrisOS.Mm
