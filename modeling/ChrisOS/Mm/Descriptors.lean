import ChrisOS.Lib.CallRun
import ChrisOS.Mm.RegionLinks

/-!
# Descriptors over whole runs of the allocator

The calls of `mm/allocator.c` on the descriptor heap do to the regions of the maps what the functions
on lists of regions do, with the same results. They keep every descriptor on one list, except for
`allocator_mem_alloc`: it takes a descriptor for the hole it cuts, which it neither links nor frees.
-/

namespace ChrisOS.Mm

open ChrisOS.Utils ChrisOS.Lib

variable {κ : Type*} [DecidableEq κ] {s : AllocatorHeap κ} {lists : Option κ → List ℕ}
  {lost : List ℕ}

/-- Whether a call takes a descriptor for a hole. -/
def AllocatorCall.takesHole : AllocatorCall κ → Bool
  | .memAlloc .. => true
  | _ => false

/-- The outcome of an allocation from one of the maps. -/
def mapsMemAlloc (maps : κ → AllocatorMap) (map : κ) :
    Option (Word × AllocatorMap) → Option Word × (κ → AllocatorMap)
  | some (result, map') => (some result, Function.update maps map map')
  | none => (none, maps)

/-- A call on the maps as lists of regions. -/
def mapsCall (fuel : ℕ) (maps : κ → AllocatorMap) :
    AllocatorCall κ → Option (Option Word × (κ → AllocatorMap))
  | .regionAddNew map addr size flags =>
    some (none, Function.update maps map (allocatorRegionAddNew (maps map) addr size flags))
  | .memAlloc map size alignment flags =>
    some (mapsMemAlloc maps map (allocatorMemAlloc (maps map) size alignment flags))
  | .memFree map ptr size flags =>
    some (none, Function.update maps map (allocatorMemFree (maps map) ptr size flags))
  | .rangeAcquire map address size =>
    (allocatorRangeAcquire fuel (maps map) address size).map fun map' =>
      (none, Function.update maps map map')

variable {fuel : ℕ}

/-- The loop of `allocator_mem_alloc` is that on lists of regions; its hole stays with the caller. -/
theorem heapMemAllocFrom_spec {map : κ} {hole : ℕ} (h : Linked s lists (hole :: lost))
    (size alignment : Word) (flags : AllocRegionFlags) {pre post : List ℕ}
    (hlist : lists (some map) = pre ++ post) (hfuel : post.length ≤ fuel) :
    ∃ o s' lists',
      heapMemAllocFrom s map size alignment flags hole fuel post.head? = some (o, s') ∧
      Linked s' lists' (hole :: lost) ∧
      (o, s'.maps lists') = mapsMemAlloc (s.maps lists) map
        (allocatorMemAllocFrom size alignment flags (pre.map s.region) (post.map s.region)) := by
  induction post generalizing pre fuel with
  | nil =>
    refine ⟨none, s, lists, ?_, h, rfl⟩
    cases fuel <;> rfl
  | cons d post ih =>
    obtain ⟨fuel, rfl⟩ := Nat.exists_eq_add_one.mpr (Nat.zero_lt_of_lt hfuel)
    rw [List.head?_cons, heapMemAllocFrom, List.map_cons, allocatorMemAllocFrom]
    by_cases hoffers : Offers size alignment flags (s.region d)
    · rw [if_pos hoffers, if_pos hoffers]
      dsimp only
      generalize (⟨⟨alignAddress (s.region d).address alignment, size⟩, (s.region hole).attrs⟩ :
        AllocatorRegion) = fields
      obtain ⟨s', lists', heq, h', hmaps⟩ := regionCutAndStitch_maps (h.setRegion hole fields) hlist
        ⟨alignAddress (s.region d).address alignment, size⟩
      refine ⟨some _, s', lists', by rw [heq, Option.map_some], h', ?_⟩
      -- the descriptors of the map are not the hole's
      have hoff := h.held_off hole List.mem_cons_self (some map)
      rw [hlist] at hoff
      have hvalues := map_setRegion_of_notMem (s := s) hoff fields
      rw [List.map_append, List.map_append] at hvalues
      obtain ⟨hpre, htail⟩ := List.append_inj hvalues (by rw [List.length_map, List.length_map])
      obtain ⟨hself, hpost⟩ := List.cons.inj htail
      rw [hmaps, hpre, hself, hpost, maps_setRegion_of_held h List.mem_cons_self]
      rfl
    · have hrep := h.rep (some map)
      rw [hlist] at hrep
      have hnext : s.next d = post.head? := hrep.suffix.head_eq
      have hlist' : lists (some map) = (pre ++ [d]) ++ post := by
        rw [hlist, List.append_assoc]
        rfl
      rw [if_neg hoffers, if_neg hoffers, hnext]
      simpa only [List.map_append, List.map_cons, List.map_nil] using
        ih hlist' (Nat.le_of_succ_le_succ hfuel)

/-- `allocator_mem_alloc` does what it does on lists of regions and loses one descriptor. -/
theorem heapMemAlloc_spec (h : Linked s lists lost) (map : κ) (size alignment : Word)
    (flags : AllocRegionFlags) :
    ∃ o s' lists' hole, heapMemAlloc s map size alignment flags = some (o, s') ∧
      Linked s' lists' (hole :: lost) ∧
      (o, s'.maps lists') = mapsMemAlloc (s.maps lists) map
        (allocatorMemAlloc (s.maps lists map) size alignment flags) := by
  obtain ⟨free, halloc, hregion⟩ := regionAlloc_spec h
  rw [heapMemAlloc]
  generalize regionAlloc s = alloc at halloc hregion ⊢
  obtain ⟨hole, s₁⟩ := alloc
  dsimp only at halloc hregion ⊢
  have hlist : Function.update lists none free (some map) = [] ++ lists (some map) :=
    Function.update_of_ne (Option.some_ne_none map) ..
  have hfuel : (lists (some map)).length ≤ s₁.obtained := by
    have := halloc.length_le (some map)
    rwa [hlist] at this
  have hhead : s₁.heads (some map) = (lists (some map)).head? := by
    have := (halloc.rep (some map)).head_eq
    rwa [hlist] at this
  obtain ⟨o, s', lists', heq, h', hmaps⟩ :=
    heapMemAllocFrom_spec halloc size (effectiveAlignment alignment) flags hlist hfuel
  refine ⟨o, s', lists', hole, by rw [hhead, heq], h', ?_⟩
  rw [hmaps, maps_update_none, RegionHeap.maps_congr hregion, hregion]
  rfl

/-- A call on the descriptors returns exactly when the call on lists of regions does, with the same
result and regions; only `allocator_mem_alloc` takes a descriptor off all lists. -/
theorem allocatorCall_spec (h : Linked s lists lost) (fuel : ℕ) (call : AllocatorCall κ) :
    (mapsCall fuel (s.maps lists) call = none ∧ allocatorCall fuel s call = none) ∨
    ∃ o s' lists' taken, mapsCall fuel (s.maps lists) call = some (o, s'.maps lists') ∧
      allocatorCall fuel s call = some (o, s') ∧ Linked s' lists' (taken ++ lost) ∧
      taken.length = if call.takesHole then 1 else 0 := by
  cases call with
  | regionAddNew map addr size flags =>
    obtain ⟨s', lists', heq, h', hmaps⟩ :=
      regionAddNew_spec allocatorRegionPreMerge h map ⟨⟨addr, size⟩, flags⟩
    refine Or.inr ⟨none, s', lists', [], by rw [hmaps]; rfl, ?_, h', rfl⟩
    rw [allocatorCall, heapRegionAddNew, heq, Option.map_some]
  | memAlloc map size alignment flags =>
    obtain ⟨o, s', lists', hole, heq, h', hmaps⟩ := heapMemAlloc_spec h map size alignment flags
    exact Or.inr ⟨o, s', lists', [hole], by rw [hmaps, mapsCall], heq, h', rfl⟩
  | memFree map ptr size flags =>
    obtain ⟨s', lists', heq, h', hmaps⟩ :=
      regionAddNew_spec allocatorRegionPreMerge h map ⟨⟨ptr, size⟩, flags⟩
    refine Or.inr ⟨none, s', lists', [], by rw [hmaps]; rfl, ?_, h', rfl⟩
    rw [allocatorCall, heapRegionAddNew, heq, Option.map_some]
  | rangeAcquire map address size =>
    have hlist : lists (some map) = [] ++ lists (some map) := rfl
    rw [mapsCall, allocatorRangeAcquire, allocatorCall, regionSubtract, (h.rep (some map)).head_eq]
    obtain ⟨hmaps, hheap⟩ | ⟨l, s', lists', hmaps, hheap, h', hl⟩ :=
      regionSubtractFrom_spec ⟨address, size⟩ h hlist fuel
    · exact Or.inl ⟨Option.map_eq_none_iff.mpr hmaps, by rw [hheap, Option.map_none]⟩
    · refine Or.inr ⟨none, s', lists', [], ?_, by rw [hheap, Option.map_some], h', rfl⟩
      rw [hl]
      exact Option.map_eq_some_iff.mpr ⟨l, hmaps, rfl⟩

variable {calls : List (AllocatorCall κ)} {returns : List (Option Word)}

/-- Over whole runs, the allocator on descriptors returns what the allocator on lists of regions
returns and ends with its regions. -/
theorem allocator_refines_maps {maps' : κ → AllocatorMap} (h : Linked s lists lost)
    (hrun : runCalls (mapsCall fuel) (s.maps lists) calls = some (returns, maps')) :
    ∃ s' lists' lost', runCalls (allocatorCall fuel) s calls = some (returns, s') ∧
      Linked s' lists' lost' ∧ s'.maps lists' = maps' := by
  have hcall : ∀ (maps : κ → AllocatorMap) (s : AllocatorHeap κ) call o maps',
      (∃ lists lost, Linked s lists lost ∧ s.maps lists = maps) → True →
      mapsCall fuel maps call = some (o, maps') →
      ∃ s', allocatorCall fuel s call = some (o, s') ∧
        ∃ lists' lost', Linked s' lists' lost' ∧ s'.maps lists' = maps' := by
    rintro _ s call o maps' ⟨lists, lost, h, rfl⟩ - hmaps
    obtain ⟨hnone, _⟩ | ⟨o', s', lists', taken, hmaps', heap, h', _⟩ := allocatorCall_spec h fuel call
    · rw [hnone] at hmaps
      cases hmaps
    · obtain ⟨rfl, rfl⟩ := Prod.mk.inj (Option.some.inj (hmaps'.symm.trans hmaps))
      exact ⟨s', heap, lists', _, h', rfl⟩
  obtain ⟨s', hruns, lists', lost', h', hmaps⟩ := runCalls_simulates hcall ⟨lists, lost, h, rfl⟩
    (along_of_forall (fun _ _ => trivial) _ _) hrun
  exact ⟨s', lists', lost', hruns, h', hmaps⟩

/-- After a run, the descriptors on no list are those that were on none before and one for every
call of `allocator_mem_alloc`. -/
theorem Linked.run {s' : AllocatorHeap κ} (h : Linked s lists lost)
    (hrun : runCalls (allocatorCall fuel) s calls = some (returns, s')) :
    ∃ lists' taken, Linked s' lists' (taken ++ lost) ∧
      taken.length = calls.countP AllocatorCall.takesHole := by
  induction calls generalizing s lists lost returns with
  | nil =>
    cases hrun
    exact ⟨lists, [], h, rfl⟩
  | cons call rest ih =>
    obtain ⟨o, os, s₁, hcall, hrest, rfl⟩ := runCalls_cons_eq_some hrun
    obtain ⟨_, hnone⟩ | ⟨o', s₁', lists₁, taken, _, hcall', h₁, hlength⟩ := allocatorCall_spec h fuel call
    · rw [hnone] at hcall
      cases hcall
    · obtain ⟨rfl, rfl⟩ := Prod.mk.inj (Option.some.inj (hcall'.symm.trans hcall))
      obtain ⟨lists', later, h', hlater⟩ := ih h₁ hrest
      refine ⟨lists', later ++ taken, by rwa [List.append_assoc], ?_⟩
      rw [List.length_append, hlater, hlength, List.countP_cons]

/-- A descriptor is linked in exactly one place, once. -/
def LinkedOnce (lists : Option κ → List ℕ) (d : ℕ) : Prop :=
  ∃ place, (lists place).count d = 1 ∧ ∀ other, other ≠ place → (lists other).count d = 0

omit [DecidableEq κ] in
/-- A descriptor that is not lost is linked once. -/
theorem Linked.linkedOnce (h : Linked s lists lost) {d : ℕ} (hd : d < s.obtained) (hlost : d ∉ lost) :
    LinkedOnce lists d := by
  obtain hheld | ⟨place, hplace⟩ := (h.obtained d).mp hd
  · exact absurd hheld hlost
  · refine ⟨place, List.count_eq_one_of_mem (h.rep place).nodup hplace, fun other hother => ?_⟩
    exact List.count_eq_zero_of_not_mem fun hd => hother (h.disjoint other place d hd hplace)

/-- Descriptors over a run of the allocator's calls, from a state in which every descriptor is linked
once. Afterwards the lists are well formed, and all descriptors but one for each call of
`allocator_mem_alloc` are linked once; those are on no list. So a run without such a call
conserves the descriptors. -/
theorem allocator_conserves_descriptors {fuel : ℕ} {s' : AllocatorHeap κ}
    {calls : List (AllocatorCall κ)} {returns : List (Option Word)} (h : Linked s lists [])
    (hrun : runCalls (allocatorCall fuel) s calls = some (returns, s')) :
    ∃ lists' : Option κ → List ℕ, (∀ place, LLRep s'.next (s'.heads place) (lists' place)) ∧
      (∃ lost : List ℕ, lost.Nodup ∧ lost.length = calls.countP AllocatorCall.takesHole ∧
        ∀ d < s'.obtained, if d ∈ lost then ∀ place, d ∉ lists' place else LinkedOnce lists' d) ∧
      ((∀ call ∈ calls, ¬ call.takesHole) → ∀ d < s'.obtained, LinkedOnce lists' d) := by
  obtain ⟨lists', lost, h', hlength⟩ := h.run hrun
  rw [List.append_nil] at h'
  refine ⟨lists', h'.rep, ⟨lost, h'.held_nodup, hlength, fun d hd => ?_⟩, fun hnone d hd => ?_⟩
  · split
    · next hlost => exact h'.held_off d hlost
    · next hlost => exact h'.linkedOnce hd hlost
  · rw [List.countP_eq_zero.mpr hnone, List.length_eq_zero_iff] at hlength
    subst hlength
    exact h'.linkedOnce hd List.not_mem_nil

/-- The run that adds two pages, acquires the first and frees it again. -/
def acquireAndFree : Option (List (Option Word) × AllocatorHeap Unit) :=
  runCalls (allocatorCall 2) (RegionHeap.initial (fun _ => none) fun _ => ⟨⟨0, 0⟩, 0⟩)
    [.regionAddNew () 0x1000 0x2000 allocPmNormal, .rangeAcquire () 0x1000 0x1000,
      .memFree () 0x1000 0x1000 allocPmNormal]

/-- Both descriptors of the run are linked once at its end. -/
theorem allocator_conserves_descriptors_acquire :
    ∃ r ∈ acquireAndFree, r.2.obtained = 2 ∧ ∃ lists : Option Unit → List ℕ,
      (∀ place, LLRep r.2.next (r.2.heads place) (lists place)) ∧
        LinkedOnce lists 0 ∧ LinkedOnce lists 1 := by
  obtain ⟨r, hrun, hobtained⟩ : ∃ r ∈ acquireAndFree, r.2.obtained = 2 := by decide
  obtain ⟨lists', hrep, _, honce⟩ := allocator_conserves_descriptors (linked_initial _ _) hrun
  have honce := honce (by decide)
  rw [hobtained] at honce
  exact ⟨r, hrun, hobtained, lists', hrep, honce 0 (by decide), honce 1 (by decide)⟩

/-- The run that adds two pages and allocates one of them. -/
def addAndAlloc : Option (List (Option Word) × AllocatorHeap Unit) :=
  runCalls (allocatorCall 2) (RegionHeap.initial (fun _ => none) fun _ => ⟨⟨0, 0⟩, 0⟩)
    [.regionAddNew () 0x1000 0x2000 allocPmNormal, .memAlloc () 0x1000 0x1000 allocPmNormal]

/-- The allocation succeeds, and of the three descriptors the one for the hole is on no list. -/
theorem memAlloc_loses_descriptor :
    ∃ r ∈ addAndAlloc, r.1 = [none, some 0x1000] ∧ r.2.obtained = 3 ∧
      LLRep r.2.next (r.2.heads none) [0] ∧ LLRep r.2.next (r.2.heads (some ())) [2] := by
  decide

end ChrisOS.Mm
