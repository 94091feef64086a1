import ChrisOS.Mm.Kmem
import ChrisOS.Mm.RegionLinks
import Mathlib.Data.List.MinMax

/-!
# Copying an address space

`vm_space_clone` with the copy functions of `mm/vm_map.c` and `mm/allocator.c`, on the descriptors of
the two region types. The copy functions walk the list of the map they are to fill and add every
region they meet to that same map; their source argument is not used. The child's structure
comes from `kmalloc` and its pointers are whatever the memory contains.

The results of `kmalloc` and `paging_pd_clone` are parameters; a page directory is a value.
-/

namespace ChrisOS.Mm

open ChrisOS.Utils ChrisOS.Lib

variable {κ ρ δ : Type*} [DecidableEq κ]

/-- The loop of both copy functions, with the descriptor it is at. -/
def mapInitCopyFrom (preMerge : Region ρ → Region ρ → Bool) (map : κ) :
    ℕ → RegionHeap κ ρ → Option ℕ → Option (RegionHeap κ ρ)
  | _, s, none => some s
  | 0, _, some _ => none
  | fuel + 1, s, some region =>
    (regionAddNew preMerge s map (s.region region)).bind fun s =>
      mapInitCopyFrom preMerge map fuel s (s.next region)

/-- `vm_map_init_copy`. -/
def vmMapInitCopy (fuel : ℕ) (s : RegionHeap κ Unit) (map _src : κ) : Option (RegionHeap κ Unit) :=
  mapInitCopyFrom vmMapRegionPreMerge map fuel s (s.heads (some map))

/-- `allocator_map_init_copy`. -/
def allocatorMapInitCopy (fuel : ℕ) (s : AllocatorHeap κ) (map _src : κ) : Option (AllocatorHeap κ) :=
  mapInitCopyFrom allocatorRegionPreMerge map fuel s (s.heads (some map))

/-- Address spaces: their used regions, their available regions and their page directories. -/
structure VmSpaces (κ δ : Type*) where
  vmMaps : RegionHeap κ Unit
  vmAllocMaps : AllocatorHeap κ
  pageDirectory : κ → δ

/-- `vm_space_clone`, with the address of the child or null. -/
def vmSpaceClone (fuel : ℕ) (kmalloc : Option κ) (pagingPdClone : δ → Option δ) (s : VmSpaces κ δ)
    (parent : κ) : Option (Option κ × VmSpaces κ δ) :=
  match kmalloc with
  | none => some (none, s)
  | some child =>
    match pagingPdClone (s.pageDirectory parent) with
    | none => some (none, s)
    | some pd =>
      (vmMapInitCopy fuel s.vmMaps child parent).bind fun vmMaps =>
        (allocatorMapInitCopy fuel s.vmAllocMaps child parent).map fun vmAllocMaps =>
          (some child, ⟨vmMaps, vmAllocMaps, Function.update s.pageDirectory child pd⟩)

section Loop

variable {s s' : RegionHeap κ ρ} {lists : Option κ → List ℕ} {held : List ℕ}
  {preMerge : Region ρ → Region ρ → Bool} {map : κ}

/-- The copy loop changes no other map, whatever it meets. -/
theorem mapInitCopyFrom_frame {fuel : ℕ} {cursor : Option ℕ} (h : Linked s lists held)
    (hcopy : mapInitCopyFrom preMerge map fuel s cursor = some s') :
    ∃ lists', Linked s' lists' held ∧ ∀ k, k ≠ map → s'.maps lists' k = s.maps lists k := by
  induction fuel generalizing s lists cursor with
  | zero =>
    cases cursor with
    | none =>
      cases hcopy
      exact ⟨lists, h, fun _ _ => rfl⟩
    | some region => cases hcopy
  | succ fuel ih =>
    cases cursor with
    | none =>
      cases hcopy
      exact ⟨lists, h, fun _ _ => rfl⟩
    | some region =>
      obtain ⟨s₁, lists₁, hadd, h₁, hmaps⟩ := regionAddNew_spec preMerge h map (s.region region)
      rw [mapInitCopyFrom, hadd, Option.bind_some] at hcopy
      obtain ⟨lists', h', hframe⟩ := ih h₁ hcopy
      refine ⟨lists', h', fun k hk => ?_⟩
      rw [hframe k hk, hmaps, Function.update_of_ne hk]

/-- Where regions are never merged, `_add` is `_insert`. -/
theorem regionAddFrom_of_never (hnever : ∀ a b, preMerge a b = false) (map : κ) (region fuel : ℕ)
    (cursor : Option ℕ) :
    regionAddFrom preMerge s map region fuel cursor = regionInsertFrom s map region fuel cursor := by
  induction fuel generalizing cursor with
  | zero => cases cursor <;> rfl
  | succ fuel ih =>
    cases cursor with
    | none => rfl
    | some cur =>
      have hmerge : merge preMerge (s.region cur) (s.region region) = none := by
        rw [merge, hnever, if_neg Bool.false_ne_true]
      rw [regionAddFrom, hmerge, regionInsertFrom, ih]

/-- Where regions are never merged, a copy of a region is linked behind it, and behind every region
when none starts further on. -/
theorem regionAddNew_copy (hnever : ∀ a b, preMerge a b = false) {cur : ℕ} {pre post : List ℕ}
    (h : Linked s lists held) (hlist : lists (some map) = pre ++ cur :: post) {top : Word}
    (htop : ∀ x ∈ lists (some map), (s.region x).address ≤ top)
    (hmem : ∃ x ∈ cur :: post, (s.region x).address = top) :
    ∃ s' lists' pre' post', regionAddNew preMerge s map (s.region cur) = some s' ∧
      Linked s' lists' held ∧ lists' (some map) = pre' ++ cur :: post' ∧
      (∀ x ∈ lists' (some map), (s'.region x).address ≤ top) ∧
      ∃ x ∈ post', (s'.region x).address = top := by
  obtain ⟨d, s₁, free, hadd, halloc, hregion⟩ := regionAddNew_eq preMerge h map (s.region cur)
  obtain ⟨s', lists', front, back, heq, h', hsplit, hlist', _, hoff, hfields, _, hback⟩ :=
    regionInsert_new halloc hregion map (s.region cur)
  rw [hadd, regionAdd, regionAddFrom_of_never hnever]
  have hself : s'.region d = s.region cur := by rw [hfields, Function.update_self]
  have hother : ∀ x ∈ lists (some map), s'.region x = s.region x := fun x hx => by
    rw [hfields, Function.update_of_ne (ne_of_mem_of_not_mem hx hoff)]
  have hcur : (s.region cur).address ≤ top := htop cur (by simp [hlist])
  have htop' : ∀ x ∈ lists' (some map), (s'.region x).address ≤ top := by
    intro x hx
    rw [hlist'] at hx
    obtain hx | hx | hx : x ∈ front ∨ x = d ∨ x ∈ back := by simpa using hx
    · rw [hother x (by simp [hsplit, hx])]
      exact htop x (by simp [hsplit, hx])
    · rwa [hx, hself]
    · rw [hother x (by simp [hsplit, hx])]
      exact htop x (by simp [hsplit, hx])
  obtain ⟨x, hx, hxtop⟩ := hmem
  obtain ⟨mid, rfl, rfl⟩ | ⟨mid, rfl, rfl⟩ := append_cons_eq_append_cases (hlist.symm.trans hsplit)
  · -- linked in front of the region: it is not one that starts as far on as any
    rw [← List.cons_append, ← List.append_assoc] at hlist'
    refine ⟨s', lists', front ++ d :: mid, post, heq, h', hlist', htop', x, ?_, ?_⟩
    · obtain rfl | hx := List.mem_cons.mp hx
      · obtain ⟨y, hy⟩ : ∃ y, y ∈ (mid ++ x :: post).head? := by cases mid <;> exact ⟨_, rfl⟩
        have hlt := hback y hy
        rw [hxtop] at hlt
        have hle := htop y (by rw [hsplit]; exact List.mem_append_right _ (List.mem_of_mem_head? hy))
        exact absurd hle (BitVec.not_le.mpr hlt)
      · exact hx
    · rw [hother x (by rw [hlist]; exact List.mem_append_right _ hx), hxtop]
  · rw [List.append_assoc, List.cons_append] at hlist'
    refine ⟨s', lists', pre, mid ++ d :: back, heq, h', hlist', htop', ?_⟩
    obtain rfl | hx := List.mem_cons.mp hx
    · exact ⟨d, by simp, by rw [hself, hxtop]⟩
    · refine ⟨x, ?_, by rw [hother x (by simp [hlist, hx]), hxtop]⟩
      obtain hx | hx := List.mem_append.mp hx
      · exact List.mem_append_left _ hx
      · exact List.mem_append_right _ (List.mem_cons_of_mem d hx)

/-- A copy loop that starts at a region never ends where regions are not merged: behind it there is
always a region that starts as far on as any. -/
theorem mapInitCopyFrom_eq_none (hnever : ∀ a b, preMerge a b = false) {cur : ℕ} {pre post : List ℕ}
    (h : Linked s lists held) (hlist : lists (some map) = pre ++ cur :: post) {top : Word}
    (htop : ∀ x ∈ lists (some map), (s.region x).address ≤ top)
    (hmem : ∃ x ∈ cur :: post, (s.region x).address = top) (fuel : ℕ) :
    mapInitCopyFrom preMerge map fuel s (some cur) = none := by
  induction fuel generalizing s lists cur pre post with
  | zero => rfl
  | succ fuel ih =>
    obtain ⟨s₁, lists₁, pre₁, post₁, hadd, h₁, hlist₁, htop₁, hmem₁⟩ :=
      regionAddNew_copy hnever h hlist htop hmem
    have hrep := h₁.rep (some map)
    rw [hlist₁] at hrep
    rw [mapInitCopyFrom, hadd, Option.bind_some, hrep.suffix.head_eq]
    cases post₁ with
    | nil =>
      obtain ⟨x, hx, _⟩ := hmem₁
      cases hx
    | cons next rest =>
      have hlist' : lists₁ (some map) = (pre₁ ++ [cur]) ++ next :: rest := by
        rw [hlist₁, List.append_assoc]
        rfl
      exact ih h₁ hlist' htop₁ hmem₁

/-- Where regions are not merged, the copy loop ends for an empty map only. -/
theorem mapInitCopyFrom_head (hnever : ∀ a b, preMerge a b = false) {fuel : ℕ} (h : Linked s lists held)
    (hcopy : mapInitCopyFrom preMerge map fuel s (s.heads (some map)) = some s') :
    lists (some map) = [] ∧ s' = s := by
  rw [(h.rep (some map)).head_eq] at hcopy
  cases hlist : lists (some map) with
  | nil =>
    rw [hlist] at hcopy
    refine ⟨rfl, ?_⟩
    cases fuel <;> exact (Option.some.inj hcopy).symm
  | cons cur post =>
    -- a region that starts as far on as any
    let start : ℕ → ℕ := fun x => (s.region x).address.toNat
    obtain ⟨x, hx⟩ := Option.ne_none_iff_exists'.mp
      (mt (List.argmax_eq_none (f := start)).mp (List.cons_ne_nil cur post))
    have htop : ∀ y ∈ lists (some map), (s.region y).address ≤ (s.region x).address := by
      intro y hy
      rw [hlist] at hy
      have hle : start y ≤ start x := List.le_of_mem_argmax hy hx
      exact BitVec.le_def.mpr hle
    have hlist' : lists (some map) = [] ++ cur :: post := hlist
    have hnone := mapInitCopyFrom_eq_none hnever h hlist' htop ⟨x, List.argmax_mem hx, rfl⟩ fuel
    rw [hlist, List.head?_cons, hnone] at hcopy
    cases hcopy

end Loop

section Clone

variable {s : VmSpaces κ δ} {parent child : κ} {vmLists allocLists : Option κ → List ℕ}
  {vmHeld allocHeld : List ℕ} {pagingPdClone : δ → Option δ}

omit [DecidableEq κ] in
/-- The child's map lists the regions of the parent's in descriptors of its own, and the parent's map is
as it was. -/
def CopiedMap {ρ : Type*} (s s' : RegionHeap κ ρ) (lists lists' : Option κ → List ℕ)
    (parent child : κ) : Prop :=
  s'.maps lists' child = s.maps lists parent ∧ s'.maps lists' parent = s.maps lists parent ∧
    ∀ d ∈ lists' (some child), d ∉ lists' (some parent)

omit [DecidableEq κ] in
/-- An empty map is a copy of an empty map only. -/
theorem copiedMap_of_empty {s s' : RegionHeap κ ρ} {lists lists' : Option κ → List ℕ}
    (hchild : lists' (some child) = []) (hparent : s'.maps lists' parent = s.maps lists parent) :
    CopiedMap s s' lists lists' parent child ↔ lists (some parent) = [] := by
  have hempty : s'.maps lists' child = [] := by rw [RegionHeap.maps, hchild, List.map_nil]
  constructor
  · intro hcopied
    exact List.map_eq_nil_iff.mp (hcopied.1.symm.trans hempty)
  · intro hnil
    refine ⟨?_, hparent, by simp [hchild]⟩
    rw [hempty, RegionHeap.maps, hnil, List.map_nil]

/-- A clone that returns a child has run both copy loops. -/
theorem vmSpaceClone_eq_some {fuel : ℕ} {kmalloc : Option κ} {s' : VmSpaces κ δ}
    (h : vmSpaceClone fuel kmalloc pagingPdClone s parent = some (some child, s')) :
    ∃ vmMaps vmAllocMaps, vmMapInitCopy fuel s.vmMaps child parent = some vmMaps ∧
      allocatorMapInitCopy fuel s.vmAllocMaps child parent = some vmAllocMaps ∧
      s'.vmMaps = vmMaps ∧ s'.vmAllocMaps = vmAllocMaps := by
  cases kmalloc with
  | none => cases h
  | some address =>
    rw [vmSpaceClone] at h
    cases hpd : pagingPdClone (s.pageDirectory parent) with
    | none =>
      rw [hpd] at h
      cases h
    | some pd =>
      rw [hpd] at h
      obtain ⟨vmMaps, hvmCopy, hrest⟩ := Option.bind_eq_some_iff.mp h
      obtain ⟨vmAllocMaps, hallocCopy, heq⟩ := Option.map_eq_some_iff.mp hrest
      obtain ⟨hchild, rfl⟩ := Prod.mk.inj heq
      cases hchild
      exact ⟨vmMaps, vmAllocMaps, hvmCopy, hallocCopy, rfl, rfl⟩

/-- Cloning an address space. If it returns a child, no other space's maps have changed, but
the child's map of used regions is empty, and so is its map of available regions if the fresh
structure's pointer to them was null: the maps are copies exactly when the parent's are
empty. With both pointers null it does return. -/
theorem vmSpaceClone_copies (hvm : Linked s.vmMaps vmLists vmHeld)
    (halloc : Linked s.vmAllocMaps allocLists allocHeld) (hne : child ≠ parent) :
    (∀ fuel kmalloc s', vmSpaceClone fuel kmalloc pagingPdClone s parent = some (some child, s') →
      ∃ vmLists' allocLists', Linked s'.vmMaps vmLists' vmHeld ∧
        Linked s'.vmAllocMaps allocLists' allocHeld ∧
        (∀ k, k ≠ child → s'.vmMaps.maps vmLists' k = s.vmMaps.maps vmLists k ∧
          s'.vmAllocMaps.maps allocLists' k = s.vmAllocMaps.maps allocLists k) ∧
        (CopiedMap s.vmMaps s'.vmMaps vmLists vmLists' parent child ↔ vmLists (some parent) = []) ∧
        (s.vmAllocMaps.heads (some child) = none →
          (CopiedMap s.vmAllocMaps s'.vmAllocMaps allocLists allocLists' parent child ↔
            allocLists (some parent) = []))) ∧
    (s.vmMaps.heads (some child) = none → s.vmAllocMaps.heads (some child) = none →
      ∀ fuel pd, pagingPdClone (s.pageDirectory parent) = some pd →
        ∃ s', vmSpaceClone fuel (some child) pagingPdClone s parent = some (some child, s')) := by
  refine ⟨fun fuel kmalloc s' hclone => ?_, fun hvmNull hallocNull fuel pd hpd => ?_⟩
  · obtain ⟨vmMaps, vmAllocMaps, hvmCopy, hallocCopy, hvm', halloc'⟩ := vmSpaceClone_eq_some hclone
    obtain ⟨hempty, rfl⟩ := mapInitCopyFrom_head (fun _ _ => rfl) hvm hvmCopy
    obtain ⟨allocLists', hlinked, hframe⟩ := mapInitCopyFrom_frame halloc hallocCopy
    rw [hvm', halloc']
    refine ⟨vmLists, allocLists', hvm, hlinked, fun k hk => ⟨rfl, hframe k hk⟩,
      copiedMap_of_empty hempty rfl, fun hnull => copiedMap_of_empty ?_ (hframe parent hne.symm)⟩
    have hsame : vmAllocMaps = s.vmAllocMaps := by
      rw [allocatorMapInitCopy, hnull] at hallocCopy
      cases fuel <;> exact (Option.some.inj hallocCopy).symm
    have hrep := hlinked.rep (some child)
    rw [hsame, hnull] at hrep
    cases hchild : allocLists' (some child) with
    | nil => rfl
    | cons d rest =>
      rw [hchild] at hrep
      cases hrep.1
  · have hvmCopy : vmMapInitCopy fuel s.vmMaps child parent = some s.vmMaps := by
      rw [vmMapInitCopy, hvmNull]
      cases fuel <;> rfl
    have hallocCopy : allocatorMapInitCopy fuel s.vmAllocMaps child parent = some s.vmAllocMaps := by
      rw [allocatorMapInitCopy, hallocNull]
      cases fuel <;> rfl
    exact ⟨_, by rw [vmSpaceClone, hpd]; dsimp only; rw [hvmCopy, hallocCopy]; rfl⟩

/-- Two address spaces: the first uses one page, the second is fresh with null pointers. -/
def onePageSpaces : VmSpaces Bool Unit :=
  ⟨⟨fun place => if place = some false then some 0 else none, fun _ => none,
      fun _ => ⟨⟨0x1000, 0x1000⟩, ()⟩, 1⟩,
    RegionHeap.initial (fun _ => none) fun _ => ⟨⟨0, 0⟩, 0⟩, fun _ => ()⟩

/-- The one descriptor is on the first space's list. -/
theorem linked_onePageSpaces :
    Linked onePageSpaces.vmMaps (fun place => if place = some false then [0] else []) [] := by
  refine ⟨by rintro (_ | _ | _) <;> decide, fun p q d hp hq => ?_, List.nodup_nil, by simp,
    fun d => ?_⟩
  · have hplace : ∀ p : Option Bool, d ∈ (if p = some false then [0] else []) → p = some false :=
      fun p hp => by
        by_contra hne
        rw [if_neg hne] at hp
        cases hp
    rw [hplace p hp, hplace q hq]
  · simp [onePageSpaces]

/-- Cloning the first space into the second: it returns, with the available regions copied, of which
there are none, and the used one not. -/
theorem vmSpaceClone_copies_onePage :
    ∃ s' vmLists' allocLists',
      vmSpaceClone 1 (some true) some onePageSpaces false = some (some true, s') ∧
      CopiedMap onePageSpaces.vmAllocMaps s'.vmAllocMaps (fun _ => []) allocLists' false true ∧
      s'.vmMaps.maps vmLists' false = [⟨⟨0x1000, 0x1000⟩, ()⟩] ∧
      ¬ CopiedMap onePageSpaces.vmMaps s'.vmMaps
        (fun place => if place = some false then [0] else []) vmLists' false true := by
  have hne : true ≠ false := by decide
  have halloc : Linked onePageSpaces.vmAllocMaps (fun _ => []) [] := linked_initial _ _
  obtain ⟨hreturned, hreturns⟩ := vmSpaceClone_copies linked_onePageSpaces halloc hne
  obtain ⟨s', hclone⟩ := hreturns rfl rfl 1 () rfl
  obtain ⟨vmLists', allocLists', _, _, hframe, hvmCopied, hallocCopied⟩ := hreturned 1 _ s' hclone
  refine ⟨s', vmLists', allocLists', hclone, (hallocCopied rfl).mpr rfl,
    (hframe false hne.symm).1, ?_⟩
  rw [hvmCopied]
  decide

/-- The child of a space that uses one page uses none. -/
theorem vmSpaceClone_loses_region :
    ∃ r ∈ vmSpaceClone 1 (some true) some onePageSpaces false, r.1 = some true ∧
      LLRep r.2.vmMaps.next (r.2.vmMaps.heads (some false)) [0] ∧
      LLRep r.2.vmMaps.next (r.2.vmMaps.heads (some true)) [] := by
  decide

end Clone

end ChrisOS.Mm
