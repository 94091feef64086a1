import ChrisOS.Mm.Kmem
import ChrisOS.Utils.Alignment
import Mathlib.Data.List.Basic
import Mathlib.Logic.Relation

/-!
# The kernel virtual address space stays partitioned

From the layout on, through any run of `kmem_vm_alloc` and `kmem_vm_free`, the free kernel
regions and the regions in use split the addresses from the end of the boot area to
`2 ^ 32` between them. The two maps merge differently: free regions always, regions in use
never. Alignment to pages is not requested from the allocator. It holds because a free
region starts at the end of the boot area or where a region in use ends.
-/

namespace ChrisOS.Mm

open ChrisOS.Utils ChrisOS.Lib

/-- The kernel space, with the allocations its users hold: address and requested size. -/
structure VmState where
  space : VmSpace
  allocated : List Range

/-- The state after `kmem_vm_alloc`. -/
def VmState.afterAlloc (s : VmState) (size : Word) : VmState :=
  let result := kmemVmAlloc s.space size
  { space := result.2
    allocated := if result.1 = 0 then s.allocated else ⟨result.1, size⟩ :: s.allocated }

/-- One step: allocate a positive number of pages, or free an allocation. -/
inductive VmStep : VmState → VmState → Prop
  | alloc (s : VmState) (size : Word) (hpos : 0 < size) (hpages : 4096 ∣ size.toNat) :
      VmStep s (s.afterAlloc size)
  | free (s : VmState) (r : Range) (hr : r ∈ s.allocated) (space : VmSpace)
      (h : kmemVmFree s.space r.address = some space) :
      VmStep s ⟨space, s.allocated.erase r⟩

/-- The layouts considered: a kernel segment above the first page, and a boot area that ends
on a page boundary. -/
structure Layout.Valid (layout : Layout) : Prop where
  segmentStart_gt : 4096 < layout.segmentStart.toNat
  le_memoryEnd : layout.segmentStart.toNat ≤ layout.memoryEnd.toNat
  memoryEnd_dvd : 4096 ∣ layout.memoryEnd.toNat

/-- The partition of the kernel's addresses. -/
structure VmPartition (layout : Layout) (s : VmState) : Prop where
  addresses_distinct : s.space.vmMap.Pairwise fun a b => a.address ≠ b.address
  disjoint : s.space.vmMap.Pairwise fun a b => a.hi ≤ b.lo ∨ b.hi ≤ a.lo
  free_disjoint : ∀ r ∈ s.space.vmAllocMap, r.attrs = allocVmKernel →
    ∀ q ∈ s.space.vmMap, r.hi ≤ q.lo ∨ q.hi ≤ r.lo
  cover : ∀ x, ((∃ r ∈ s.space.vmAllocMap, r.attrs = allocVmKernel ∧ r.lo ≤ x ∧ x < r.hi) ∨
    ∃ q ∈ s.space.vmMap, q.lo ≤ x ∧ x < q.hi) ↔ layout.memoryEnd.toNat ≤ x ∧ x < 2 ^ 32
  free_aligned : ∀ r ∈ s.space.vmAllocMap, 4096 ∣ r.address.toNat
  used_aligned : ∀ q ∈ s.space.vmMap, 4096 ∣ q.address.toNat
  user_untouched : (s.space.vmAllocMap.filter fun r => r.attrs = allocVmUser) =
    [⟨⟨pageSize, layout.segmentStart - pageSize⟩, allocVmUser⟩]
  size_kept : ∀ r ∈ s.allocated, kmemVmGetSize s.space r.address = some r.size
  free_no_panic : ∀ r ∈ s.allocated, kmemVmFree s.space r.address ≠ none

/-- The inductive invariant behind the partition. -/
structure VmInv (layout : Layout) (s : VmState) : Prop where
  tidy : Tidy (· = ·) s.space.vmAllocMap
  used : Tidy (fun _ _ => False) s.space.vmMap
  flags : ∀ x c, Covered s.space.vmAllocMap x c → c = allocVmUser ∨ c = allocVmKernel
  user : ∀ x, Covered s.space.vmAllocMap x allocVmUser ↔ 4096 ≤ x ∧ x < layout.segmentStart.toNat
  kernel : ∀ x, (Covered s.space.vmAllocMap x allocVmKernel ∨ Covered s.space.vmMap x ()) ↔
    layout.memoryEnd.toNat ≤ x ∧ x < 2 ^ 32
  apart : ∀ x, Covered s.space.vmAllocMap x allocVmKernel → ¬ Covered s.space.vmMap x ()
  pages : ∀ q ∈ s.space.vmMap, 4096 ∣ q.lo ∧ 4096 ∣ q.hi
  recorded : ∀ r, r ∈ s.allocated ↔ ⟨r, ()⟩ ∈ s.space.vmMap
  nodup : s.allocated.Nodup

variable {layout : Layout} {s : VmState}

/-- No address of the first page is free or in use. -/
theorem VmInv.not_covered_zero (hlayout : layout.Valid) (h : VmInv layout s) (c : AllocRegionFlags) :
    ¬ Covered s.space.vmAllocMap 0 c := by
  intro hx
  obtain hc | hc := h.flags _ _ hx
  · rw [hc] at hx
    have := (h.user 0).mp hx
    omega
  · rw [hc] at hx
    have := (h.kernel 0).mp (Or.inl hx)
    have := hlayout.segmentStart_gt
    have := hlayout.le_memoryEnd
    omega

/-- Every free region starts on a page boundary: what precedes a kernel region is the boot area
or a region in use. -/
theorem VmInv.dvd_lo (hlayout : layout.Valid) (h : VmInv layout s) {r : AllocatorRegion}
    (hr : r ∈ s.space.vmAllocMap) : 4096 ∣ r.lo := by
  have hne := h.tidy.lo_lt_hi hr
  have hfirst := covered_of_mem hr (Nat.le_refl _) hne
  have hpos : 0 < r.lo := by
    apply Nat.pos_of_ne_zero
    intro hzero
    rw [hzero] at hfirst
    exact h.not_covered_zero hlayout _ hfirst
  have hpred : ¬ Covered s.space.vmAllocMap (r.lo - 1) r.attrs :=
    h.tidy.canonical.not_coversWith_pred_lo (List.mem_map_of_mem hr) hpos
  obtain hattrs | hattrs := h.flags _ _ hfirst
  · rw [hattrs] at hfirst hpred
    rw [h.user] at hfirst hpred
    have heq : r.lo = 4096 := by omega
    exact heq ▸ Nat.dvd_refl 4096
  · rw [hattrs] at hfirst hpred
    have hin := (h.kernel r.lo).mp (Or.inl hfirst)
    by_cases hstart : r.lo = layout.memoryEnd.toNat
    · rw [hstart]
      exact hlayout.memoryEnd_dvd
    · obtain hfree | hused := (h.kernel (r.lo - 1)).mpr (by omega)
      · exact absurd hfree hpred
      · obtain ⟨q, hq, _, hlo, hhi⟩ := (covered_iff _ _ _).mp hused
        have hend : ¬ r.lo < q.hi := fun hlt =>
          h.apart r.lo hfirst (covered_of_mem hq (by omega) hlt)
        have heq : q.hi = r.lo := by omega
        rw [← heq]
        exact (h.pages q hq).2

/-- Page-aligned regions need no padding at alignment four. -/
theorem VmInv.alignAddress_eq (hlayout : layout.Valid) (h : VmInv layout s) {r : AllocatorRegion}
    (hr : r ∈ s.space.vmAllocMap) :
    alignAddress r.address (effectiveAlignment 0) = r.address :=
  alignAddress_of_dvd (k := 2) rfl (Nat.dvd_trans (by decide) (h.dvd_lo hlayout hr))

/-- A recorded allocation is found again by its address. -/
theorem VmInv.findAddress_eq (h : VmInv layout s) {r : Range} (hr : r ∈ s.allocated) :
    findAddress s.space.vmMap r.address = some ⟨r, ()⟩ := by
  have htidy := h.used
  obtain ⟨pre, post, hsplit⟩ := List.append_of_mem ((h.recorded r).mp hr)
  rw [hsplit] at htidy ⊢
  apply List.find?_eq_some_iff_append.mpr
  refine ⟨by simp, pre, post, rfl, fun q hq => ?_⟩
  have hbefore : q.hi ≤ r.lo := htidy.around.1 q hq
  have hne := htidy.lo_lt_hi (List.mem_append_left _ hq)
  have haddr : q.address ≠ r.address := by
    intro heq
    have : q.lo = r.lo := congrArg BitVec.toNat heq
    omega
  simpa using haddr

/-- A successful allocation takes the front of a free kernel region. -/
theorem VmInv.alloc_block (hlayout : layout.Valid) (h : VmInv layout s) {size addr : Word}
    {map : AllocatorMap} (hpos : 0 < size)
    (halloc : allocatorMemAlloc s.space.vmAllocMap size 0 allocVmKernel = some (addr, map)) :
    4096 ∣ addr.toNat ∧ addr.toNat + size.toNat ≤ 2 ^ 32 ∧
      (∀ x, addr.toNat ≤ x → x < addr.toNat + size.toNat →
        Covered s.space.vmAllocMap x allocVmKernel) ∧
      Tidy (· = ·) map ∧ ∀ x c, Covered map x c ↔
        Covered s.space.vmAllocMap x c ∧ ¬ (addr.toNat ≤ x ∧ x < addr.toNat + size.toNat) := by
  have hsize : 0 < size.toNat := by bv_omega
  have hreach : ∀ r ∈ s.space.vmAllocMap, ReachesAligned (effectiveAlignment 0) r.toRange := by
    intro r hr
    unfold ReachesAligned
    rw [h.alignAddress_eq hlayout hr]
    bv_omega
  obtain ⟨⟨r, hr, haddr, hflags, hlo, hhi⟩, _, htidy, hcover⟩ :=
    allocatorMemAlloc_tidy 2 rfl h.tidy hreach hsize halloc
  rw [h.alignAddress_eq hlayout hr] at haddr
  have hattrs : r.attrs = allocVmKernel := hflags.resolve_left (by decide)
  have hfits : r.hi ≤ 2 ^ 32 := h.tidy.fits r hr
  refine ⟨?_, by omega, fun x hx hx' => ?_, htidy, hcover⟩
  · rw [haddr]
    exact h.dvd_lo hlayout hr
  · exact hattrs ▸ covered_of_mem hr (by omega) (by omega)

/-- Allocation keeps the invariant. -/
theorem VmInv.afterAlloc (hlayout : layout.Valid) (h : VmInv layout s) {size : Word} (hpos : 0 < size)
    (hpages : 4096 ∣ size.toNat) :
    VmInv layout (s.afterAlloc size) := by
  unfold VmState.afterAlloc kmemVmAlloc
  cases halloc : allocatorMemAlloc s.space.vmAllocMap size 0 allocVmKernel with
  | none => exact h
  | some result =>
    obtain ⟨addr, map⟩ := result
    obtain ⟨hdvd, hfits, hfree, htidy, hcover⟩ := h.alloc_block hlayout hpos halloc
    have hsize : 0 < size.toNat := by bv_omega
    have hkernel : ∀ x, addr.toNat ≤ x → x < addr.toNat + size.toNat →
        layout.memoryEnd.toNat ≤ x ∧ x < 2 ^ 32 := fun x hlo hhi =>
      (h.kernel x).mp (Or.inl (hfree x hlo hhi))
    have hbase := hkernel addr.toNat (Nat.le_refl _) (by omega)
    have hgt := hlayout.segmentStart_gt
    have hle := hlayout.le_memoryEnd
    have hne : addr ≠ 0 := by bv_omega
    have hoff : ∀ x c, Covered s.space.vmMap x c →
        ¬ (addr.toNat ≤ x ∧ x < addr.toNat + size.toNat) := fun x _ hx hin =>
      h.apart x (hfree x hin.1 hin.2) hx
    have hblock : (⟨addr, size⟩ : Range).lo < (⟨addr, size⟩ : Range).hi := by
      simp only [Range.lo, Range.hi]
      omega
    obtain ⟨hused, hcoverUsed⟩ := add_tidy vmMapRegionPreMerge_decides s.space.vmMap
      ⟨⟨addr, size⟩, ()⟩ h.used hblock hfits (h.used.disjoint_of_not_covered hblock hoff) fun c => by
        refine ⟨0, by decide, ?_⟩
        rw [covered_cons]
        intro hzero
        obtain ⟨_, hzero, _⟩ | hzero := hzero
        · simp only [Range.lo] at hzero
          omega
        · have := (h.kernel 0).mp (Or.inr hzero)
          omega
    have hcoverUsed' : ∀ x, Covered (vmMapRegionAddNew s.space.vmMap addr size) x () ↔
        (addr.toNat ≤ x ∧ x < addr.toNat + size.toNat) ∨ Covered s.space.vmMap x () := fun x =>
      ((hcoverUsed x ()).trans (covered_cons _ _ x ())).trans (by simp [Range.lo, Range.hi])
    have hmem : ∀ q, q ∈ vmMapRegionAddNew s.space.vmMap addr size ↔
        q = ⟨⟨addr, size⟩, ()⟩ ∨ q ∈ s.space.vmMap := fun q =>
      ((vmMapRegionAddNew_perm s.space.vmMap addr size).mem_iff).trans List.mem_cons
    simp only [if_neg hne]
    exact
      { tidy := htidy
        used := hused
        flags := fun x c hx => h.flags x c ((hcover x c).mp hx).1
        user := fun x => by
          change Covered map x allocVmUser ↔ _
          have hold := h.user x
          have := hkernel x
          rw [hcover]
          constructor
          · exact fun hx => hold.mp hx.1
          · exact fun hx => ⟨hold.mpr hx, by omega⟩
        kernel := fun x => by
          change Covered map x allocVmKernel ∨ Covered (vmMapRegionAddNew _ _ _) x () ↔ _
          rw [← h.kernel x, hcover, hcoverUsed']
          exact moved_iff fun hin => hfree x hin.1 hin.2
        apart := fun x hx => by
          change ¬ Covered (vmMapRegionAddNew _ _ _) x ()
          obtain ⟨hx, hout⟩ := (hcover x _).mp hx
          rw [hcoverUsed']
          exact fun hin => hin.elim hout (h.apart x hx)
        pages := fun q hq => by
          obtain rfl | hq := (hmem q).mp hq
          · exact ⟨hdvd, Nat.dvd_add hdvd hpages⟩
          · exact h.pages q hq
        recorded := fun r => by
          change r ∈ (⟨addr, size⟩ : Range) :: s.allocated ↔ _
          rw [List.mem_cons, h.recorded]
          exact (or_congr_left (by simp)).trans (hmem ⟨r, ()⟩).symm
        nodup := by
          apply List.nodup_cons.mpr
          refine ⟨fun hold => ?_, h.nodup⟩
          have hcov := covered_of_mem ((h.recorded _).mp hold) (Nat.le_refl _) hblock
          exact hoff _ _ hcov ⟨Nat.le_refl _, hblock⟩ }

/-- Freeing an allocation keeps the invariant. -/
theorem VmInv.afterFree (hlayout : layout.Valid) (h : VmInv layout s) {r : Range} (hr : r ∈ s.allocated)
    {space : VmSpace}
    (hfree : kmemVmFree s.space r.address = some space) :
    VmInv layout ⟨space, s.allocated.erase r⟩ := by
  have hfound := h.findAddress_eq hr
  obtain ⟨_, pre, post, hsplit, hremove⟩ := findAddress_eq_some hfound
  simp only [kmemVmFree, hfound, Option.map_some, hremove, Option.some.injEq] at hfree
  subst hfree
  have hused := h.used
  have hregion := (h.recorded r).mp hr
  have hne := h.used.lo_lt_hi hregion
  rw [hsplit] at hused
  obtain ⟨hused', hcoverUsed⟩ := hused.unlink
  rw [← hsplit] at hcoverUsed
  have hin : ∀ x, r.lo ≤ x → x < r.hi → Covered s.space.vmMap x () := fun x hlo hhi =>
    covered_of_mem hregion hlo hhi
  have hgt := hlayout.segmentStart_gt
  have hle := hlayout.le_memoryEnd
  have hoff : ∀ x c, Covered s.space.vmAllocMap x c → ¬ (r.lo ≤ x ∧ x < r.hi) := by
    intro x c hx hblock
    have hkernel := (h.kernel x).mp (Or.inr (hin x hblock.1 hblock.2))
    obtain rfl | rfl := h.flags x c hx
    · have := (h.user x).mp hx
      omega
    · exact h.apart x hx (hin x hblock.1 hblock.2)
  have hlow : ¬ (r.lo ≤ 0 ∧ 0 < r.hi) := by
    intro hzero
    have := (h.kernel 0).mp (Or.inr (hin 0 hzero.1 hzero.2))
    omega
  obtain ⟨htidy, hcover⟩ := allocatorMemFree_tidy allocVmKernel h.tidy hne (h.used.fits _ hregion)
    hoff (h.not_covered_zero hlayout) hlow
  have hmem : ∀ q, q ∈ s.space.vmMap ↔ q ∈ pre ∨ q = ⟨r, ()⟩ ∨ q ∈ post := fun q => by
    rw [hsplit, List.mem_append, List.mem_cons]
  exact
    { tidy := htidy
      used := hused'
      flags := fun x c hx => by
        obtain ⟨hc, _⟩ | hx := (hcover x c).mp hx
        · exact Or.inr hc.symm
        · exact h.flags x c hx
      user := fun x => by
        change Covered (allocatorMemFree _ _ _ _) x allocVmUser ↔ _
        rw [hcover, ← h.user x]
        simp [allocVmKernel, allocVmUser]
      kernel := fun x => by
        change Covered (allocatorMemFree _ _ _ _) x allocVmKernel ∨ Covered (pre ++ post) x () ↔ _
        rw [← h.kernel x, hcover, hcoverUsed, or_comm, or_comm (b := Covered s.space.vmMap x ())]
        simp only [true_and]
        exact moved_iff fun hblock => hin x hblock.1 hblock.2
      apart := fun x hx => by
        change ¬ Covered (pre ++ post) x ()
        rw [hcoverUsed]
        intro hold
        obtain ⟨_, hx⟩ | hx := (hcover x _).mp hx
        · exact hold.2 hx
        · exact h.apart x hx hold.1
      pages := fun q hq => by
        refine h.pages q ((hmem q).mpr ?_)
        obtain hq | hq := List.mem_append.mp hq
        · exact Or.inl hq
        · exact Or.inr (Or.inr hq)
      recorded := fun q => by
        change q ∈ s.allocated.erase r ↔ (⟨q, ()⟩ : Region Unit) ∈ pre ++ post
        obtain ⟨hbefore, hafter⟩ := hused.around
        have hnot : (⟨r, ()⟩ : Region Unit) ∉ pre ++ post := by
          intro hmid
          obtain hmid | hmid := List.mem_append.mp hmid
          · exact Nat.not_lt.mpr (hbefore _ hmid) hne
          · exact Nat.not_lt.mpr (hafter _ hmid) hne
        rw [h.nodup.mem_erase_iff, h.recorded, hmem, List.mem_append]
        constructor
        · intro hq
          obtain ⟨hqr, hq | hq | hq⟩ := hq
          · exact Or.inl hq
          · exact absurd (congrArg Region.toRange hq) hqr
          · exact Or.inr hq
        · intro hq
          refine ⟨fun heq => hnot ?_, hq.imp_right Or.inr⟩
          rw [← heq]
          exact List.mem_append.mpr hq
      nodup := h.nodup.erase r }

/-- Every step keeps the invariant. -/
theorem VmInv.step (hlayout : layout.Valid) {s s' : VmState} (h : VmInv layout s) (hstep : VmStep s s') :
    VmInv layout s' := by
  cases hstep with
  | alloc size hpos hpages => exact h.afterAlloc hlayout hpos hpages
  | free r hr space hfree => exact h.afterFree hlayout hr hfree

/-- The user region is the only one with its flags. -/
theorem VmInv.filter_user (hlayout : layout.Valid) (h : VmInv layout s) :
    (s.space.vmAllocMap.filter fun r => r.attrs = allocVmUser) =
      [⟨⟨pageSize, layout.segmentStart - pageSize⟩, allocVmUser⟩] := by
  have hgt := hlayout.segmentStart_gt
  have hspan : Region.span ⟨⟨pageSize, layout.segmentStart - pageSize⟩, allocVmUser⟩ =
      ⟨4096, layout.segmentStart.toNat, allocVmUser⟩ := by
    simp only [Region.span, Range.lo, Range.hi, pageSize, Span.mk.injEq, and_true]
    exact ⟨rfl, by bv_omega⟩
  have hsub := (List.filter_sublist (p := fun r : AllocatorRegion => r.attrs = allocVmUser)
    (l := s.space.vmAllocMap)).map Region.span
  apply List.map_injective_iff.mpr Region.span_injective
  rw [List.map_cons, List.map_nil, hspan]
  apply Canonical.eq_of_coversWith
  · exact ⟨fun t ht => h.tidy.canonical.nonempty t (hsub.subset ht),
      h.tidy.canonical.ordered.sublist hsub⟩
  · exact ⟨by simpa using hgt, List.pairwise_singleton _ _⟩
  · intro x c
    change Covered _ x c ↔ _
    rw [coversWith_cons]
    simp only [coversWith_nil, or_false, Span.Covers]
    have hfilter : Covered (s.space.vmAllocMap.filter fun r => r.attrs = allocVmUser) x c ↔
        allocVmUser = c ∧ Covered s.space.vmAllocMap x allocVmUser := by
      simp only [covered_iff, List.mem_filter, decide_eq_true_eq]
      constructor
      · intro hx
        obtain ⟨r, ⟨hr, huser⟩, hattrs, hx⟩ := hx
        exact ⟨huser.symm.trans hattrs, r, hr, huser, hx⟩
      · intro hx
        obtain ⟨hc, r, hr, huser, hx⟩ := hx
        exact ⟨r, ⟨hr, huser⟩, huser.trans hc, hx⟩
    rw [hfilter, h.user]

/-- The invariant gives the partition. -/
theorem VmInv.partition (hlayout : layout.Valid) (h : VmInv layout s) : VmPartition layout s where
  addresses_distinct := by
    refine (List.pairwise_map.mp h.used.canonical.ordered).imp_of_mem fun {a b} ha _ hab heq => ?_
    have hne := h.used.lo_lt_hi ha
    have hle : a.hi ≤ b.lo := hab.1
    have : a.lo = b.lo := congrArg BitVec.toNat heq
    omega
  disjoint := (List.pairwise_map.mp h.used.canonical.ordered).imp fun hab => Or.inl hab.1
  free_disjoint := fun r hr hattrs q hq => by
    have hoff : ∀ x c, Covered s.space.vmMap x c → ¬ (r.lo ≤ x ∧ x < r.hi) := fun x _ hx hin =>
      h.apart x (hattrs ▸ covered_of_mem hr hin.1 hin.2) hx
    exact (h.used.disjoint_of_not_covered (h.tidy.lo_lt_hi hr) hoff q hq).symm
  cover := fun x => by
    rw [← h.kernel x, covered_iff, covered_iff]
    simp
  free_aligned := fun r hr => h.dvd_lo hlayout hr
  used_aligned := fun q hq => (h.pages q hq).1
  user_untouched := h.filter_user hlayout
  size_kept := fun r hr => by simp [kmemVmGetSize, h.findAddress_eq hr]
  free_no_panic := fun r hr => by simp [kmemVmFree, h.findAddress_eq hr]

/-- Loading a valid layout ends within two rounds of the subtraction, and leaves the user region
and the kernel region past the boot area. -/
theorem kmemLoadLayout_eq (layout : Layout) (hlayout : layout.Valid) (fuel : ℕ) :
    ∃ map, kmemLoadLayout (fuel + 2) layout vmSpaceInit = some ⟨[], map⟩ ∧
      map.map Region.span = [⟨4096, layout.segmentStart.toNat, allocVmUser⟩,
        ⟨layout.memoryEnd.toNat, 2 ^ 32, allocVmKernel⟩] := by
  have hgt := hlayout.segmentStart_gt
  have hle := hlayout.le_memoryEnd
  let user : AllocatorRegion := ⟨⟨pageSize, layout.segmentStart - pageSize⟩, allocVmUser⟩
  let kernel : AllocatorRegion :=
    ⟨⟨layout.segmentStart, maxVa - layout.segmentStart + 1⟩, allocVmKernel⟩
  let hole : Range := ⟨layout.segmentStart, layout.memoryEnd - layout.segmentStart⟩
  have huser : user.lo = 4096 ∧ user.hi = layout.segmentStart.toNat := by
    refine ⟨rfl, ?_⟩
    simp only [user, Range.hi, pageSize]
    bv_omega
  have hkernel : kernel.lo = layout.segmentStart.toNat ∧ kernel.hi = 2 ^ 32 := by
    refine ⟨rfl, ?_⟩
    have hmax : maxVa.toNat = 2 ^ 32 - 1 := rfl
    simp only [kernel, Range.hi]
    bv_omega
  have hhole : hole.lo = layout.segmentStart.toNat ∧ hole.hi = layout.memoryEnd.toNat := by
    refine ⟨rfl, ?_⟩
    simp only [hole, Range.hi]
    bv_omega
  have hend := layout.memoryEnd.isLt
  have hadd : allocatorRegionAdd [user] kernel = [user, kernel] := by
    have hmerge : merge allocatorRegionPreMerge user kernel = none := rfl
    have hlt : ¬ kernel.address < user.address := by
      simp only [kernel, user, pageSize]
      bv_omega
    simp only [allocatorRegionAdd, add, hmerge, if_neg hlt]
  have htidy : Tidy (· = ·) ([user] ++ kernel :: []) := by
    refine ⟨⟨?_, ?_⟩, ?_⟩
    · simp only [List.cons_append, List.nil_append, List.map_cons, List.map_nil,
        List.forall_mem_cons, Region.span]
      exact ⟨by omega, by omega, by simp⟩
    · simp only [List.cons_append, List.nil_append, List.map_cons, List.map_nil, List.pairwise_cons,
        List.forall_mem_cons, Span.Before, Region.span]
      exact ⟨⟨⟨by omega, fun heq => absurd heq (by simp [user, kernel, allocVmUser, allocVmKernel])⟩,
        by simp⟩, by simp, List.Pairwise.nil⟩
    · simp only [List.cons_append, List.nil_append, List.forall_mem_cons, Range.Fits]
      exact ⟨by have := layout.segmentStart.isLt; omega, by omega, by simp⟩
  have hskip : cutAndStitchSplit [] user [kernel] hole = ([user], [kernel]) := by
    have hcut : cut user.toRange hole = none := by
      have hstart : ¬ StartPointInRange hole.address user.address user.size := by
        simp only [StartPointInRange, hole, user, pageSize]
        bv_omega
      have hlow : ¬ hole.address < user.address := by
        simp only [hole, user, pageSize]
        bv_omega
      rw [cut, if_neg hstart, if_neg hlow]
    simp only [cutAndStitchSplit, hcut, List.nil_append]
  obtain ⟨hbefore, hafter⟩ := htidy.around
  obtain ⟨left, right, hsplit, hleft, hright⟩ :=
    cutAndStitchSplit_of_within hole (htidy.fits kernel (by simp))
      (fun q hq => Nat.le_trans (Nat.le_add_right _ _) (hbefore q hq)) hafter
      (by omega) (by omega) (by omega)
  refine ⟨[user] ++ dropEmpty left ++ dropEmpty right, ?_, ?_⟩
  · change Option.map _ (subtractFrom hole (fuel + 2) [] (allocatorRegionAdd [user] kernel)) = _
    rw [hadd, subtractFrom, hskip, subtractFrom, hsplit, subtractFrom_nil]
    rfl
  · rw [List.map_append, List.map_append, hleft, hright, hkernel.1, hkernel.2, hhole.1, hhole.2,
      piece_of_le (Nat.le_refl _), piece, if_pos hend]
    simp only [List.map_cons, List.map_nil, List.append_nil, List.cons_append, List.nil_append,
      Region.span, huser.1, huser.2]
    rfl

/-- The loaded layout meets the invariant with nothing allocated. -/
theorem vmInv_init (hlayout : layout.Valid) {map : AllocatorMap}
    (hspans : map.map Region.span = [⟨4096, layout.segmentStart.toNat, allocVmUser⟩,
      ⟨layout.memoryEnd.toNat, 2 ^ 32, allocVmKernel⟩]) : VmInv layout ⟨⟨[], map⟩, []⟩ := by
  have hgt := hlayout.segmentStart_gt
  have hle := hlayout.le_memoryEnd
  have hend := layout.memoryEnd.isLt
  have hcover : ∀ x c, Covered map x c ↔
      (allocVmUser = c ∧ 4096 ≤ x ∧ x < layout.segmentStart.toNat) ∨
        allocVmKernel = c ∧ layout.memoryEnd.toNat ≤ x ∧ x < 2 ^ 32 := by
    intro x c
    unfold Covered
    rw [hspans]
    simp [coversWith_cons, Span.Covers]
  exact
    { tidy := by
        refine ⟨?_, fun r hr => ?_⟩
        · rw [hspans]
          apply (Canonical.cons_iff _ _).mpr
          refine ⟨hgt, fun t ht => ?_, (Canonical.cons_iff _ _).mpr ⟨hend, by simp, Canonical.nil⟩⟩
          rw [List.mem_singleton.mp ht]
          exact ⟨hle, fun heq => absurd heq (by simp [allocVmUser, allocVmKernel])⟩
        · have hspan : r.span ∈ map.map Region.span := List.mem_map_of_mem hr
          rw [hspans, List.mem_cons, List.mem_singleton] at hspan
          unfold Range.Fits
          obtain hspan | hspan := hspan
          · have : r.hi = layout.segmentStart.toNat := congrArg Span.hi hspan
            omega
          · have : r.hi = 2 ^ 32 := congrArg Span.hi hspan
            omega
      used := ⟨Canonical.nil, by simp⟩
      flags := fun x c hx => by
        obtain ⟨hc, _⟩ | ⟨hc, _⟩ := (hcover x c).mp hx
        · exact Or.inl hc.symm
        · exact Or.inr hc.symm
      user := fun x => by
        change Covered map x allocVmUser ↔ _
        rw [hcover]
        simp [allocVmUser, allocVmKernel]
      kernel := fun x => by
        change Covered map x allocVmKernel ∨ Covered [] x () ↔ _
        rw [hcover]
        simp [allocVmUser, allocVmKernel]
      apart := fun x _ => not_covered_nil x ()
      pages := by simp
      recorded := by simp
      nodup := List.nodup_nil }

/-- From any valid layout on, every run of allocations and frees keeps the kernel's virtual
address space partitioned. -/
theorem kmem_vm_partition (layout : Layout) (hlayout : layout.Valid) (fuel : ℕ)
    (hfuel : 2 ≤ fuel) :
    ∃ space, kmemLoadLayout fuel layout vmSpaceInit = some space ∧
      ∀ s, Relation.ReflTransGen VmStep ⟨space, []⟩ s → VmPartition layout s := by
  obtain ⟨rounds, rfl⟩ := Nat.exists_eq_add_of_le' hfuel
  obtain ⟨map, hload, hspans⟩ := kmemLoadLayout_eq layout hlayout rounds
  refine ⟨⟨[], map⟩, hload, fun s hrun => ?_⟩
  have hinv : VmInv layout s := by
    induction hrun with
    | refl => exact vmInv_init hlayout hspans
    | tail _ hstep ih => exact ih.step hlayout hstep
  exact hinv.partition hlayout

/-- The layout of a kernel linked at three gigabytes with a four-megabyte boot area. -/
theorem kmem_vm_partition_boot :
    ∃ space, kmemLoadLayout 2 ⟨0xC0000000, 0xC0400000⟩ vmSpaceInit = some space ∧
      ∀ s, Relation.ReflTransGen VmStep ⟨space, []⟩ s →
        VmPartition ⟨0xC0000000, 0xC0400000⟩ s :=
  kmem_vm_partition ⟨0xC0000000, 0xC0400000⟩ ⟨by decide, by decide, by decide⟩ 2 (Nat.le_refl 2)

end ChrisOS.Mm
