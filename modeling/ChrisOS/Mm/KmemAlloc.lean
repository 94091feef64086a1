import ChrisOS.Ia32.PagingInv
import ChrisOS.Mm.FrontBlocks
import ChrisOS.Mm.KmemPages
import ChrisOS.Mm.VmPartition

/-!
# What a failed `kmem_alloc` leaves behind

`kmem_alloc` takes address space, then wires a frame to each of its pages. When the frames run out it
unmaps the pages it has wired and gives the address space back, so that both maps of the address space
and every translation are as before. The frames of the unmapped pages are not given back: `kmem_page_free`
does not know them. Nothing is lost exactly when not a single page was wired.
-/

namespace ChrisOS.Mm

open ChrisOS.Utils ChrisOS.Lib ChrisOS.Ia32

/-- Memory management as its functions keep it: free address space and free frames in whole pages, page
tables of their own, and no translation for free addresses. -/
structure KmemReady (s : KernelMemory) : Prop where
  vm : VmReady 4096 s.kernVmSpace
  frames : Starts 4096 allocPmNormal s.kernPmAllocMap
  paging : PagingInv s.paging s.currentPageDir
  untranslated : ∀ x : Word, Covered s.kernVmSpace.vmAllocMap x.toNat allocVmKernel →
    lookup s.paging s.currentPageDir x = none

/-- The address space that runs of `kmem_vm_alloc` and `kmem_vm_free` leave is such a space. -/
theorem VmInv.vmReady {layout : Layout} {s : VmState} (hlayout : layout.Valid) (h : VmInv layout s) :
    VmReady 4096 s.space := by
  refine ⟨⟨h.tidy, fun r hr _ => ⟨h.dvd_lo hlayout hr, ?_⟩⟩, fun q hq hcovered => ?_⟩
  · apply Nat.pos_of_ne_zero
    intro hzero
    have hfirst := covered_of_mem hr (Nat.le_refl _) (h.tidy.lo_lt_hi hr)
    rw [hzero] at hfirst
    exact h.not_covered_zero hlayout _ hfirst
  · exact h.apart q.lo hcovered (covered_of_mem hq (Nat.le_refl _) (h.used.lo_lt_hi hq))

section Pages

variable {s s' : KernelMemory} {vmAddr : Word}

/-- The entry of an address without a translation is not for a page of 4 MB. -/
theorem not_large_of_lookup {p : PagingMemory} {pd x : Word} (h : lookup p pd x = none)
    (hpresent : pagingPdEntryIsPresent (p.page pd (pagingPdEntryIdForAddr x))) :
    p.page pd (pagingPdEntryIdForAddr x) &&& large = 0 := by
  by_contra hlarge
  rw [lookup, if_neg (not_not.mpr hpresent), if_pos hlarge] at h
  cases h

/-- `kmem_frame_alloc` fails when it returns zero, and only then. -/
theorem Starts.kmemFrameAlloc_cases {pm : AllocatorMap} (h : Starts 4096 allocPmNormal pm) :
    kmemFramesAlloc pm 1 = (0, pm) ∨ ∃ frame pm', kmemFramesAlloc pm 1 = (frame, pm') ∧
      BlockTaken 4096 4096 allocPmNormal pm pm' frame :=
  (h.kmemFramesAlloc_cases (by decide) (by decide)).imp_left And.left

/-- What `kmem_page_alloc` does: nothing, or it takes a frame and maps it. -/
theorem kmemPageAlloc_cases {ok : Bool} (hframes : Starts 4096 allocPmNormal s.kernPmAllocMap)
    (h : kmemPageAlloc s vmAddr = some (ok, s')) :
    (ok = false ∧ s' = s ∧ kmemFramesAlloc s.kernPmAllocMap 1 = (0, s.kernPmAllocMap)) ∨
    ∃ frame pm paging, ok = true ∧ kmemFramesAlloc s.kernPmAllocMap 1 = (frame, pm) ∧
      BlockTaken 4096 4096 allocPmNormal s.kernPmAllocMap pm frame ∧
      pagingMap s.paging s.currentPageDir frame pageSize vmAddr (present ||| writable ||| user) =
        some paging ∧
      s' = { s with kernPmAllocMap := pm, paging := paging } := by
  obtain hnone | ⟨frame, pm, hframe, htaken⟩ := hframes.kmemFrameAlloc_cases
  · rw [kmemPageAlloc, hnone] at h
    cases h
    exact Or.inl ⟨rfl, rfl, hnone⟩
  · rw [kmemPageAlloc, hframe] at h
    dsimp only at h
    rw [if_neg htaken.ne_zero] at h
    obtain ⟨paging, hmap, hresult⟩ := Option.map_eq_some_iff.mp h
    cases hresult
    exact Or.inr ⟨frame, pm, paging, rfl, hframe, htaken, hmap, rfl⟩

/-- `kmem_pages_free` unmaps the pages and changes nothing else. -/
theorem kmemPagesFree_unmaps {numPages : ℕ} (hinv : PagingInv s.paging s.currentPageDir)
    (haligned : vmAddr.toNat % 4096 = 0) (hend : vmAddr.toNat + numPages * 4096 ≤ 2 ^ 32)
    (htable : ∀ k < numPages,
      ForTable (s.paging.page s.currentPageDir (pagingPdEntryIdForAddr (pageAt vmAddr k)))) :
    ∃ paging, kmemPagesFree numPages s vmAddr = some { s with paging := paging } ∧
      Unmapped s.paging paging s.currentPageDir vmAddr numPages := by
  induction numPages generalizing s vmAddr with
  | zero => exact ⟨s.paging, rfl, Unmapped.refl s.paging s.currentPageDir vmAddr⟩
  | succ numPages ih =>
    have hfirst : ∀ k < 1,
        ForTable (s.paging.page s.currentPageDir (pagingPdEntryIdForAddr (pageAt vmAddr k))) :=
      fun k hk => htable k (by omega)
    have hone : pageSize.toNat = 1 * 4096 := rfl
    have hfits : vmAddr.toNat + 1 * 4096 ≤ 2 ^ 32 := by
      by_contra hgt
      omega
    obtain ⟨paging, hunmap, hpage⟩ := hinv.pagingUnmap_clears haligned hfits (fun x hlo hhi => by
      obtain ⟨k, hk, hslot, _⟩ := exists_pageAt haligned hlo hhi
      rw [← hslot]
      exact hfirst k hk) hone
    obtain ⟨hnext, hrest⟩ := pageAt_rest haligned hend (Nat.le_add_left 1 numPages)
    obtain ⟨paging', hfree, hpages⟩ := ih (s := { s with paging := paging })
      (hpage.pagingInv hinv) hnext hrest fun k hk => by
        rw [pageAt_pageAt]
        dsimp only
        rw [hpage.directory]
        exact htable (1 + k) (by omega)
    refine ⟨paging', ?_, hpage.trans (Nat.le_add_left 1 numPages) hpages⟩
    rw [kmemPagesFree, kmemPageFree, hunmap, Option.map_some, Option.bind_some]
    exact hfree

/-- What a failed loop of `kmem_pages_alloc` leaves, `i` pages being wired when it starts: the page tables
translate as before the first page, and frames are gone unless the first allocation failed. -/
theorem kmemPagesAllocFrom_fails {p₀ : PagingMemory} {base : Word} {i n : ℕ}
    (haligned : base.toNat % 4096 = 0) (hend : base.toNat + i * 4096 + n * 4096 ≤ 2 ^ 32)
    (huntranslated : ∀ x : Word, base.toNat ≤ x.toNat →
      x.toNat < base.toNat + i * 4096 + n * 4096 → lookup p₀ s.currentPageDir x = none)
    (hwired : Wired p₀ s.paging s.currentPageDir base i)
    (hinv : PagingInv s.paging s.currentPageDir)
    (hframes : Starts 4096 allocPmNormal s.kernPmAllocMap)
    (h : kmemPagesAllocFrom base i n s (pageAt base i) = some (false, s')) :
    ∃ paging pm, s' = { s with paging := paging, kernPmAllocMap := pm } ∧
      (∀ x, lookup paging s.currentPageDir x = lookup p₀ s.currentPageDir x) ∧
      (∀ x c, Covered pm x c → Covered s.kernPmAllocMap x c) ∧
      ((∀ x c, Covered pm x c ↔ Covered s.kernPmAllocMap x c) ↔
        (kmemFramesAlloc s.kernPmAllocMap 1).1 = 0) := by
  induction n generalizing i s with
  | zero => cases h
  | succ n ih =>
    rw [kmemPagesAllocFrom] at h
    obtain ⟨⟨ok, s₁⟩, hpage, hrest⟩ := Option.bind_eq_some_iff.mp h
    dsimp only at hrest
    obtain ⟨rfl, rfl, hnone⟩ | ⟨frame, pm, paging, rfl, hframe, htaken, hmap, rfl⟩ :=
      kmemPageAlloc_cases hframes hpage
    · -- no frame for this page: the pages wired so far are unmapped
      have hfits : base.toNat + i * 4096 ≤ 2 ^ 32 := by omega
      obtain ⟨paging, hfree, hunmapped⟩ := kmemPagesFree_unmaps hinv haligned hfits fun k hk => by
        have haddr : (pageAt base k).toNat = base.toNat + k * 4096 := toNat_pageAt (by omega)
        exact hwired.table _ (by omega) (by omega)
      rw [if_neg Bool.false_ne_true, hfree] at hrest
      cases hrest
      refine ⟨paging, s₁.kernPmAllocMap, rfl, fun x => ?_, fun _ _ hx => hx,
        iff_of_true (fun _ _ => Iff.rfl) (by rw [hnone])⟩
      rw [hwired.lookup_unmapped hinv hunmapped haligned hfits]
      split
      · next hx => exact (huntranslated x hx.1 (by omega)).symm
      · rfl
    · -- the page is wired, and the frame is gone whatever follows
      have haddr : (pageAt base i).toNat = base.toNat + i * 4096 := toNat_pageAt (by omega)
      have hempty : lookup s.paging s.currentPageDir (pageAt base i) = none := by
        rw [hwired.outside _ (by omega)]
        exact huntranslated _ (by omega) (by omega)
      have hsize : pageSize.toNat = 1 * 4096 := rfl
      have hpage : (pageAt base i).toNat % 4096 = 0 := by omega
      obtain ⟨hinv', hone, _, _⟩ := hinv.pagingMap_wires (not_large_of_lookup hempty) hpage Nat.one_pos
        hsize hmap
      rw [firstPages_of_slot hpage (by omega)] at hone
      have hstep : pageAt base i + pageSize = pageAt base (i + 1) := by
        rw [← pageAt_pageAt]
        rfl
      rw [if_pos rfl, hstep] at hrest
      have hnext : base.toNat + (i + 1) * 4096 + n * 4096 ≤ 2 ^ 32 := by
        by_contra hgt
        omega
      obtain ⟨paging', pm', rfl, hlookup, hfewer, _⟩ := ih
        (s := { s with kernPmAllocMap := pm, paging := paging }) hnext
        (fun x hlo hhi => huntranslated x hlo (by by_contra hge; omega))
        (hwired.append (by omega) hone) hinv' htaken.rest hrest
      have hless : ∀ x c, Covered pm' x c → Covered s.kernPmAllocMap x c := fun x c hx =>
        ((htaken.covered x c).mp (hfewer x c hx)).1
      refine ⟨paging', pm', rfl, hlookup, hless, iff_of_false (fun hsame => ?_) ?_⟩
      · have hfree := htaken.free frame.toNat (Nat.le_refl _) (by omega)
        have hgone := ((htaken.covered _ _).mp (hfewer _ _ ((hsame _ _).mpr hfree))).2
        exact hgone ⟨Nat.le_refl _, by omega⟩
      · rw [hframe]
        exact htaken.ne_zero

end Pages

/-- What `kmem_alloc` does when it returns null: nothing, or it takes address space, fails to wire a page
and gives the space back. -/
theorem kmemAlloc_zero_cases {s s' : KernelMemory} {size : Word} {pages : ℕ} (hready : KmemReady s)
    (hpages : (pageAlign size).toNat = pages * 4096) (h : kmemAlloc s size = some (0, s')) :
    (s' = s ∧ (kmemVmAlloc s.kernVmSpace (pageAlign size)).1 = 0) ∨
    ∃ w space s₁, kmemVmAlloc s.kernVmSpace (pageAlign size) = (w, space) ∧
      Window 4096 (pageAlign size) s.kernVmSpace space w ∧
      kmemPagesAllocFrom w 0 pages { s with kernVmSpace := space } w = some (false, s₁) ∧
      ∃ space', kmemVmFree s₁.kernVmSpace w = some space' ∧ s' = { s₁ with kernVmSpace := space' } := by
  by_cases hvm : (kmemVmAlloc s.kernVmSpace (pageAlign size)).1 = 0
  · rw [kmemAlloc, hready.vm.kmemVmAlloc_zero (by decide) hvm] at h
    cases h
    exact Or.inl ⟨rfl, hvm⟩
  · obtain ⟨w, space, halloc⟩ : ∃ w space, kmemVmAlloc s.kernVmSpace (pageAlign size) = (w, space) :=
      ⟨_, _, rfl⟩
    rw [halloc] at hvm
    rw [kmemAlloc, halloc] at h
    dsimp only at h hvm
    rw [if_neg hvm, kmemPagesAlloc, toNat_div_pageSize hpages] at h
    obtain ⟨⟨ok, s₁⟩, hwire, hrest⟩ := Option.bind_eq_some_iff.mp h
    dsimp only at hrest
    cases ok with
    | true =>
      rw [if_pos rfl, Option.some.injEq, Prod.mk.injEq] at hrest
      exact absurd hrest.1 hvm
    | false =>
      rw [if_neg Bool.false_ne_true] at hrest
      obtain ⟨space', hfree, hresult⟩ := Option.map_eq_some_iff.mp hrest
      cases hresult
      have hpos : 0 < pages := by
        apply Nat.pos_of_ne_zero
        rintro rfl
        cases hwire
      obtain ⟨hnone, _⟩ | ⟨w', space₁, halloc', hwin⟩ := hready.vm.kmemVmAlloc_cases (by decide)
        (show 0 < (pageAlign size).toNat by omega) ⟨pages, by rw [hpages, Nat.mul_comm]⟩
      · rw [halloc] at hnone
        cases hnone
        exact absurd rfl hvm
      · rw [halloc] at halloc'
        cases halloc'
        exact Or.inr ⟨w, space, s₁, halloc, hwin, hwire, space', hfree, rfl⟩

/-- When `kmem_alloc` returns null, the maps of the kernel's address space and every translation are as
before the call. The physical map covers what it covered exactly if no page was wired: if there was
no address space, or no frame for the first page. -/
theorem kmemAlloc_failure_traceless_iff {s s' : KernelMemory} {size : Word} (hready : KmemReady s)
    (h : kmemAlloc s size = some (0, s')) :
    s'.kernVmSpace = s.kernVmSpace ∧ s'.currentPageDir = s.currentPageDir ∧
      (∀ x, lookup s'.paging s'.currentPageDir x = lookup s.paging s.currentPageDir x) ∧
      ((∀ x c, Covered s'.kernPmAllocMap x c ↔ Covered s.kernPmAllocMap x c) ↔
        (kmemVmAlloc s.kernVmSpace (pageAlign size)).1 = 0 ∨
          (kmemFramesAlloc s.kernPmAllocMap 1).1 = 0) := by
  obtain ⟨pages, hpages⟩ : ∃ pages, (pageAlign size).toNat = pages * 4096 :=
    ⟨_, toNat_pageAlign size⟩
  obtain ⟨rfl, hnone⟩ | ⟨w, space, s₁, halloc, hwin, hwire, space', hfree, rfl⟩ :=
    kmemAlloc_zero_cases hready hpages h
  · exact ⟨rfl, rfl, fun _ => rfl, iff_of_true (fun _ _ => Iff.rfl) (Or.inl hnone)⟩
  · have htaken := hwin.taken
    rw [hpages] at htaken
    have hself : w = pageAt w 0 := by simp [pageAt]
    have hzero : w.toNat + 0 * 4096 + pages * 4096 = w.toNat + pages * 4096 := by omega
    have hwire' : kmemPagesAllocFrom w 0 pages { s with kernVmSpace := space } (pageAt w 0) =
        some (false, s₁) := by
      rw [← hself]
      exact hwire
    obtain ⟨paging, pm, rfl, hlookup, _, hsame⟩ := kmemPagesAllocFrom_fails
      (s := { s with kernVmSpace := space }) (Nat.mod_eq_zero_of_dvd htaken.aligned)
      (hzero ▸ htaken.fits)
      (fun x hlo hhi => hready.untranslated x (htaken.free x.toNat hlo (hzero ▸ hhi)))
      (Wired.refl s.paging s.currentPageDir w) hready.paging hready.frames hwire'
    rw [hwin.free] at hfree
    cases hfree
    refine ⟨rfl, rfl, hlookup, hsame.trans ?_⟩
    rw [halloc]
    exact (or_iff_right hwin.ne_zero).symm

/-- Ten pages of free address space, an empty page directory and the given free frames. -/
def tenPages (frames : AllocatorMap) : KernelMemory where
  paging := emptyPaging
  currentPageDir := 0xC0101000
  kernVmSpace := ⟨[], [⟨⟨0xC0400000, 0xA000⟩, allocVmKernel⟩]⟩
  kernPmAllocMap := frames

theorem tenPages_ready {frames : AllocatorMap} (h : Starts 4096 allocPmNormal frames) :
    KmemReady (tenPages frames) where
  vm :=
    { starts := Starts.singleton (by decide) (by decide) (by decide) (by decide)
      unused := fun r hr => by cases hr }
  frames := h
  paging :=
    { own := emptyPaging_ownPage
      noShared := fun i _ hi => absurd hi.1 (emptyPaging_not_present _ i)
      found := fun i hi => absurd hi.1 (emptyPaging_not_present _ i)
      fresh := fun pt hpt => by
        obtain rfl : pt = 0xC0100000 := List.mem_singleton.mp hpt
        exact emptyPaging_freshPage
      nodup := List.nodup_singleton _ }
  untranslated := fun x _ => if_pos (emptyPaging_not_present _ _)

/-- Without a frame for the first page. -/
theorem kmemAlloc_failure_traceless_empty :
    ∃ s', kmemAlloc (tenPages []) 0x2000 = some (0, s') ∧
      s'.kernVmSpace = (tenPages []).kernVmSpace ∧
      ∀ x c, Covered s'.kernPmAllocMap x c ↔ Covered (tenPages []).kernPmAllocMap x c := by
  obtain ⟨s', hs'⟩ : ∃ s', kmemAlloc (tenPages []) 0x2000 = some (0, s') := ⟨_, rfl⟩
  have hnone : Starts 4096 allocPmNormal [] := ⟨⟨⟨by simp, by simp⟩, by simp⟩, by simp⟩
  obtain ⟨hspace, _, _, hframes⟩ := kmemAlloc_failure_traceless_iff (tenPages_ready hnone) hs'
  exact ⟨s', hs', hspace, hframes.mpr (Or.inr rfl)⟩

/-- With one frame for two pages, the frame is lost. -/
theorem kmemAlloc_failure_loses_frame :
    KmemReady (tenPages [⟨⟨0x200000, 0x1000⟩, allocPmNormal⟩]) ∧
    ∃ s', kmemAlloc (tenPages [⟨⟨0x200000, 0x1000⟩, allocPmNormal⟩]) 0x2000 = some (0, s') ∧
      s'.kernPmAllocMap = [] := by
  have hframe : Starts 4096 allocPmNormal [⟨⟨0x200000, 0x1000⟩, allocPmNormal⟩] :=
    Starts.singleton (by decide) (by decide) (by decide) (by decide)
  exact ⟨tenPages_ready hframe, _, rfl, rfl⟩

end ChrisOS.Mm
