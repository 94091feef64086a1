import ChrisOS.Mm.FramesClone
import ChrisOS.Mm.KmemAlloc

/-!
# What `kmem_frames_clone` takes and gives back

Copying frames takes the new frames, then address space and page-table entries for two temporary mappings.
The mappings are removed on every path, and the frames are kept only if the copy was made. A mapping that
does not fall under one directory entry is made for its first part only, since `paging_map` uses the table
of its first page; the copy then faults before it has written anything.

Where the frames cannot be had, the clean-up runs on two locals that have not been initialised. It
does no harm if neither happens to be the start of a region in use; otherwise that region is unmapped and
freed under its user.
-/

namespace ChrisOS.Mm

open ChrisOS.Utils ChrisOS.Lib ChrisOS.Ia32

/-- Memory management as copying frames needs it: as for any allocation, and no free frame holds the page
directory, one of its tables or a page for a new one. -/
structure CloneSound (s : KernelMemory) : Prop extends KmemReady s where
  apart : ∀ x : Word, Covered s.kernPmAllocMap x.toNat allocPmNormal →
    ¬ InUse s.paging s.currentPageDir (pageOf x)

/-- A mapping of `n` pages at an address falls under one directory entry. -/
def OneTable (w n : ℕ) : Prop := w % 4194304 + n * 4096 ≤ 4194304

/-- The lowest free block of `n` pages of address space falls under one directory entry, and so does the
lowest one behind it. -/
def WindowsFit (s : KernelMemory) (n : ℕ) : Prop :=
  ∀ a, IsLeast {a | FreeBlock s.kernVmSpace.vmAllocMap allocVmKernel (n * 4096) a} a → OneTable a n ∧
    ∀ b, IsLeast {b | FreeBlock s.kernVmSpace.vmAllocMap allocVmKernel (n * 4096) b ∧ a + n * 4096 ≤ b} b →
      OneTable b n

/-- There is room for two mappings of `n` pages. -/
def TwoBlocks (s : KernelMemory) (n : ℕ) : Prop :=
  ∃ a b, FreeBlock s.kernVmSpace.vmAllocMap allocVmKernel (n * 4096) a ∧
    FreeBlock s.kernVmSpace.vmAllocMap allocVmKernel (n * 4096) b ∧ a + n * 4096 ≤ b

/-- No region in use starts where one of the locals points to, unless that is zero. -/
def LocalsUnused (s : KernelMemory) (locals : Word × Word) : Prop :=
  ∀ l, l = locals.1 ∨ l = locals.2 → l ≠ 0 → ∀ r ∈ s.kernVmSpace.vmMap, r.address ≠ l

/-- Where the source lies ahead in the block at `dest` its bytes repeat, so that they are the same when they
are read. -/
def Repeats (s : KernelMemory) (src dest : Word) (n : ℕ) : Prop :=
  ∀ k, k + (src - dest).toNat < 4096 * n → s.paging.bytes (src + BitVec.ofNat 32 k) =
    s.paging.bytes (src + BitVec.ofNat 32 (k + (src - dest).toNat))

/-- Page tables can be had for mappings in free address space: an absent entry there is empty, and there are
`k` pages for new tables. -/
def TablesAtHand (s : KernelMemory) (k : ℕ) : Prop :=
  ∀ x : Word, Covered s.kernVmSpace.vmAllocMap x.toNat allocVmKernel →
    ¬ pagingPdEntryIsPresent (s.paging.page s.currentPageDir (pagingPdEntryIdForAddr x)) →
      pagingPtForPdEntry (s.paging.page s.currentPageDir (pagingPdEntryIdForAddr x)) = 0 ∧
        k ≤ s.paging.staticPages.length

/-- Free address space lies under page tables, and their entries for it are empty. -/
def TablesEmpty (s : KernelMemory) : Prop :=
  ∀ x : Word, Covered s.kernVmSpace.vmAllocMap x.toNat allocVmKernel →
    ForTable (s.paging.page s.currentPageDir (pagingPdEntryIdForAddr x)) ∧
      s.paging.page (walkedTable s.paging s.currentPageDir x) (pagingPtEntryIdForAddr x) = 0

/-- The bytes of fewer than `2 ^ 20` pages. -/
theorem toNat_mul_pageSize {n : Word} (h : n.toNat < 2 ^ 20) :
    (n * pageSize).toNat = n.toNat * 4096 := by
  rw [BitVec.mul_comm, toNat_pageSize_mul h, Nat.mul_comm]

section Map

variable {s s' : KernelMemory} {base w n : Word}

/-- `n` pages of physical memory from `base` on have been mapped at `w`, as far as they are under one
directory entry. -/
structure PagesMapped (s : KernelMemory) (paging : PagingMemory) (space : VmSpace) (base w n : Word) :
    Prop where
  window : Window 4096 (n * pageSize) s.kernVmSpace space w
  aligned : w.toNat % 4096 = 0
  fits : w.toNat + n.toNat * 4096 ≤ 2 ^ 32
  taken : BlockTaken 4096 (n.toNat * 4096) allocVmKernel s.kernVmSpace.vmAllocMap space.vmAllocMap w
  inv : PagingInv paging s.currentPageDir
  wired : Wired s.paging paging s.currentPageDir w (firstPages w n.toNat)
  maps : MapsTo paging s.currentPageDir w base (present ||| writable ||| user) (firstPages w n.toNat)
  supply : s.paging.staticPages.length ≤ paging.staticPages.length + 1
  entries : ForTable (s.paging.page s.currentPageDir (pagingPdEntryIdForAddr w)) →
    SameEntries s.paging paging s.currentPageDir
      {x | ¬ (w.toNat ≤ x.toNat ∧ x.toNat < w.toNat + n.toNat * 4096)}

section Ready

variable (hready : KmemReady s) (hpos : 0 < n.toNat) (hnum : n.toNat < 2 ^ 20)

include hready hpos hnum

/-- `kmem_vm_alloc` of whole pages changes nothing or opens a window. -/
theorem KmemReady.kmemVmAlloc_pages :
    (kmemVmAlloc s.kernVmSpace (n * pageSize) = (0, s.kernVmSpace) ∧
        ∀ b, ¬ FreeBlock s.kernVmSpace.vmAllocMap allocVmKernel (n.toNat * 4096) b) ∨
      ∃ w space, kmemVmAlloc s.kernVmSpace (n * pageSize) = (w, space) ∧
        Window 4096 (n * pageSize) s.kernVmSpace space w := by
  have hbytes := toNat_mul_pageSize hnum
  rw [← hbytes]
  exact hready.vm.kmemVmAlloc_cases (by decide) (by omega) ⟨n.toNat, by rw [hbytes, Nat.mul_comm]⟩

/-- What `kmem_pages_map` does: nothing, or it maps the pages. -/
theorem KmemReady.kmemPagesMap_cases (h : kmemPagesMap s base n = some (w, s')) :
    (w = 0 ∧ s' = s ∧
        ∀ b, ¬ FreeBlock s.kernVmSpace.vmAllocMap allocVmKernel (n.toNat * 4096) b) ∨
    ∃ paging space, PagesMapped s paging space base w n ∧
      s' = { s with paging := paging, kernVmSpace := space } := by
  have hbytes := toNat_mul_pageSize hnum
  obtain ⟨hnone, hfull⟩ | ⟨w', space, halloc, hwin⟩ := hready.kmemVmAlloc_pages hpos hnum
  · rw [kmemPagesMap, hnone] at h
    cases h
    exact Or.inl ⟨rfl, rfl, hfull⟩
  · rw [kmemPagesMap, halloc] at h
    dsimp only at h
    rw [if_neg hwin.ne_zero] at h
    obtain ⟨paging, hmap, hresult⟩ := Option.map_eq_some_iff.mp h
    cases hresult
    have htaken := hwin.taken
    rw [hbytes] at htaken
    have haligned := Nat.mod_eq_zero_of_dvd htaken.aligned
    have hempty := hready.untranslated w (htaken.free w.toNat (Nat.le_refl _) (by omega))
    obtain ⟨hinv, hwired, hmaps, hsupply⟩ := hready.paging.pagingMap_wires
      (not_large_of_lookup hempty) haligned hpos hbytes hmap
    exact Or.inr ⟨paging, space,
      ⟨hwin, haligned, htaken.fits, htaken, hinv, hwired, hmaps, hsupply, fun hentry =>
        hready.paging.pagingMap_sameEntries hentry haligned hpos hbytes hmap⟩, rfl⟩

/-- `kmem_pages_map` returns if a table can be had. -/
theorem KmemReady.kmemPagesMap_returns {k : ℕ} (htables : TablesAtHand s (k + 1)) (base : Word) :
    ∃ r, kmemPagesMap s base n = some r := by
  have hbytes := toNat_mul_pageSize hnum
  rw [kmemPagesMap]
  obtain ⟨hnone, _⟩ | ⟨w, space, halloc, hwin⟩ := hready.kmemVmAlloc_pages hpos hnum
  · rw [hnone]
    exact ⟨_, rfl⟩
  · have hfree := hwin.taken.free w.toNat (Nat.le_refl _) (by omega)
    obtain ⟨paging, hmap⟩ := hready.paging.pagingMap_isSome
      (not_large_of_lookup (hready.untranslated w hfree))
      (fun habsent => ⟨(htables w hfree habsent).1, List.ne_nil_of_length_pos
        (Nat.lt_of_lt_of_le (Nat.succ_pos k) (htables w hfree habsent).2)⟩)
      hpos hbytes (Nat.mod_eq_zero_of_dvd hwin.taken.aligned) base (present ||| writable ||| user)
    rw [halloc]
    dsimp only
    rw [if_neg hwin.ne_zero, hmap]
    exact ⟨_, rfl⟩

end Ready

section Mapped

variable {paging : PagingMemory} {space : VmSpace}

/-- Mapping pages has nothing to do with the frames that are free. -/
theorem PagesMapped.frames (h : PagesMapped s paging space base w n) (pm : AllocatorMap) :
    PagesMapped { s with kernPmAllocMap := pm } paging space base w n :=
  ⟨h.window, h.aligned, h.fits, h.taken, h.inv, h.wired, h.maps, h.supply, h.entries⟩

/-- Only addresses of the window translate otherwise than before. -/
theorem PagesMapped.lookup_outside (h : PagesMapped s paging space base w n) {x : Word}
    (hx : ¬ (w.toNat ≤ x.toNat ∧ x.toNat < w.toNat + n.toNat * 4096)) :
    lookup paging s.currentPageDir x = lookup s.paging s.currentPageDir x := by
  have hle : firstPages w n.toNat ≤ n.toNat := Nat.min_le_left _ _
  exact h.wired.outside x (by omega)

/-- One page for a table less. -/
theorem PagesMapped.tablesAtHand {k : ℕ} (h : PagesMapped s paging space base w n)
    (htables : TablesAtHand s (k + 1)) :
    TablesAtHand { s with paging := paging, kernVmSpace := space } k := by
  intro x hx habsent
  dsimp only at hx habsent ⊢
  obtain hsame | ⟨_, htable⟩ := h.wired.entries (pagingPdEntryIdForAddr x)
  · rw [hsame] at habsent ⊢
    obtain ⟨hnull, hpages⟩ := htables x ((h.taken.covered _ _).mp hx).1 habsent
    have := h.supply
    exact ⟨hnull, by omega⟩
  · exact absurd htable.1 habsent

/-- The rest of memory management is as sound as before while pages are mapped. -/
theorem PagesMapped.cloneSound (h : PagesMapped s paging space base w n) (hsound : CloneSound s) :
    CloneSound { s with paging := paging, kernVmSpace := space } where
  vm := h.window.vmReady hsound.vm
  frames := hsound.frames
  paging := h.inv
  untranslated := fun x hx => by
    obtain ⟨hfree, hout⟩ := (h.taken.covered _ _).mp hx
    exact (h.lookup_outside hout).trans (hsound.untranslated x hfree)
  apart := fun x hx hin => hsound.apart x hx (h.wired.inUse _ hin)

end Mapped

section Unmap

variable (hinv : PagingInv s.paging s.currentPageDir) (hnum : n.toNat < 2 ^ 20)
  (haligned : w.toNat % 4096 = 0) (hfits : w.toNat + n.toNat * 4096 ≤ 2 ^ 32)
  (hsize : kmemVmGetSize s.kernVmSpace w = some (n * pageSize))

include hinv hnum haligned hfits hsize

/-- `kmem_pages_unmap` of pages whose directory entries are for tables. -/
theorem kmemPagesUnmap_unmaps {space : VmSpace}
    (htable : ∀ x : Word, w.toNat ≤ x.toNat → x.toNat < w.toNat + n.toNat * 4096 →
      ForTable (s.paging.page s.currentPageDir (pagingPdEntryIdForAddr x)))
    (hfree : kmemVmFree s.kernVmSpace w = some space) :
    ∃ paging, kmemPagesUnmap s w = some (true, { s with paging := paging, kernVmSpace := space }) ∧
      Unmapped s.paging paging s.currentPageDir w n.toNat := by
  obtain ⟨paging, hunmap, hunmapped⟩ :=
    hinv.pagingUnmap_clears haligned hfits htable (toNat_mul_pageSize hnum)
  refine ⟨paging, ?_, hunmapped⟩
  rw [kmemPagesUnmap, hsize]
  dsimp only
  rw [hunmap, Option.bind_some, hfree, Option.map_some]

/-- `kmem_pages_unmap` returns only if the directory entries of the pages are for tables. -/
theorem forTable_of_kmemPagesUnmap {r : Bool × KernelMemory}
    (hsmall : ∀ x : Word, w.toNat ≤ x.toNat → x.toNat < w.toNat + n.toNat * 4096 →
      pagingPdEntryIsPresent (s.paging.page s.currentPageDir (pagingPdEntryIdForAddr x)) →
        s.paging.page s.currentPageDir (pagingPdEntryIdForAddr x) &&& large = 0)
    (h : kmemPagesUnmap s w = some r) (x : Word) (hlo : w.toNat ≤ x.toNat)
    (hhi : x.toNat < w.toNat + n.toNat * 4096) :
    ForTable (s.paging.page s.currentPageDir (pagingPdEntryIdForAddr x)) := by
  have hbytes := toNat_mul_pageSize hnum
  rw [kmemPagesUnmap, hsize] at h
  obtain ⟨paging, hunmap, _⟩ := Option.bind_eq_some_iff.mp h
  rw [pagingUnmap, if_neg (aligned_of_pages haligned (by omega)), toNat_div_pageSize hbytes] at hunmap
  have hpresent := pagingUnmapLoop_present haligned hfits (fun k hk hpage => by
    have haddr : (pageAt w k).toNat = w.toNat + k * 4096 := toNat_pageAt (by omega)
    have hfor : ForTable (s.paging.page s.currentPageDir (pagingPdEntryIdForAddr (pageAt w k))) :=
      ⟨hpage, hsmall _ (by omega) (by omega) hpage⟩
    rw [← walkedTable_eq_tableOf (hinv.found _ hfor)]
    exact hinv.own.unnamed _ hfor) hunmap
  obtain ⟨k, hk, hslot, _⟩ := exists_pageAt haligned hlo hhi
  have hpage := hpresent k hk
  rw [hslot] at hpage
  exact ⟨hpage, hsmall x hlo hhi hpage⟩

end Unmap

end Map

/-- The mappings have been removed again: every address translates as in `s`, and memory that is not in use
for page tables holds the bytes of `m`. -/
structure Undone (s : KernelMemory) (paging : PagingMemory) (m : ByteMem 32) : Prop where
  lookup : ∀ x, lookup paging s.currentPageDir x = lookup s.paging s.currentPageDir x
  bytes : ∀ a, ¬ InUse s.paging s.currentPageDir (pageOf a) → paging.bytes a = m a

section Paths

variable {s s' : KernelMemory} {src n dest : Word}

/-- Giving the frames back on an error. -/
theorem framesCloneErrCleanup_eq {pm : AllocatorMap} (hframes : Starts 4096 allocPmNormal pm)
    (hpos : 0 < n.toNat) (hnum : n.toNat < 2 ^ 20)
    (htaken : BlockTaken 4096 (4096 * n.toNat) allocPmNormal pm s.kernPmAllocMap dest)
    (srcVm destVm : Word) :
    framesCloneErrCleanup s n dest srcVm destVm =
      framesCloneCleanup { s with kernPmAllocMap := pm } 0 srcVm destVm := by
  have hbytes := toNat_pageSize_mul hnum
  rw [← hbytes] at htaken
  have hback : kmemFramesFree s.kernPmAllocMap dest n = pm :=
    htaken.free_self hframes.tidy (by omega)
  rw [framesCloneErrCleanup, if_pos htaken.ne_zero, hback]

variable {paging : PagingMemory} {space : VmSpace} {base w : Word}

/-- Only the source could be mapped: its mapping is removed. -/
theorem PagesMapped.cleanup_one (h : PagesMapped s paging space base w n) (hready : KmemReady s)
    (hnum : n.toNat < 2 ^ 20)
    (htable : ∀ x : Word, w.toNat ≤ x.toNat → x.toNat < w.toNat + n.toNat * 4096 →
      ForTable (paging.page s.currentPageDir (pagingPdEntryIdForAddr x))) (result : Word) :
    ∃ paging', framesCloneCleanup { s with paging := paging, kernVmSpace := space } result w 0 =
        some (result, { s with paging := paging' }) ∧ Undone s paging' s.paging.bytes := by
  obtain ⟨paging', hunmap, hunmapped⟩ := kmemPagesUnmap_unmaps
    (s := { s with paging := paging, kernVmSpace := space }) h.inv hnum h.aligned h.fits
    h.window.getSize htable h.window.free
  refine ⟨paging', ?_, fun x => ?_, fun a ha => ?_⟩
  · rw [framesCloneCleanup, if_pos h.window.ne_zero, hunmap, Option.map_some, Option.bind_some,
      if_neg (not_not.mpr rfl)]
    rfl
  · rw [hunmapped.lookup_of_inv h.aligned h.fits htable h.inv]
    split
    · next hx => exact (hready.untranslated x (h.taken.free _ hx.1 hx.2)).symm
    · next hx => exact h.lookup_outside hx
  · apply bytes_of_page
    rw [hunmapped.unused h.aligned h.fits htable h.inv fun hin => ha (h.wired.inUse _ hin)]
    exact h.wired.unused _ ha

/-- The clean-up after the source only returns if the whole mapping has tables. -/
theorem PagesMapped.forTable_of_cleanup {result : Word} {r : Word × KernelMemory}
    (h : PagesMapped s paging space base w n) (hready : KmemReady s)
    (hnum : n.toNat < 2 ^ 20)
    (hclean : framesCloneCleanup { s with paging := paging, kernVmSpace := space } result w 0 = some r)
    (x : Word) (hlo : w.toNat ≤ x.toNat) (hhi : x.toNat < w.toNat + n.toNat * 4096) :
    ForTable (paging.page s.currentPageDir (pagingPdEntryIdForAddr x)) := by
  rw [framesCloneCleanup, if_pos h.window.ne_zero] at hclean
  obtain ⟨_, hfirst, _⟩ := Option.bind_eq_some_iff.mp hclean
  obtain ⟨_, hunmap, _⟩ := Option.map_eq_some_iff.mp hfirst
  refine forTable_of_kmemPagesUnmap (s := { s with paging := paging, kernVmSpace := space }) h.inv hnum
    h.aligned h.fits h.window.getSize (fun y hlo hhi hpresent => ?_) hunmap x hlo hhi
  dsimp only at hpresent ⊢
  obtain hsame | ⟨_, htable⟩ := h.wired.entries (pagingPdEntryIdForAddr y)
  · rw [hsame] at hpresent ⊢
    exact not_large_of_lookup (hready.untranslated y (h.taken.free _ hlo hhi)) hpresent
  · exact htable.2

section Both

variable {paging₁ paging₂ : PagingMemory} {space₁ space₂ : VmSpace} {w₁ w₂ : Word}

/-- The second mapping is higher than the first. -/
theorem PagesMapped.src_lt (h₁ : PagesMapped s paging₁ space₁ src w₁ n)
    (h₂ : PagesMapped { s with paging := paging₁, kernVmSpace := space₁ } paging₂ space₂ dest w₂ n)
    (hnum : n.toNat < 2 ^ 20) : w₁.toNat + n.toNat * 4096 ≤ w₂.toNat := by
  have hlt := h₁.window.src_lt h₂.window
  rw [toNat_mul_pageSize hnum] at hlt
  exact hlt

/-- The copy faults unless both mappings are complete. -/
theorem PagesMapped.complete_of_memcpy (h₁ : PagesMapped s paging₁ space₁ src w₁ n)
    (h₂ : PagesMapped { s with paging := paging₁, kernVmSpace := space₁ } paging₂ space₂ dest w₂ n)
    (hready : KmemReady s) (hpos : 0 < n.toNat) (hnum : n.toNat < 2 ^ 20)
    (hcopy : ({ s with paging := paging₂, kernVmSpace := space₂ } : KernelMemory).memcpy w₂ w₁
      (pageSize * n) = some s') :
    firstPages w₁ n.toNat = n.toNat ∧ firstPages w₂ n.toNat = n.toNat := by
  have hlt := h₁.src_lt h₂ hnum
  have hlen := toNat_pageSize_mul hnum
  have hfits₁ := h₁.fits
  have hfits₂ := h₂.fits
  obtain ⟨hsrc, hdest⟩ := lookup_of_memcpy (BitVec.le_def.mpr (by omega : w₁.toNat ≤ w₂.toNat))
    (by omega) hcopy
  rw [hlen] at hsrc hdest
  dsimp only at hsrc hdest
  have haddr₁ : (w₁ + BitVec.ofNat 32 (4096 * n.toNat - 1)).toNat = w₁.toNat + (4096 * n.toNat - 1) :=
    toNat_add_ofNat (by omega)
  have haddr₂ : (w₂ + BitVec.ofNat 32 (4096 * n.toNat - 1)).toNat = w₂.toNat + (4096 * n.toNat - 1) :=
    toNat_add_ofNat (by omega)
  have hle₁ : firstPages w₁ n.toNat ≤ n.toNat := Nat.min_le_left _ _
  have hle₂ : firstPages w₂ n.toNat ≤ n.toNat := Nat.min_le_left _ _
  constructor
  · by_contra hne
    refine hsrc ((h₂.lookup_outside (by omega)).trans ((h₁.wired.outside _ (by omega)).trans ?_))
    exact hready.untranslated _ (h₁.taken.free _ (by omega) (by omega))
  · by_contra hne
    refine hdest ((h₂.wired.outside _ (by omega)).trans ((h₁.lookup_outside (by omega)).trans ?_))
    exact hready.untranslated _ ((h₁.taken.covered _ _).mp (h₂.taken.free _ (by omega) (by omega))).1

section Complete

variable (h₁ : PagesMapped s paging₁ space₁ src w₁ n)
  (h₂ : PagesMapped { s with paging := paging₁, kernVmSpace := space₁ } paging₂ space₂ dest w₂ n)
  (hnum : n.toNat < 2 ^ 20) (hall₁ : firstPages w₁ n.toNat = n.toNat)
  (hall₂ : firstPages w₂ n.toNat = n.toNat)

include h₁ h₂ hnum hall₁ hall₂

/-- With both mapped, the copy goes from frame to frame. -/
theorem PagesMapped.memcpy_both (hsrc : src.toNat % 4096 = 0)
    (hsfits : src.toNat + n.toNat * 4096 ≤ 2 ^ 32) (hdest : dest.toNat % 4096 = 0)
    (hdfits : dest.toNat + n.toNat * 4096 ≤ 2 ^ 32)
    (hfree : ∀ i < 4096 * n.toNat,
      ¬ InUse s.paging s.currentPageDir (pageOf (dest + BitVec.ofNat 32 i))) :
    ∃ copied, ({ s with paging := paging₂, kernVmSpace := space₂ } : KernelMemory).memcpy w₂ w₁
        (pageSize * n) = some { s with paging := copied, kernVmSpace := space₂ } ∧
      CopiedTo { s with paging := paging₂, kernVmSpace := space₂ } copied dest src
        (4096 * n.toNat) := by
  have hlt := h₁.src_lt h₂ hnum
  have hlen := toNat_pageSize_mul hnum
  have hmaps₁ := h₁.maps
  have hmaps₂ := h₂.maps
  rw [hall₁] at hmaps₁
  rw [hall₂] at hmaps₂
  have hmaps₁' : MapsTo paging₂ s.currentPageDir w₁ src (present ||| writable ||| user) n.toNat :=
    fun x hlo hhi => (h₂.lookup_outside (by omega)).trans (hmaps₁ x hlo hhi)
  have hcopy := memcpy_higher (s := { s with paging := paging₂, kernVmSpace := space₂ })
    (b := src) (d := dest) (pageSize * n) (BitVec.le_def.mpr (by omega : w₁.toNat ≤ w₂.toNat))
    (fun i hi => MapsTo.physical hmaps₁' h₁.aligned h₁.fits hsrc hsfits (by omega))
    (fun i hi => MapsTo.physical hmaps₂ h₂.aligned h₂.fits hdest hdfits (by omega))
    (fun i hi hin => hfree i (by omega) (h₁.wired.inUse _ (h₂.wired.inUse _ hin)))
  rw [hlen] at hcopy
  exact hcopy

section Copied

variable {copied : PagingMemory} {k : ℕ}
  (hcopied : CopiedTo { s with paging := paging₂, kernVmSpace := space₂ } copied dest src k)

include hcopied

omit hnum in
/-- After the copy the directory is as sound as before, and both mappings have their tables. -/
theorem PagesMapped.tables_copied : PagingInv copied s.currentPageDir ∧
    (∀ x : Word, w₁.toNat ≤ x.toNat → x.toNat < w₁.toNat + n.toNat * 4096 →
      ForTable (copied.page s.currentPageDir (pagingPdEntryIdForAddr x))) ∧
    ∀ x : Word, w₂.toNat ≤ x.toNat → x.toNat < w₂.toNat + n.toNat * 4096 →
      ForTable (copied.page s.currentPageDir (pagingPdEntryIdForAddr x)) := by
  have hdirectory : copied.page s.currentPageDir = paging₂.page s.currentPageDir :=
    hcopied.inUse _ (Or.inl rfl)
  rw [hdirectory]
  refine ⟨h₂.inv.congr hdirectory hcopied.staticPages, fun x hlo hhi => ?_, fun x hlo hhi =>
    h₂.wired.table x hlo (by rw [hall₂]; exact hhi)⟩
  have hentry := h₁.wired.table x hlo (by rw [hall₁]; exact hhi)
  rw [h₂.wired.kept hentry]
  exact hentry

/-- Removing both mappings restores the address space. -/
theorem PagesMapped.cleanup_both (result : Word) :
    ∃ paging₃ paging₄, framesCloneCleanup { s with paging := copied, kernVmSpace := space₂ } result w₁ w₂ =
        some (result, { s with paging := paging₄ }) ∧
      Unmapped copied paging₃ s.currentPageDir w₁ n.toNat ∧
      Unmapped paging₃ paging₄ s.currentPageDir w₂ n.toNat := by
  obtain ⟨hinv, htable₁, htable₂⟩ := h₁.tables_copied h₂ hall₁ hall₂ hcopied
  let mapped : KernelMemory := { s with paging := copied, kernVmSpace := space₂ }
  obtain ⟨paging₃, hunmap₁, hunmapped₁⟩ := kmemPagesUnmap_unmaps (s := mapped) hinv hnum h₁.aligned
    h₁.fits (h₁.window.getSize_src h₂.window) htable₁ (h₁.window.free_src h₂.window)
  let second : KernelMemory := { mapped with
    paging := paging₃, kernVmSpace := s.kernVmSpace.secondOnly space₂ (n * pageSize) w₁ w₂ }
  rw [← show paging₃.page _ = copied.page _ from hunmapped₁.directory] at htable₂
  obtain ⟨paging₄, hunmap₂, hunmapped₂⟩ := kmemPagesUnmap_unmaps (s := second)
    (hunmapped₁.pagingInv hinv) hnum h₂.aligned h₂.fits (h₁.window.getSize_dest h₂.window) htable₂
    (h₁.window.free_dest h₂.window)
  refine ⟨paging₃, paging₄, ?_, hunmapped₁, hunmapped₂⟩
  rw [framesCloneCleanup, if_pos h₁.window.ne_zero, hunmap₁, Option.map_some, Option.bind_some,
    if_pos h₂.window.ne_zero, hunmap₂, Option.map_some, Option.map_some]

variable {paging₃ paging₄ : PagingMemory}
  (hunmapped₁ : Unmapped copied paging₃ s.currentPageDir w₁ n.toNat)
  (hunmapped₂ : Unmapped paging₃ paging₄ s.currentPageDir w₂ n.toNat)

include hunmapped₁ hunmapped₂

omit hnum in
/-- With both mappings removed the translations are as before. -/
theorem PagesMapped.undone_both (hready : KmemReady s) : Undone s paging₄ copied.bytes := by
  obtain ⟨hinv, htable₁, htable₂⟩ := h₁.tables_copied h₂ hall₁ hall₂ hcopied
  rw [← hunmapped₁.directory] at htable₂
  have hinv₃ := hunmapped₁.pagingInv hinv
  -- no page has come into use on the way
  have huse₂ : ∀ q, InUse copied s.currentPageDir q → InUse s.paging s.currentPageDir q := fun q hq =>
    h₁.wired.inUse q (h₂.wired.inUse q
      ((inUse_congr (hcopied.inUse _ (Or.inl rfl)) hcopied.staticPages q).mp hq))
  have huse₃ : ∀ q, InUse paging₃ s.currentPageDir q → InUse s.paging s.currentPageDir q := fun q hq =>
    huse₂ q ((inUse_congr hunmapped₁.directory hunmapped₁.staticPages q).mp hq)
  constructor
  · intro x
    rw [hunmapped₂.lookup_of_inv h₂.aligned h₂.fits htable₂ hinv₃,
      hunmapped₁.lookup_of_inv h₁.aligned h₁.fits htable₁ hinv]
    split
    · next hx =>
      exact (hready.untranslated x ((h₁.taken.covered _ _).mp (h₂.taken.free _ hx.1 hx.2)).1).symm
    · next hx₂ =>
      split
      · next hx => exact (hready.untranslated x (h₁.taken.free _ hx.1 hx.2)).symm
      · next hx₁ =>
        calc lookup copied s.currentPageDir x
            = lookup paging₂ s.currentPageDir x := lookup_of_inUse hcopied.inUse x
          _ = lookup paging₁ s.currentPageDir x := h₂.lookup_outside hx₂
          _ = lookup s.paging s.currentPageDir x := h₁.lookup_outside hx₁
  · intro a ha
    rw [bytes_of_page (hunmapped₂.unused h₂.aligned h₂.fits htable₂ hinv₃ fun hin => ha (huse₃ _ hin))]
    exact bytes_of_page (hunmapped₁.unused h₁.aligned h₁.fits htable₁ hinv fun hin => ha (huse₂ _ hin))

omit hnum in
/-- Where the tables were there and their entries empty, they are again. -/
theorem PagesMapped.sameEntries_both (hpos : 0 < n.toNat) (hempty : TablesEmpty s) :
    SameEntries s.paging paging₄ s.currentPageDir Set.univ := by
  obtain ⟨hinv, htable₁, htable₂⟩ := h₁.tables_copied h₂ hall₁ hall₂ hcopied
  rw [← hunmapped₁.directory] at htable₂
  have hfree₂ : ∀ x : Word, w₂.toNat ≤ x.toNat → x.toNat < w₂.toNat + n.toNat * 4096 →
      Covered s.kernVmSpace.vmAllocMap x.toNat allocVmKernel := fun x hlo hhi =>
    ((h₁.taken.covered _ _).mp (h₂.taken.free _ hlo hhi)).1
  have hmapped₁ := h₁.entries (hempty w₁ (h₁.taken.free _ (Nat.le_refl _) (by omega))).1
  have hmapped₂ := h₂.entries (by
    dsimp only
    rw [hmapped₁.directory]
    exact (hempty w₂ (hfree₂ w₂ (Nat.le_refl _) (by omega))).1)
  have hcopy : SameEntries paging₂ copied s.currentPageDir Set.univ :=
    ⟨hcopied.inUse _ (Or.inl rfl), hcopied.staticPages, fun x _ hfor =>
      congrFun (hcopied.inUse _ (Or.inr (Or.inl ⟨_, hfor, rfl⟩))) _⟩
  obtain ⟨hkept₁, hcleared₁⟩ := hunmapped₁.sameEntries h₁.aligned h₁.fits htable₁ hinv
  obtain ⟨hkept₂, hcleared₂⟩ := hunmapped₂.sameEntries h₂.aligned h₂.fits htable₂
    (hunmapped₁.pagingInv hinv)
  have hbefore := (hmapped₁.trans hmapped₂).trans hcopy
  have hall := (hbefore.trans hkept₁).trans hkept₂
  have hwalked : ∀ x, walkedTable copied s.currentPageDir x = walkedTable s.paging s.currentPageDir x :=
    fun x => by rw [walkedTable, walkedTable, hbefore.directory]
  have hwalked₃ : ∀ x, walkedTable paging₃ s.currentPageDir x = walkedTable s.paging s.currentPageDir x :=
    fun x => by rw [walkedTable, hunmapped₁.directory, ← walkedTable, hwalked]
  refine ⟨hall.directory, hall.staticPages, fun x _ hfor => ?_⟩
  by_cases hx₂ : w₂.toNat ≤ x.toNat ∧ x.toNat < w₂.toNat + n.toNat * 4096
  · rw [(hempty x (hfree₂ x hx₂.1 hx₂.2)).2, ← hwalked₃]
    exact hcleared₂ x hx₂.1 hx₂.2
  · by_cases hx₁ : w₁.toNat ≤ x.toNat ∧ x.toNat < w₁.toNat + n.toNat * 4096
    · have hkept := hkept₂.entries x hx₂ (by
        rw [hunmapped₁.directory, hbefore.directory]
        exact hfor)
      rw [hwalked₃] at hkept
      rw [(hempty x (h₁.taken.free _ hx₁.1 hx₁.2)).2, hkept, ← hwalked]
      exact hcleared₁ x hx₁.1 hx₁.2
    · exact hall.entries x ⟨⟨⟨⟨hx₁, hx₂⟩, trivial⟩, hx₁⟩, hx₂⟩ hfor

end Copied

end Complete

end Both

end Paths

section Locals

variable {s s' : KernelMemory} {locals : Word × Word} {l : Word}

/-- Unmapping takes the region that starts at an address out of the map of those in use, or does nothing. -/
theorem kmemPagesUnmap_vmMap {ok : Bool} (h : kmemPagesUnmap s l = some (ok, s')) :
    (s' = s ∧ ∀ r ∈ s.kernVmSpace.vmMap, r.address ≠ l) ∨
      s'.kernVmSpace.vmMap.length < s.kernVmSpace.vmMap.length := by
  unfold kmemPagesUnmap at h
  cases hsize : kmemVmGetSize s.kernVmSpace l with
  | none =>
    rw [hsize] at h
    cases h
    have hnone := List.find?_eq_none.mp (Option.map_eq_none_iff.mp hsize)
    exact Or.inl ⟨rfl, fun r hr heq => hnone r hr (decide_eq_true heq)⟩
  | some size =>
    rw [hsize] at h
    obtain ⟨paging, _, hfree⟩ := Option.bind_eq_some_iff.mp h
    obtain ⟨space, hspace, hresult⟩ := Option.map_eq_some_iff.mp hfree
    cases hresult
    obtain ⟨region, hregion, rfl⟩ := Option.map_eq_some_iff.mp hspace
    obtain ⟨_, pre, post, hmap, hremove⟩ := findAddress_eq_some hregion
    right
    dsimp only
    rw [hremove, hmap, List.length_append, List.length_append, List.length_cons]
    omega

/-- What the clean-up does to the regions in use: nothing, if neither address is the start of one; otherwise
there are fewer. -/
theorem framesCloneCleanup_vmMap {result r : Word}
    (h : framesCloneCleanup s result locals.1 locals.2 = some (r, s')) :
    r = result ∧ ((s' = s ∧ LocalsUnused s locals) ∨
      s'.kernVmSpace.vmMap.length < s.kernVmSpace.vmMap.length) := by
  have hone : ∀ {t t' : KernelMemory} {l : Word},
      (if l ≠ 0 then (kmemPagesUnmap t l).map Prod.snd else some t) = some t' →
      (t' = t ∧ (l ≠ 0 → ∀ q ∈ t.kernVmSpace.vmMap, q.address ≠ l)) ∨
        t'.kernVmSpace.vmMap.length < t.kernVmSpace.vmMap.length := by
    intro t t' l hl
    by_cases hzero : l = 0
    · rw [if_neg (not_not.mpr hzero)] at hl
      cases hl
      exact Or.inl ⟨rfl, fun hne => absurd hzero hne⟩
    · rw [if_pos hzero] at hl
      obtain ⟨⟨ok, _⟩, hunmap, rfl⟩ := Option.map_eq_some_iff.mp hl
      exact (kmemPagesUnmap_vmMap hunmap).imp_left fun hsame => ⟨hsame.1, fun _ => hsame.2⟩
  obtain ⟨s₁, hfirst, hrest⟩ := Option.bind_eq_some_iff.mp h
  obtain ⟨s₂, hsecond, hresult⟩ := Option.map_eq_some_iff.mp hrest
  cases hresult
  refine ⟨rfl, ?_⟩
  obtain ⟨rfl, hunused₁⟩ | hless₁ := hone hfirst
  · refine (hone hsecond).imp_left fun hsame => ⟨hsame.1, ?_⟩
    rintro l (rfl | rfl)
    · exact hunused₁
    · exact hsame.2
  · obtain ⟨rfl, _⟩ | hless₂ := hone hsecond
    · exact Or.inr hless₁
    · exact Or.inr (Nat.lt_trans hless₂ hless₁)

/-- The clean-up of addresses where no region in use starts. -/
theorem LocalsUnused.framesCloneCleanup_eq (h : LocalsUnused s locals) (result : Word) :
    framesCloneCleanup s result locals.1 locals.2 = some (result, s) := by
  have hunused : ∀ l, l = locals.1 ∨ l = locals.2 →
      (if l ≠ 0 then (kmemPagesUnmap s l).map Prod.snd else some s) = some s := by
    intro l hl
    by_cases hzero : l = 0
    · rw [if_neg (not_not.mpr hzero)]
    · have hnone : kmemVmGetSize s.kernVmSpace l = none :=
        Option.map_eq_none_iff.mpr (List.find?_eq_none.mpr fun r hr heq =>
          h l hl hzero r hr (of_decide_eq_true heq))
      rw [if_pos hzero, kmemPagesUnmap, hnone, Option.map_some]
  rw [framesCloneCleanup, hunused locals.1 (Or.inl rfl), Option.bind_some,
    hunused locals.2 (Or.inr rfl), Option.map_some]

end Locals

/-- What `kmem_frames_clone` may have done once it has the frames: nothing but to page tables, or taken the
frames and copied to them. -/
inductive CloneOutcome (s : KernelMemory) (src n dest : Word) (pm : AllocatorMap) :
    Word → KernelMemory → Prop
  | failed (paging : PagingMemory) (hroom : ¬ TwoBlocks s n.toNat)
      (hundone : Undone s paging s.paging.bytes) :
      CloneOutcome s src n dest pm 0 { s with paging := paging }
  | copied (paging : PagingMemory) (hroom : TwoBlocks s n.toNat)
      (hundone : Undone s paging (copyDown s.paging.bytes dest src (4096 * n.toNat)))
      (htables : TablesEmpty s → SameEntries s.paging paging s.currentPageDir Set.univ) :
      CloneOutcome s src n dest pm dest { s with kernPmAllocMap := pm, paging := paging }

/-- The resources of memory management after a call of `kmem_frames_clone` for `n` frames at `src`. -/
structure Accounts (s s' : KernelMemory) (src n result : Word) : Prop where
  failed : result = 0 → ∀ x c, Covered s'.kernPmAllocMap x c ↔ Covered s.kernPmAllocMap x c
  taken : result ≠ 0 → FreeBlock s.kernPmAllocMap allocPmNormal (4096 * n.toNat) result.toNat ∧
    ∀ x c, Covered s'.kernPmAllocMap x c ↔
      Covered s.kernPmAllocMap x c ∧ ¬ (result.toNat ≤ x ∧ x < result.toNat + 4096 * n.toNat)
  copied : result ≠ 0 → ∀ k < 4096 * n.toNat,
    s'.paging.bytes (result + BitVec.ofNat 32 k) = s.paging.bytes (src + BitVec.ofNat 32 k)
  space : s'.kernVmSpace = s.kernVmSpace
  directory : s'.currentPageDir = s.currentPageDir
  translations : ∀ x, lookup s'.paging s.currentPageDir x = lookup s.paging s.currentPageDir x

section Clone

variable {s s' : KernelMemory} {locals : Word × Word} {src n dest result : Word} {pm : AllocatorMap}

/-- No frames: the clean-up is given the uninitialised locals. -/
theorem kmemFramesClone_no_frames
    (hnone : kmemFramesAlloc s.kernPmAllocMap n = (0, s.kernPmAllocMap)) :
    kmemFramesClone locals s src n = framesCloneCleanup s 0 locals.1 locals.2 := by
  rw [kmemFramesClone, hnone]
  dsimp only
  rw [if_pos rfl, framesCloneErrCleanup, if_neg (not_not.mpr rfl)]

section Frames

variable (hsound : CloneSound s) (hpos : 0 < n.toNat) (hnum : n.toNat < 2 ^ 20)
  (haligned : src.toNat % 4096 = 0) (hfits : src.toNat + n.toNat * 4096 ≤ 2 ^ 32)
  (hframes : kmemFramesAlloc s.kernPmAllocMap n = (dest, pm))
  (htaken : BlockTaken 4096 (4096 * n.toNat) allocPmNormal s.kernPmAllocMap pm dest)

include hsound htaken

theorem CloneSound.taken : CloneSound { s with kernPmAllocMap := pm } where
  vm := hsound.vm
  frames := htaken.rest
  paging := hsound.paging
  untranslated := hsound.untranslated
  apart := fun x hx => hsound.apart x ((htaken.covered _ _).mp hx).1

/-- The frames taken hold nothing in use. -/
theorem CloneSound.taken_apart : ∀ i < 4096 * n.toNat,
    ¬ InUse s.paging s.currentPageDir (pageOf (dest + BitVec.ofNat 32 i)) := by
  intro i hi
  have hdfits := htaken.fits
  refine hsound.apart _ (htaken.free _ ?_ ?_) <;> rw [toNat_add_ofNat (by omega)] <;> omega

/-- Once it has the frames, a call that returns accounts for everything exactly if it copies nothing that it
has overwritten. -/
theorem CloneOutcome.accounts_iff (h : CloneOutcome s src n dest pm result s') :
    Accounts s s' src n result ↔ (TwoBlocks s n.toNat → Repeats s src dest n.toNat) := by
  have hdfits := htaken.fits
  cases h with
  | failed paging hroom hundone =>
    refine ⟨fun _ htwo => absurd htwo hroom, fun _ => ⟨fun _ _ _ => Iff.rfl, fun hne => absurd rfl hne,
      fun hne => absurd rfl hne, rfl, rfl, hundone.lookup⟩⟩
  | copied paging hroom hundone _ =>
    have hbytes : ∀ k < 4096 * n.toNat, paging.bytes (dest + BitVec.ofNat 32 k) =
        copyDown s.paging.bytes dest src (4096 * n.toNat) (dest + BitVec.ofNat 32 k) := fun k hk =>
      hundone.bytes _ (hsound.taken_apart htaken k hk)
    have hcopies := copyDown_copies_iff s.paging.bytes dest src (n := 4096 * n.toNat) (by omega)
    constructor
    · intro haccounts _
      exact hcopies.mp fun k hk => (hbytes k hk).symm.trans (haccounts.copied htaken.ne_zero k hk)
    · intro hrepeats
      exact ⟨fun hzero => absurd hzero htaken.ne_zero, fun _ => ⟨htaken.free, htaken.covered⟩,
        fun _ k hk => (hbytes k hk).trans (hcopies.mpr (hrepeats hroom) k hk), rfl, rfl, hundone.lookup⟩

include hpos hnum hframes

/-- The source cannot be mapped: the frames go back. -/
theorem kmemFramesClone_no_source
    (hmap : kmemPagesMap { s with kernPmAllocMap := pm } src n =
      some (0, { s with kernPmAllocMap := pm })) :
    kmemFramesClone locals s src n = some (0, s) := by
  rw [kmemFramesClone, hframes]
  dsimp only
  rw [if_neg htaken.ne_zero, hmap, Option.bind_some]
  dsimp only
  rw [if_pos rfl, framesCloneErrCleanup_eq hsound.frames hpos hnum htaken, framesCloneCleanup,
    if_neg (not_not.mpr rfl), Option.bind_some, if_neg (not_not.mpr rfl), Option.map_some]

section Mapped

variable {paging₁ : PagingMemory} {space₁ : VmSpace} {w₁ : Word}
  (hmap₁ : kmemPagesMap { s with kernPmAllocMap := pm } src n =
    some (w₁, { s with kernPmAllocMap := pm, paging := paging₁, kernVmSpace := space₁ }))
  (h₁ : PagesMapped { s with kernPmAllocMap := pm } paging₁ space₁ src w₁ n)

include hmap₁ h₁

/-- The copy cannot be mapped: the frames and the first mapping go back. -/
theorem kmemFramesClone_no_dest
    (hmap₂ : kmemPagesMap { s with kernPmAllocMap := pm, paging := paging₁, kernVmSpace := space₁ }
      dest n = some (0, { s with kernPmAllocMap := pm, paging := paging₁, kernVmSpace := space₁ })) :
    kmemFramesClone locals s src n =
      framesCloneCleanup { s with paging := paging₁, kernVmSpace := space₁ } 0 w₁ 0 := by
  rw [kmemFramesClone, hframes]
  dsimp only
  rw [if_neg htaken.ne_zero, hmap₁, Option.bind_some]
  dsimp only
  rw [if_neg h₁.window.ne_zero, hmap₂, Option.bind_some]
  dsimp only
  rw [if_pos rfl, framesCloneErrCleanup_eq hsound.frames hpos hnum htaken]

variable {paging₂ : PagingMemory} {space₂ : VmSpace} {w₂ : Word}
  (hmap₂ : kmemPagesMap { s with kernPmAllocMap := pm, paging := paging₁, kernVmSpace := space₁ }
    dest n =
      some (w₂, { s with kernPmAllocMap := pm, paging := paging₂, kernVmSpace := space₂ }))
  (h₂ : PagesMapped { s with kernPmAllocMap := pm, paging := paging₁, kernVmSpace := space₁ } paging₂
    space₂ dest w₂ n)

include hmap₂ h₂

/-- With both mapped in full, the copy is made and the mappings are removed. -/
theorem kmemFramesClone_copied (locals : Word × Word) (haligned : src.toNat % 4096 = 0)
    (hfits : src.toNat + n.toNat * 4096 ≤ 2 ^ 32)
    (hsource : ∀ i < 4096 * n.toNat,
      ¬ InUse s.paging s.currentPageDir (pageOf (src + BitVec.ofNat 32 i)))
    (hall₁ : firstPages w₁ n.toNat = n.toNat) (hall₂ : firstPages w₂ n.toNat = n.toNat) :
    ∃ paging, kmemFramesClone locals s src n =
        some (dest, { s with kernPmAllocMap := pm, paging := paging }) ∧
      Undone s paging (copyDown s.paging.bytes dest src (4096 * n.toNat)) ∧
      (TablesEmpty s → SameEntries s.paging paging s.currentPageDir Set.univ) := by
  have hdfits := htaken.fits
  obtain ⟨copied, hcopy, hcopied⟩ := h₁.memcpy_both h₂ hnum hall₁ hall₂ haligned hfits
    (Nat.mod_eq_zero_of_dvd htaken.aligned) (by omega) (hsound.taken_apart htaken)
  obtain ⟨_, paging, hclean, hfirst, hsecond⟩ := h₁.cleanup_both h₂ hnum hall₁ hall₂ hcopied dest
  have hundone := h₁.undone_both h₂ hall₁ hall₂ hcopied hfirst hsecond
    (hsound.taken htaken).toKmemReady
  refine ⟨paging, ?_, ⟨hundone.lookup, fun a ha => ?_⟩,
    h₁.sameEntries_both h₂ hall₁ hall₂ hcopied hfirst hsecond hpos⟩
  · rw [kmemFramesClone, hframes]
    dsimp only
    rw [if_neg htaken.ne_zero, hmap₁, Option.bind_some]
    dsimp only
    rw [if_neg h₁.window.ne_zero, hmap₂, Option.bind_some]
    dsimp only
    rw [if_neg h₂.window.ne_zero, hcopy, Option.bind_some, hclean]
  · -- the mappings have changed no byte that is read
    rw [hundone.bytes a ha, hcopied.bytes]
    refine copyDown_congr {a | ¬ InUse s.paging s.currentPageDir (pageOf a)}
      (fun x hx => bytes_of_page ?_) hsource a ha
    exact (h₂.wired.unused _ fun hin => hx (h₁.wired.inUse _ hin)).trans (h₁.wired.unused _ hx)

end Mapped

variable (hsource : ∀ i < 4096 * n.toNat,
  ¬ InUse s.paging s.currentPageDir (pageOf (src + BitVec.ofNat 32 i)))

include haligned hfits

include hsource in
/-- A call that returns has one of the two outcomes. -/
theorem kmemFramesClone_outcome (h : kmemFramesClone locals s src n = some (result, s')) :
    CloneOutcome s src n dest pm result s' := by
  have hready := (hsound.taken htaken).toKmemReady
  have hcall := h
  rw [kmemFramesClone, hframes] at hcall
  dsimp only at hcall
  rw [if_neg htaken.ne_zero] at hcall
  obtain ⟨⟨w₁, t₁⟩, hmap₁, hcall⟩ := Option.bind_eq_some_iff.mp hcall
  obtain ⟨rfl, rfl, hfull⟩ | ⟨paging₁, space₁, h₁, rfl⟩ := hready.kmemPagesMap_cases hpos hnum hmap₁
  · rw [kmemFramesClone_no_source hsound hpos hnum hframes htaken hmap₁] at h
    cases h
    exact .failed s.paging (fun ⟨a, _, ha, _⟩ => hfull a ha)
      ⟨fun _ => rfl, fun _ _ => rfl⟩
  · have h₁' : PagesMapped s paging₁ space₁ src w₁ n := h₁.frames s.kernPmAllocMap
    have hready₁ := (h₁.cloneSound (hsound.taken htaken)).toKmemReady
    dsimp only at hcall
    rw [if_neg h₁.window.ne_zero] at hcall
    obtain ⟨⟨w₂, t₂⟩, hmap₂, hcall⟩ := Option.bind_eq_some_iff.mp hcall
    obtain ⟨rfl, rfl, hfull⟩ | ⟨paging₂, space₂, h₂, rfl⟩ :=
      hready₁.kmemPagesMap_cases hpos hnum hmap₂
    · rw [kmemFramesClone_no_dest hsound hpos hnum hframes htaken hmap₁ h₁ hmap₂] at h
      obtain ⟨paging, hclean, hundone⟩ := h₁'.cleanup_one hsound.toKmemReady hnum
        (h₁'.forTable_of_cleanup hsound.toKmemReady hnum h) 0
      rw [hclean] at h
      cases h
      refine .failed paging (fun ⟨a, b, ha, hb, hab⟩ => hfull b fun x hx hx' => ?_) hundone
      have hlowest := h₁.taken.lowest a ha
      exact (h₁.taken.covered _ _).mpr ⟨hb x hx hx', by omega⟩
    · dsimp only at hcall
      rw [if_neg h₂.window.ne_zero] at hcall
      obtain ⟨t₃, hcopy, hcall⟩ := Option.bind_eq_some_iff.mp hcall
      obtain ⟨hall₁, hall₂⟩ := h₁.complete_of_memcpy h₂ hready hpos hnum hcopy
      obtain ⟨paging, hcopied, hundone, htables⟩ := kmemFramesClone_copied hsound hpos hnum hframes
        htaken hmap₁ h₁ hmap₂ h₂ locals haligned hfits hsource hall₁ hall₂
      rw [hcopied] at h
      cases h
      exact .copied paging ⟨w₁.toNat, w₂.toNat, h₁.taken.free, fun x hx hx' =>
        ((h₁.taken.covered _ _).mp (h₂.taken.free x hx hx')).1, h₁.src_lt h₂ hnum⟩ hundone htables

include hsource in
/-- The call returns if tables can be had for the two mappings and each falls under one directory entry. -/
theorem kmemFramesClone_returns (htables : TablesAtHand s 2) (hwindows : WindowsFit s n.toNat) :
    ∃ r, kmemFramesClone locals s src n = some r := by
  have hready := (hsound.taken htaken).toKmemReady
  have hbytes := toNat_mul_pageSize hnum
  obtain ⟨⟨w₁, t₁⟩, hmap₁⟩ := hready.kmemPagesMap_returns hpos hnum (k := 1) htables src
  obtain ⟨rfl, rfl, _⟩ | ⟨paging₁, space₁, h₁, rfl⟩ := hready.kmemPagesMap_cases hpos hnum hmap₁
  · exact ⟨_, kmemFramesClone_no_source hsound hpos hnum hframes htaken hmap₁⟩
  · have h₁' : PagesMapped s paging₁ space₁ src w₁ n := h₁.frames s.kernPmAllocMap
    have hready₁ := (h₁.cloneSound (hsound.taken htaken)).toKmemReady
    obtain ⟨hfit₁, hfit₂⟩ := hwindows w₁.toNat ⟨h₁.taken.free, fun b => h₁.taken.lowest b⟩
    have hall₁ := firstPages_of_slot h₁.aligned hfit₁
    obtain ⟨⟨w₂, t₂⟩, hmap₂⟩ := hready₁.kmemPagesMap_returns hpos hnum (h₁.tablesAtHand htables) dest
    obtain ⟨rfl, rfl, _⟩ | ⟨paging₂, space₂, h₂, rfl⟩ := hready₁.kmemPagesMap_cases hpos hnum hmap₂
    · obtain ⟨_, hclean, _⟩ := h₁'.cleanup_one hsound.toKmemReady hnum (fun x hlo hhi =>
        h₁.wired.table x hlo (by rw [hall₁]; exact hhi)) 0
      exact ⟨_, (kmemFramesClone_no_dest hsound hpos hnum hframes htaken hmap₁ h₁ hmap₂).trans hclean⟩
    · have hall₂ := firstPages_of_slot h₂.aligned (hfit₂ w₂.toNat ⟨⟨fun x hx hx' =>
        ((h₁.taken.covered _ _).mp (h₂.taken.free x hx hx')).1, h₁.src_lt h₂ hnum⟩, fun b hb =>
          h₂.taken.lowest b fun x hx hx' => (h₁.taken.covered _ _).mpr ⟨hb.1 x hx hx', by
            have := hb.2
            omega⟩⟩)
      obtain ⟨_, hcopied, _⟩ := kmemFramesClone_copied hsound hpos hnum hframes htaken hmap₁ h₁ hmap₂ h₂
        locals haligned hfits hsource hall₁ hall₂
      exact ⟨_, hcopied⟩

end Frames

end Clone

section Example

/-- A directory with the same entry for all user pages, the first 4 MB mapped at `KERNEL_VMA`, and two
page tables. -/
def directoryEntry (entry : Word) (i : ℕ) : Word :=
  if i < 768 then entry else if i = 768 then 0x83
  else if i = 770 then 0x103007 else if i = 771 then 0x104007 else 0

/-- A machine with 3 GB of free memory from 8 MB on, and 8 MB of free kernel address space under two empty
page tables. -/
def threeGigabytes (entry : Word) : KernelMemory where
  paging := ⟨fun q i => if q = 0xC0101000 then directoryEntry entry i.val
    else if q.toNat < 0xC0400000 then 0 else BitVec.ofNat 32 i.val, []⟩
  currentPageDir := 0xC0101000
  kernVmSpace := ⟨[], [⟨⟨0xC0800000, 0x800000⟩, allocVmKernel⟩]⟩
  kernPmAllocMap := [⟨⟨0x800000, 0xC0000000⟩, allocPmNormal⟩]

/-- The machine with a page of 4 MB everywhere below the kernel. -/
def largePages : KernelMemory := threeGigabytes 0x400087

variable {a x : Word}

theorem forTable_directoryEntry {i : ℕ} (h : ForTable (directoryEntry 0x400087 i)) : i = 770 ∨ i = 771 := by
  unfold directoryEntry at h
  split_ifs at h with _ _ hfirst hsecond
  · exact absurd h.2 (by decide)
  · exact absurd h.2 (by decide)
  · exact Or.inl hfirst
  · exact Or.inr hsecond
  · exact absurd h.1 (by decide)

theorem largePages_inUse (h : InUse largePages.paging 0xC0101000 (pageOf a)) :
    0x101000 ≤ a.toNat ∧ a.toNat < 0x105000 := by
  have hpage : ∀ q : Word, pageOf a = q → (a.toNat + 0xC0000000) % 2 ^ 32 / 4096 * 4096 = q.toNat := by
    rintro _ rfl
    rw [pageOf, toNat_and_frameMask, kernelVma, BitVec.toNat_add]
    rfl
  have hlt := a.isLt
  obtain h | ⟨i, hfor, h⟩ | h := h
  · have := hpage _ h
    change _ = 0xC0101000 at this
    omega
  · have := hpage _ h.symm
    change _ = (pagingPdEntryGetFrame (directoryEntry _ i.val) + kernelVma).toNat at this
    obtain hi | hi := forTable_directoryEntry hfor <;> rw [hi] at this
    · change _ = 0xC0103000 at this
      omega
    · change _ = 0xC0104000 at this
      omega
  · cases h

theorem largePages_frames (x : ℕ) :
    Covered largePages.kernPmAllocMap x allocPmNormal ↔
      0x800000 ≤ x ∧ x < 0xC0800000 :=
  covered_singleton _ x

theorem largePages_space (x : ℕ) :
    Covered largePages.kernVmSpace.vmAllocMap x allocVmKernel ↔
      0xC0800000 ≤ x ∧ x < 0xC1000000 :=
  covered_singleton _ x

theorem largePages_page (i : Fin ptEntries) :
    largePages.paging.page 0xC0101000 i = directoryEntry 0x400087 i.val :=
  rfl

/-- The free address space is under the two tables. -/
theorem largePages_table (hx : Covered largePages.kernVmSpace.vmAllocMap x.toNat allocVmKernel) :
    ForTable (largePages.paging.page 0xC0101000 (pagingPdEntryIdForAddr x)) ∧
      ∀ i, largePages.paging.page (walkedTable largePages.paging 0xC0101000 x) i = 0 := by
  have hother : ∀ q : Word, q ≠ 0xC0101000 → q.toNat < 0xC0400000 → ∀ i, largePages.paging.page q i = 0 := by
    intro q hq hlt i
    change (if q = 0xC0101000 then _ else if q.toNat < 0xC0400000 then _ else _) = _
    rw [if_neg hq, if_pos hlt]
  have hspace := (largePages_space _).mp hx
  have hcases : x.toNat / 4194304 = 770 ∨ x.toNat / 4194304 = 771 := by omega
  rw [walkedTable, largePages_page, val_pagingPdEntryIdForAddr]
  obtain h | h := hcases <;> rw [h] <;>
    exact ⟨⟨by decide, by decide⟩, hother _ (by decide) (by decide)⟩

/-- Two mappings of up to 2 MB, or of 4 MB, fall under one directory entry each. -/
theorem largePages_windowsFit {n : ℕ} (hpos : 0 < n) (hn : n ≤ 512 ∨ n = 1024) :
    WindowsFit largePages n := by
  have hfree : ∀ b, 0xC0800000 ≤ b → b + n * 4096 ≤ 0xC1000000 →
      FreeBlock largePages.kernVmSpace.vmAllocMap allocVmKernel (n * 4096) b :=
    fun b hlo hhi x hx hx' => (largePages_space x).mpr (by omega)
  intro a ha
  have hlo := (largePages_space a).mp (ha.1 a (Nat.le_refl _) (by omega))
  have hle := ha.2 (hfree 0xC0800000 (by omega) (by omega))
  refine ⟨by unfold OneTable; omega, fun b hb => ?_⟩
  have hge := hb.1.2
  have hleast := hb.2 ⟨hfree (a + n * 4096) (by omega) (by omega), Nat.le_refl _⟩
  unfold OneTable
  omega

theorem largePages_sound : CloneSound largePages where
  vm :=
    { starts := Starts.singleton (by decide) (by decide) (by decide) (by decide)
      unused := fun r hr => by cases hr }
  frames := Starts.singleton (by decide) (by decide) (by decide) (by decide)
  paging :=
    { own := ⟨rfl, fun i hi => by
        change pagingPdEntryGetFrame (directoryEntry _ i.val) + _ ≠ 0xC0101000
        obtain h | h := forTable_directoryEntry hi <;> rw [h] <;> decide⟩
      noShared := fun i j hi hj heq => by
        change pagingPdEntryGetFrame (directoryEntry _ i.val) =
          pagingPdEntryGetFrame (directoryEntry _ j.val) at heq
        apply Fin.ext
        obtain h | h := forTable_directoryEntry hi <;> obtain h' | h' := forTable_directoryEntry hj <;>
          rw [h, h'] at heq ⊢ <;> exact absurd heq (by decide)
      found := fun i hi => by
        change pagingPtForPdEntry (directoryEntry _ i.val) ≠ 0
        obtain h | h := forTable_directoryEntry hi <;> rw [h] <;> decide
      fresh := fun pt hpt => by cases hpt
      nodup := List.nodup_nil }
  untranslated := fun x hx => by
    obtain ⟨hfor, htable⟩ := largePages_table hx
    change lookup _ 0xC0101000 x = none
    rw [walkedTable] at htable
    rw [lookup, if_neg (not_not.mpr hfor.1), if_neg (not_not.mpr hfor.2), htable]
    decide
  apart := fun x hx huse => by
    have hfree := (largePages_frames _).mp hx
    have hused := largePages_inUse huse
    omega

end Example

/-- No free frames, and one page in use at `0xC0400000`. -/
def pageInUse : KernelMemory where
  paging := oneEntry 769 0x00101007
  currentPageDir := 0xC0100000
  kernVmSpace := ⟨[⟨⟨0xC0400000, 0x1000⟩, ()⟩], [⟨⟨0xC0800000, 0x9000⟩, allocVmKernel⟩]⟩
  kernPmAllocMap := []

theorem pageInUse_sound : CloneSound pageInUse where
  vm :=
    { starts := Starts.singleton (by decide) (by decide) (by decide) (by decide)
      unused := fun r hr hcovered => by
        rw [List.mem_singleton.mp hr] at hcovered
        exact absurd ((covered_singleton _ _).mp hcovered) (by decide) }
  frames := ⟨⟨⟨by simp [pageInUse], by simp [pageInUse]⟩, by simp [pageInUse]⟩, by simp [pageInUse]⟩
  paging :=
    { own := oneEntry_ownPage (by decide)
      noShared := oneEntry_noSharedTable _ _
      found := fun i hi => by
        have hentry : pageInUse.paging.page pageInUse.currentPageDir i = _ := (oneEntry_forTable hi).2
        rw [hentry]
        decide
      fresh := fun pt hpt => by cases hpt
      nodup := List.nodup_nil }
  untranslated := fun x hx => by
    have hlo : 0xC0800000 ≤ x.toNat := ((covered_singleton _ _).mp hx).1
    have hslot : (pagingPdEntryIdForAddr x).val ≠ 769 := by
      rw [val_pagingPdEntryIdForAddr]
      omega
    refine if_pos ?_
    rw [show pageInUse.paging.page pageInUse.currentPageDir (pagingPdEntryIdForAddr x) = 0 from
      (oneEntry_page _ _ _).trans (if_neg hslot)]
    decide
  apart := fun x hx => by
    obtain ⟨r, hr, _⟩ := (covered_iff _ _ _).mp hx
    cases hr

end ChrisOS.Mm
