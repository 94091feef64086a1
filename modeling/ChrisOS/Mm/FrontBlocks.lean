import ChrisOS.Mm.AllocatorContract
import ChrisOS.Mm.Kmem
import ChrisOS.Utils.Alignment

/-!
# Blocks off the front of a region

The kernel asks the allocator for frames and for address space in whole pages. From a map whose regions of
the flags asked for start on page boundaries it takes the block off the front of a region, and the map
keeps that property. So each block is on a page boundary, and a second block of the same size lies higher
than the first. Blocks given back in the order they were taken restore the map.

The kernel's address space in use is recorded in `vm_map` besides, and that map is restored as well.
-/

namespace ChrisOS.Mm

open ChrisOS.Utils ChrisOS.Lib

/-- A canonical map whose regions with the given flags start at multiples of `unit`, other than zero. -/
structure Starts (unit : ℕ) (flags : AllocRegionFlags) (map : AllocatorMap) : Prop where
  tidy : Tidy (· = ·) map
  aligned : ∀ r ∈ map, r.attrs = flags → unit ∣ r.lo ∧ 0 < r.lo

/-- A map of one region. -/
theorem Starts.singleton {unit : ℕ} {flags : AllocRegionFlags} {r : AllocatorRegion} (hne : r.lo < r.hi)
    (hfits : r.Fits) (haligned : unit ∣ r.lo) (hpos : 0 < r.lo) : Starts unit flags [r] := by
  refine ⟨⟨⟨by simpa [Region.span] using hne, by simp⟩, by simpa using hfits⟩, fun q hq _ => ?_⟩
  rw [List.mem_singleton.mp hq]
  exact ⟨haligned, hpos⟩

/-- The block of `size` bytes at `b` is free. -/
def FreeBlock (map : AllocatorMap) (flags : AllocRegionFlags) (size b : ℕ) : Prop :=
  ∀ x, b ≤ x → x < b + size → Covered map x flags

/-- The block of `size` bytes at `a`, the lowest free one, has been taken out of a map. -/
structure BlockTaken (unit size : ℕ) (flags : AllocRegionFlags) (map map' : AllocatorMap) (a : Word) :
    Prop where
  aligned : unit ∣ a.toNat
  pos : 0 < a.toNat
  fits : a.toNat + size ≤ 2 ^ 32
  free : FreeBlock map flags size a.toNat
  lowest : ∀ b, FreeBlock map flags size b → a.toNat ≤ b
  rest : Starts unit flags map'
  covered : ∀ x c, Covered map' x c ↔ Covered map x c ∧ ¬ (a.toNat ≤ x ∧ x < a.toNat + size)

section Taken

variable {unit : ℕ} {flags : AllocRegionFlags} {map map' : AllocatorMap} {size a : Word}

/-- Taking a block off the front of a region. -/
theorem Starts.cutAndStitch_front {passed post : AllocatorMap} {region : AllocatorRegion}
    (h : Starts unit flags (passed ++ region :: post)) (hsize : 0 < size.toNat)
    (hunit : unit ∣ size.toNat) (hattrs : region.attrs = flags)
    (hroom : region.lo + size.toNat ≤ region.hi)
    (hpassed : ∀ q ∈ passed, q.attrs = flags → q.hi < q.lo + size.toNat) :
    BlockTaken unit size.toNat flags (passed ++ region :: post)
      (cutAndStitch passed region post ⟨region.address, size⟩) region.address := by
  have hmem : region ∈ passed ++ region :: post := by simp
  have hfits : region.Fits := h.tidy.fits region hmem
  have hhole : (⟨region.address, size⟩ : Range).hi = region.lo + size.toNat := rfl
  have hlo : region.lo ≤ (⟨region.address, size⟩ : Range).lo := Nat.le_refl _
  obtain ⟨htidy, hcover⟩ := cutAndStitch_tidy ⟨region.address, size⟩ h.tidy hlo
    (by omega) (by change region.lo < region.lo + size.toNat; omega)
  have hspans := map_span_cutAndStitch ⟨region.address, size⟩ h.tidy hlo (by omega)
    (by change region.lo < region.hi; omega)
  have hnone : piece region.lo (⟨region.address, size⟩ : Range).lo region.attrs = [] :=
    piece_of_le (Nat.le_refl _) _
  rw [hnone, List.nil_append, hhole] at hspans
  -- a region of the new map is an old one, or the rest of the one that was cut
  have hregions : ∀ q ∈ cutAndStitch passed region post ⟨region.address, size⟩,
      q ∈ passed ∨ (q.lo = region.lo + size.toNat ∧ q.hi = region.hi) ∨ q ∈ post := by
    intro q hq
    have hspan : q.span ∈ (cutAndStitch passed region post ⟨region.address, size⟩).map
        Region.span := List.mem_map_of_mem hq
    rw [hspans] at hspan
    simp only [List.mem_append] at hspan
    obtain hq | hq | hq := hspan
    · exact Or.inl ((List.mem_map_of_injective Region.span_injective).mp hq)
    · exact Or.inr (Or.inl ⟨congrArg Span.lo (mem_piece hq), congrArg Span.hi (mem_piece hq)⟩)
    · exact Or.inr (Or.inr ((List.mem_map_of_injective Region.span_injective).mp hq))
  have halign := h.aligned region hmem hattrs
  refine ⟨halign.1, halign.2, Nat.le_trans hroom hfits, fun x hx hx' => ?_,
    fun b hb => ?_, ⟨htidy, fun q hq hqattrs => ?_⟩, hcover⟩
  · rw [← hattrs]
    exact covered_of_mem hmem hx (Nat.lt_of_lt_of_le hx' hroom)
  · obtain ⟨s, hs, hlabel, hslo, hshi⟩ := h.tidy.canonical.exists_of_coversWith (by omega) hb
    obtain ⟨q, hq, rfl⟩ := List.mem_map.mp hs
    change q.lo ≤ b at hslo
    change b + size.toNat ≤ q.hi at hshi
    change region.lo ≤ b
    obtain hq | hq := List.mem_append.mp hq
    · have := hpassed q hq hlabel
      omega
    · obtain rfl | hq := List.mem_cons.mp hq
      · exact hslo
      · have := h.tidy.around.2 q hq
        omega
  · obtain hq | hq | hq := hregions q hq
    · exact h.aligned q (by simp [hq]) hqattrs
    · rw [hq.1]
      exact ⟨Nat.dvd_add halign.1 hunit, by omega⟩
    · exact h.aligned q (by simp [hq]) hqattrs

variable {alignment : Word}

/-- Where a block comes from: the front of the first region with room, at any alignment that divides the
unit. -/
theorem Starts.alloc_front (h : Starts unit flags map) (hflags : flags ≠ 0) (k : ℕ)
    (halign : (effectiveAlignment alignment).toNat = 2 ^ k) (hdvd : 2 ^ k ∣ unit)
    (halloc : allocatorMemAlloc map size alignment flags = some (a, map')) :
    ∃ passed region post, map = passed ++ region :: post ∧ region.attrs = flags ∧
      region.lo + size.toNat ≤ region.hi ∧
      (∀ q ∈ passed, q.attrs = flags → q.hi < q.lo + size.toNat) ∧ a = region.address ∧
      map' = cutAndStitch passed region post ⟨region.address, size⟩ := by
  obtain ⟨passed, region, post, rfl, hpassed, hoffers, rfl, rfl⟩ := allocatorMemAlloc_eq_some halloc
  have hmem : region ∈ passed ++ region :: post := by simp
  have hattrs : region.attrs = flags := hoffers.1.resolve_left hflags
  have hstart : alignAddress region.address (effectiveAlignment alignment) = region.address :=
    alignAddress_of_dvd halign (Nat.dvd_trans hdvd (h.aligned region hmem hattrs).1)
  have hroom : region.lo + size.toNat ≤ region.hi := by
    have htest := hoffers.2
    rw [hstart, BitVec.sub_self] at htest
    have : size.toNat ≤ region.size.toNat := by simpa [BitVec.le_def] using htest
    exact Nat.add_le_add_left this _
  rw [hstart]
  refine ⟨passed, region, post, rfl, hattrs, hroom, fun q hq hqattrs => ?_, rfl, rfl⟩
  have hqdvd : 2 ^ k ∣ q.lo := Nat.dvd_trans hdvd (h.aligned q (by simp [hq]) hqattrs).1
  exact Nat.lt_of_not_le fun hfit => hpassed q hq
    (offers_of_aligned k halign (Or.inr hqattrs) hqdvd (Nat.le_refl _) hfit)

/-- An allocation fails only if there is no free block, at any alignment that divides the unit. -/
theorem Starts.not_freeBlock (h : Starts unit flags map) (k : ℕ)
    (halign : (effectiveAlignment alignment).toNat = 2 ^ k) (hdvd : 2 ^ k ∣ unit) (hsize : 0 < size.toNat)
    (halloc : allocatorMemAlloc map size alignment flags = none) (b : ℕ) :
    ¬ FreeBlock map flags size.toNat b := by
  intro hb
  obtain ⟨s, hs, hlabel, hlo, hhi⟩ := h.tidy.canonical.exists_of_coversWith (by omega) hb
  obtain ⟨r, hr, rfl⟩ := List.mem_map.mp hs
  change r.lo ≤ b at hlo
  change b + size.toNat ≤ r.hi at hhi
  exact (allocatorMemAlloc_eq_none_iff ..).mp halloc r hr (offers_of_aligned k halign (Or.inr hlabel)
    (Nat.dvd_trans hdvd (h.aligned r hr hlabel).1) (Nat.le_refl _) (by omega))

/-- An allocation of whole units takes a block off the front of a region. -/
theorem Starts.blockTaken (h : Starts unit flags map) (hflags : flags ≠ 0) (k : ℕ)
    (halign : (effectiveAlignment alignment).toNat = 2 ^ k) (hdvd : 2 ^ k ∣ unit)
    (hsize : 0 < size.toNat) (hunit : unit ∣ size.toNat)
    (halloc : allocatorMemAlloc map size alignment flags = some (a, map')) :
    BlockTaken unit size.toNat flags map map' a := by
  obtain ⟨passed, region, post, rfl, hattrs, hroom, hpassed, rfl, rfl⟩ :=
    h.alloc_front hflags k halign hdvd halloc
  exact h.cutAndStitch_front hsize hunit hattrs hroom hpassed

theorem BlockTaken.ne_zero {n : ℕ} (h : BlockTaken unit n flags map map' a) : a ≠ 0 := by
  rintro rfl
  exact absurd h.pos (by decide)

/-- The block and what is left make up the map. -/
theorem BlockTaken.covered_back {n : ℕ} (htidy : Tidy (· = ·) map)
    (h : BlockTaken unit n flags map map' a) (x : ℕ) (c : AllocRegionFlags) :
    (flags = c ∧ a.toNat ≤ x ∧ x < a.toNat + n) ∨ Covered map' x c ↔ Covered map x c := by
  rw [h.covered]
  by_cases hx : a.toNat ≤ x ∧ x < a.toNat + n
  · have hfree := h.free x hx.1 hx.2
    constructor
    · rintro (⟨rfl, _⟩ | ⟨_, hout⟩)
      · exact hfree
      · exact absurd hx hout
    · intro hcovered
      obtain ⟨region, hregion, rfl, hlo, hhi⟩ := (covered_iff map x flags).mp hfree
      exact Or.inl ⟨htidy.attrs_of_covered hregion hlo hhi hcovered, hx⟩
  · exact ⟨fun hor => hor.elim (fun hin => absurd hin.2 hx) And.left, fun hc => Or.inr ⟨hc, hx⟩⟩

/-- Giving a block back. -/
theorem BlockTaken.free_self (htidy : Tidy (· = ·) map) (hsize : 0 < size.toNat)
    (h : BlockTaken unit size.toNat flags map map' a) : allocatorMemFree map' a size flags = map := by
  let block : AllocatorRegion := ⟨⟨a, size⟩, flags⟩
  have hblock : block.lo < block.hi := Nat.lt_add_of_pos_right hsize
  refine htidy.allocatorRegionAdd_eq h.rest.tidy hblock h.fits
    (fun x c hx => ((h.covered x c).mp hx).2) fun x c => ?_
  exact (covered_cons block map' x c).trans (h.covered_back htidy x c)

/-- Giving two blocks back, in the order they were taken. -/
theorem BlockTaken.free_both {map₁ map₂ : AllocatorMap} {b : Word} (htidy : Tidy (· = ·) map)
    (hsize : 0 < size.toNat) (ha : BlockTaken unit size.toNat flags map map₁ a)
    (hb : BlockTaken unit size.toNat flags map₁ map₂ b) :
    allocatorMemFree (allocatorMemFree map₂ a size flags) b size flags = map := by
  let first : AllocatorRegion := ⟨⟨a, size⟩, flags⟩
  let second : AllocatorRegion := ⟨⟨b, size⟩, flags⟩
  have hfirst : first.lo < first.hi := Nat.lt_add_of_pos_right hsize
  have hsecond : second.lo < second.hi := Nat.lt_add_of_pos_right hsize
  have hmap : ∀ x c, Covered (first :: map₂) x c → Covered map x c := by
    intro x c hx
    obtain hx | hx := (covered_cons ..).mp hx
    · exact (ha.covered_back htidy x c).mp (Or.inl hx)
    · exact ((ha.covered x c).mp ((hb.covered x c).mp hx).1).1
  obtain ⟨hadded, hcovered⟩ := allocatorRegionAdd_tidy first hb.rest.tidy hfirst ha.fits
    (fun x c hx => ((ha.covered x c).mp ((hb.covered x c).mp hx).1).2) fun c => by
      obtain ⟨y, hy, hnot⟩ := htidy.exists_not_covered c
      exact ⟨y, hy, fun hcov => hnot (hmap y c hcov)⟩
  refine htidy.allocatorRegionAdd_eq hadded hsecond hb.fits (fun x c hx hin => ?_) fun x c => ?_
  · obtain hx | hx := (covered_cons ..).mp ((hcovered x c).mp hx)
    · -- the second block was still there after the first had been taken
      exact ((ha.covered x flags).mp (hb.free x hin.1 hin.2)).2 hx.2
    · exact ((hb.covered x c).mp hx).2 hin
  · change Covered (second :: allocatorRegionAdd map₂ first) x c ↔ Covered map x c
    rw [covered_cons, hcovered, covered_cons, or_left_comm]
    exact (or_congr_right (hb.covered_back ha.rest.tidy x c)).trans (ha.covered_back htidy x c)

end Taken

/-- `kmem_frames_alloc` changes nothing or takes the frames it returns. -/
theorem Starts.kmemFramesAlloc_cases {pm : AllocatorMap} (h : Starts 4096 allocPmNormal pm)
    {numFrames : Word} (hpos : 0 < numFrames.toNat) (hnum : numFrames.toNat < 2 ^ 20) :
    (kmemFramesAlloc pm numFrames = (0, pm) ∧
        ∀ b, ¬ FreeBlock pm allocPmNormal (4096 * numFrames.toNat) b) ∨
      ∃ dest pm', kmemFramesAlloc pm numFrames = (dest, pm') ∧
        BlockTaken 4096 (4096 * numFrames.toNat) allocPmNormal pm pm' dest := by
  have hbytes := toNat_pageSize_mul hnum
  rw [kmemFramesAlloc]
  cases halloc : allocatorMemAlloc pm (pageSize * numFrames) pageSize allocPmNormal with
  | none =>
    rw [← hbytes]
    exact Or.inl ⟨rfl, h.not_freeBlock 12 rfl (Nat.dvd_refl _) (by omega) halloc⟩
  | some result =>
    obtain ⟨dest, pm'⟩ := result
    have htaken := h.blockTaken (by decide) 12 rfl (Nat.dvd_refl _) (by omega)
      ⟨numFrames.toNat, hbytes⟩ halloc
    rw [hbytes] at htaken
    exact Or.inr ⟨dest, pm', rfl, htaken⟩

/-- The block of the kernel's address space at `w` has been taken, and is recorded as in use. -/
structure Window (unit : ℕ) (size : Word) (space space' : VmSpace) (w : Word) : Prop where
  tidy : Tidy (· = ·) space.vmAllocMap
  taken : BlockTaken unit size.toNat allocVmKernel space.vmAllocMap space'.vmAllocMap w
  recorded : space'.vmMap = vmMapRegionAddNew space.vmMap w size
  unused : ∀ r ∈ space.vmMap, r.address ≠ w
  pos : 0 < size.toNat

section Window

variable {unit : ℕ} {size w : Word} {space space' : VmSpace}

theorem Window.ne_zero (h : Window unit size space space' w) : w ≠ 0 := h.taken.ne_zero

/-- The size of a window is found again. -/
theorem Window.getSize (h : Window unit size space space' w) :
    kmemVmGetSize space' w = some size := by
  rw [kmemVmGetSize, h.recorded, findAddress_addNew_self _ h.unused, Option.map_some]

/-- Freeing a window restores the space. -/
theorem Window.free (h : Window unit size space space' w) : kmemVmFree space' w = some space := by
  rw [kmemVmFree, h.recorded, findAddress_addNew_self _ h.unused, Option.map_some,
    vmMapRegionRemove_addNew_self _ h.unused]
  dsimp only
  rw [h.taken.free_self h.tidy h.pos]

section Two

variable {space₁ space₂ : VmSpace} {src dest : Word}

/-- The second window is higher. -/
theorem Window.src_lt (h₁ : Window unit size space space₁ src) (h₂ : Window unit size space₁ space₂ dest) :
    src.toNat + size.toNat ≤ dest.toNat := by
  have hpos := h₁.pos
  have hlowest := h₁.taken.lowest dest.toNat fun x hx hx' =>
    ((h₁.taken.covered x _).mp (h₂.taken.free x hx hx')).1
  have hout := ((h₁.taken.covered _ _).mp (h₂.taken.free dest.toNat (Nat.le_refl _) (by omega))).2
  omega

/-- The space with only the second of two windows in use. -/
def VmSpace.secondOnly (space space₂ : VmSpace) (size src dest : Word) : VmSpace :=
  ⟨vmMapRegionAddNew space.vmMap dest size, allocatorMemFree space₂.vmAllocMap src size allocVmKernel⟩

/-- The first of two windows is found. -/
theorem Window.find_src (h₁ : Window unit size space space₁ src)
    (h₂ : Window unit size space₁ space₂ dest) :
    findAddress space₂.vmMap src = some ⟨⟨src, size⟩, ()⟩ := by
  have hne : src ≠ dest := by
    rintro rfl
    have := h₁.src_lt h₂
    have := h₁.pos
    omega
  rw [h₂.recorded, h₁.recorded, findAddress_addNew_of_ne _ hne, findAddress_addNew_self _ h₁.unused]

/-- The size of the first of two windows is found again. -/
theorem Window.getSize_src (h₁ : Window unit size space space₁ src)
    (h₂ : Window unit size space₁ space₂ dest) : kmemVmGetSize space₂ src = some size := by
  rw [kmemVmGetSize, h₁.find_src h₂, Option.map_some]

/-- Freeing the first of two windows. -/
theorem Window.free_src (h₁ : Window unit size space space₁ src)
    (h₂ : Window unit size space₁ space₂ dest) :
    kmemVmFree space₂ src = some (space.secondOnly space₂ size src dest) := by
  have hlt : src < dest := by
    have := h₁.src_lt h₂
    have := h₁.pos
    exact BitVec.lt_def.mpr (by omega)
  rw [kmemVmFree, h₁.find_src h₂, Option.map_some, h₂.recorded, h₁.recorded,
    vmMapRegionRemove_addNew_of_lt _ hlt, vmMapRegionRemove_addNew_self _ h₁.unused]
  rfl

/-- No region that was in use before either window starts where the second does. -/
theorem Window.unused_dest (h₁ : Window unit size space space₁ src)
    (h₂ : Window unit size space₁ space₂ dest) : ∀ r ∈ space.vmMap, r.address ≠ dest := by
  intro r hr
  apply h₂.unused r
  rw [h₁.recorded, (vmMapRegionAddNew_perm space.vmMap src size).mem_iff]
  exact List.mem_cons_of_mem _ hr

/-- The size of the second window is found when the first has been freed. -/
theorem Window.getSize_dest (h₁ : Window unit size space space₁ src)
    (h₂ : Window unit size space₁ space₂ dest) :
    kmemVmGetSize (space.secondOnly space₂ size src dest) dest = some size := by
  rw [kmemVmGetSize, VmSpace.secondOnly, findAddress_addNew_self _ (h₁.unused_dest h₂), Option.map_some]

/-- Freeing the second window as well restores the space. -/
theorem Window.free_dest (h₁ : Window unit size space space₁ src)
    (h₂ : Window unit size space₁ space₂ dest) :
    kmemVmFree (space.secondOnly space₂ size src dest) dest = some space := by
  rw [kmemVmFree, VmSpace.secondOnly, findAddress_addNew_self _ (h₁.unused_dest h₂), Option.map_some,
    vmMapRegionRemove_addNew_self _ (h₁.unused_dest h₂)]
  dsimp only
  rw [h₁.taken.free_both h₁.tidy h₁.pos h₂.taken]

end Two

end Window

/-- The kernel's address space as its functions keep it: free regions start on page boundaries other than
zero, and no region in use starts in a free one. -/
structure VmReady (unit : ℕ) (space : VmSpace) : Prop where
  starts : Starts unit allocVmKernel space.vmAllocMap
  unused : ∀ r ∈ space.vmMap, ¬ Covered space.vmAllocMap r.lo allocVmKernel

section Ready

variable {unit : ℕ} {size w : Word} {space space' : VmSpace}

/-- No region in use starts where a block of free space is. -/
theorem VmReady.address_ne {n : ℕ} {map : AllocatorMap} (h : VmReady unit space)
    (htaken : BlockTaken unit n allocVmKernel space.vmAllocMap map w) (hn : 0 < n) :
    ∀ r ∈ space.vmMap, r.address ≠ w := by
  rintro r hr rfl
  exact h.unused r hr (htaken.free r.lo (Nat.le_refl _) (Nat.lt_add_of_pos_right hn))

/-- `kmem_vm_alloc` of whole units changes nothing or opens a window. -/
theorem VmReady.kmemVmAlloc_cases (h : VmReady unit space) (hunit : 4 ∣ unit) (hpos : 0 < size.toNat)
    (hsize : unit ∣ size.toNat) :
    (kmemVmAlloc space size = (0, space) ∧
        ∀ b, ¬ FreeBlock space.vmAllocMap allocVmKernel size.toNat b) ∨
      ∃ w space', kmemVmAlloc space size = (w, space') ∧ Window unit size space space' w := by
  rw [kmemVmAlloc]
  cases halloc : allocatorMemAlloc space.vmAllocMap size 0 allocVmKernel with
  | none => exact Or.inl ⟨rfl, h.starts.not_freeBlock 2 rfl hunit hpos halloc⟩
  | some result =>
    obtain ⟨w, map⟩ := result
    have htaken := h.starts.blockTaken (by decide) 2 rfl hunit hpos hsize halloc
    exact Or.inr ⟨w, _, rfl, h.starts.tidy, htaken, rfl, h.address_ne htaken hpos, hpos⟩

/-- `kmem_vm_alloc` returns zero only when it has changed nothing, whatever the size. -/
theorem VmReady.kmemVmAlloc_zero (h : VmReady unit space) (hunit : 4 ∣ unit)
    (hzero : (kmemVmAlloc space size).1 = 0) : kmemVmAlloc space size = (0, space) := by
  rw [kmemVmAlloc] at hzero ⊢
  cases halloc : allocatorMemAlloc space.vmAllocMap size 0 allocVmKernel with
  | none => rfl
  | some result =>
    obtain ⟨w, map⟩ := result
    obtain ⟨passed, region, post, hsplit, hattrs, _, _, rfl, _⟩ :=
      h.starts.alloc_front (by decide) 2 rfl hunit halloc
    rw [halloc] at hzero
    have hpos := (h.starts.aligned region (by simp [hsplit]) hattrs).2
    simp only [Range.lo, show region.address = 0 from hzero] at hpos
    exact absurd hpos (by decide)

/-- The space is as it was also while a window is open. -/
theorem Window.vmReady (hwin : Window unit size space space' w) (h : VmReady unit space) :
    VmReady unit space' := by
  refine ⟨hwin.taken.rest, fun r hr hcovered => ?_⟩
  obtain ⟨hfree, hout⟩ := (hwin.taken.covered _ _).mp hcovered
  rw [hwin.recorded, (vmMapRegionAddNew_perm space.vmMap w size).mem_iff] at hr
  obtain rfl | hr := List.mem_cons.mp hr
  · exact hout ⟨Nat.le_refl _, Nat.lt_add_of_pos_right hwin.pos⟩
  · exact h.unused r hr hfree

end Ready

end ChrisOS.Mm
