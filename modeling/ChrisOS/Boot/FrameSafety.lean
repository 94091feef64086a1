import ChrisOS.Boot.Multiboot
import ChrisOS.Utils.Alignment
import Mathlib.Logic.Relation

/-!
# Physical frames and the memory that holds the kernel

After the memory map has been imported, frames are handed out and taken back. Nothing in
`kmem_load_layout` or in the import takes the kernel's own physical memory out of the map,
so frames stay clear of it only if the firmware does not offer it.

The invariant reads regions in 32-bit arithmetic, since entries of the map may overlap and
wrap: every region stays inside the imported ranges and contains its next page boundary.
The latter is what keeps a block inside the region it was taken from.
-/

namespace ChrisOS.Boot

open ChrisOS.Utils ChrisOS.Lib ChrisOS.Mm

/-- `KERNEL_LMA`. -/
def kernelLma : Word := 0x101000

/-- The virtual and the physical maps after boot. -/
structure BootMemory where
  vm : VmSpace
  pm : AllocatorMap

/-- Memory management as `kmain` sets it up: import the memory map, then load the layout. -/
def bootMemory (fuel : ℕ) (info : MultibootInfo) (mem : ByteMem 32) (layout : Layout) :
    Option BootMemory := do
  let pm ← multibootCopyMemMapToAllocator fuel info mem allocatorMapInit
  let vm ← kmemLoadLayout fuel layout vmSpaceInit
  some ⟨vm, pm⟩

/-- The physical memory of the kernel image and its static allocations. -/
def InKernel (layout : Layout) (x : Word) : Prop :=
  kernelLma ≤ x ∧ x < layout.physicalAddress layout.memoryEnd

instance (layout : Layout) (x : Word) : Decidable (InKernel layout x) :=
  inferInstanceAs (Decidable (_ ∧ _))

/-- The `i`-th frame of a block of frames. -/
def frameAt (block : Word) (i : ℕ) : Word := block + BitVec.ofNat 32 (4096 * i)

/-- The addresses of a frame. -/
def InFrame (frame x : Word) : Prop := (x - frame).toNat < 4096

/-- The physical map and the frames currently handed out. -/
structure FrameState where
  pm : AllocatorMap
  held : Set Word

/-- The frames a call of `kmem_frames_alloc` handed out. -/
def framesReturned (pm : AllocatorMap) (numFrames : Word) : Set Word :=
  {a | (kmemFramesAlloc pm numFrames).1 ≠ 0 ∧
    ∃ i < numFrames.toNat, a = frameAt (kmemFramesAlloc pm numFrames).1 i}

/-- One step: allocate fewer than `2 ^ 20` frames, or free frames that are handed out. -/
inductive FrameStep : FrameState → FrameState → Prop
  | alloc (s : FrameState) (numFrames : Word) (h : numFrames.toNat < 2 ^ 20) :
      FrameStep s ⟨(kmemFramesAlloc s.pm numFrames).2, s.held ∪ framesReturned s.pm numFrames⟩
  | free (s : FrameState) (addr numFrames : Word) (hpos : 0 < numFrames.toNat)
      (h : ∀ i < numFrames.toNat, frameAt addr i ∈ s.held) :
      FrameStep s ⟨kmemFramesFree s.pm addr numFrames,
        s.held \ {a | ∃ i < numFrames.toNat, a = frameAt addr i}⟩

/-- Address `x` is in the image of an imported range. -/
def Offered (entries : List MmapEntry) (x : Word) : Prop :=
  ∃ r ∈ importedRanges entries, r.Reaches x

/-- What keeps frames out of the kernel: every imported range contains its next page boundary,
and no page of imported memory meets the kernel. -/
structure KernelNotOffered (entries : List MmapEntry) (layout : Layout) : Prop where
  reaches : ∀ r ∈ importedRanges entries, ReachesAligned pageSize r
  pages : ∀ frame : Word, 4096 ∣ frame.toNat → (∀ x, InFrame frame x → Offered entries x) →
    ∀ x, InFrame frame x → ¬ InKernel layout x

/-- A region inside the imported memory that contains its next page boundary. -/
def RegionInside (entries : List MmapEntry) (q : AllocatorRegion) : Prop :=
  (∀ x, q.Reaches x → Offered entries x) ∧ ReachesAligned pageSize q.toRange

/-- A page-aligned frame of imported memory. -/
def FrameInside (entries : List MmapEntry) (frame : Word) : Prop :=
  4096 ∣ frame.toNat ∧ ∀ x, InFrame frame x → Offered entries x

/-- The invariant of a run. -/
structure FrameInv (entries : List MmapEntry) (s : FrameState) : Prop where
  regions : ∀ q ∈ s.pm, RegionInside entries q
  frames : ∀ frame ∈ s.held, FrameInside entries frame

/-- A merge of sorted ranges that leave some word free is no smaller than the first one. -/
theorem mergeSorted_size_ge {a b m : Range} (h : mergeSorted a b = some m) {x : Word}
    (hax : ¬ a.Reaches x) (hbx : ¬ b.Reaches x) : a.size ≤ m.size := by
  obtain ⟨hsize, _⟩ | ⟨hsize, _, hle⟩ | ⟨hsize, hadjacent⟩ := (mergeSorted_cases h).2
  · exact BitVec.le_of_eq hsize.symm
  · have hsum : b.size - (a.address - b.address) = m.size := by
      rw [hsize]
      bv_omega
    exact hsum ▸ hle
  · simp only [Range.Reaches] at hax hbx
    rw [hsize]
    bv_omega

/-- Cutting an allocated block out of a region leaves the padding and the rest, or, where the
block starts at the wrapped end of the region, changes nothing. -/
theorem cut_of_padded {a : Range} {start size : Word} (hpad : start - a.address ≤ a.size)
    (hsize : size ≤ a.size - (start - a.address)) :
    cut a ⟨start, size⟩ = none ∨
      cut a ⟨start, size⟩ = some (⟨a.address, start - a.address⟩,
        ⟨start + size, a.size - (start + size - a.address)⟩) := by
  by_cases hstart : StartPointInRange start a.address a.size
  · have hend : EndPointInRange start size a.address a.size := ⟨Or.inl hstart.1, hsize⟩
    exact Or.inr (by rw [cut, if_pos hstart, if_pos hend])
  · have hwrap : start < a.address → ¬ a.address - start ≤ size := by
      clear hstart
      bv_omega
    rw [cut, if_neg hstart]
    by_cases hlt : start < a.address
    · have hend : ¬ EndPointInRange start size a.address a.size := fun h =>
        h.1.elim (BitVec.not_le.mpr hlt) (hwrap hlt)
      have hover : ¬ StartPointInRange a.address start size := fun h =>
        hwrap hlt (BitVec.le_of_lt h.2)
      rw [if_pos hlt, if_neg hend, if_neg hover]
      exact Or.inl rfl
    · rw [if_neg hlt]
      exact Or.inl rfl

variable {entries : List MmapEntry}

/-- Merging regions inside imported memory that is not all memory gives such a region. -/
theorem RegionInside.merge (hroom : ∃ x, ¬ Offered entries x) {a b m : AllocatorRegion}
    (ha : RegionInside entries a) (hb : RegionInside entries b)
    (h : Mm.merge allocatorRegionPreMerge a b = some m) : RegionInside entries m := by
  obtain ⟨x, hx⟩ := hroom
  have hax : ¬ a.Reaches x := fun hax => hx (ha.1 x hax)
  have hbx : ¬ b.Reaches x := fun hbx => hx (hb.1 x hbx)
  refine ⟨fun y hy => (merge_reaches h y hy).elim (ha.1 y) (hb.1 y), ?_⟩
  obtain ⟨_, hmerge⟩ | ⟨_, hmerge⟩ := (merge_eq_some h).2
  · have haligned := BitVec.le_trans hb.2 (mergeSorted_size_ge hmerge hbx hax)
    rw [← (mergeSorted_cases hmerge).1] at haligned
    exact haligned
  · have haligned := BitVec.le_trans ha.2 (mergeSorted_size_ge hmerge hax hbx)
    rw [← (mergeSorted_cases hmerge).1] at haligned
    exact haligned

/-- Adding a region inside imported memory to a map of such regions keeps them so. -/
theorem allocatorRegionAdd_inside (hroom : ∃ x, ¬ Offered entries x) {pm : AllocatorMap}
    {r : AllocatorRegion} (hpm : ∀ q ∈ pm, RegionInside entries q)
    (hr : RegionInside entries r) : ∀ q ∈ allocatorRegionAdd pm r, RegionInside entries q :=
  add_forall (fun _ _ _ ha hb hm => ha.merge hroom hb hm) pm r hpm hr

/-- A rounded-up address is on a page boundary. -/
theorem dvd_alignAddress_pageSize (a : Word) : 4096 ∣ (alignAddress a pageSize).toNat :=
  ⟨_, (toNat_pageAlign a).trans (Nat.mul_comm _ _)⟩

/-- Page-aligned regions contain their next page boundary. -/
theorem reachesAligned_of_dvd {r : Range} (h : 4096 ∣ r.lo) : ReachesAligned pageSize r := by
  unfold ReachesAligned
  rw [alignAddress_of_dvd (k := 12) rfl h, BitVec.sub_self]
  bv_omega

/-- A block of whole pages lies in imported memory on a page boundary, and what is left of the
map is still inside imported memory. -/
theorem alloc_inside {pm pm' : AllocatorMap} {size block : Word} (hpm : ∀ q ∈ pm, RegionInside entries q)
    (hsize : 4096 ∣ size.toNat)
    (h : allocatorMemAlloc pm size pageSize allocPmNormal = some (block, pm')) :
    4096 ∣ block.toNat ∧ (∀ x, x - block < size → Offered entries x) ∧
      ∀ q ∈ pm', RegionInside entries q := by
  obtain ⟨passed, region, post, rfl, _, hoffers, hblock, rfl⟩ := allocatorMemAlloc_eq_some h
  obtain ⟨hinside, hpad⟩ := hpm region (by simp)
  have htest := hoffers.2
  unfold ReachesAligned at hpad
  change block = alignAddress region.address pageSize at hblock
  change size ≤ region.size - (alignAddress region.address pageSize - region.address) at htest
  rw [← hblock] at hpad htest
  have hdvd : 4096 ∣ block.toNat := hblock ▸ dvd_alignAddress_pageSize region.address
  refine ⟨hdvd, fun x hx => hinside x ?_, ?_⟩
  · unfold Range.Reaches
    bv_omega
  · apply cutAndStitch_forall
    · exact fun q hq => hpm q (by simp [hq])
    · exact fun q hq => hpm q (by simp [hq])
    · exact hpm region (by simp)
    · intro left tmp hcut
      obtain hnone | hsome := cut_of_padded hpad htest
      · rw [hnone] at hcut
        cases hcut
      · rw [hsome] at hcut
        cases hcut
        refine ⟨⟨fun x hx => hinside x ?_, ?_⟩, fun x hx => hinside x ?_, ?_⟩
        · simp only [Range.Reaches] at hx ⊢
          bv_omega
        · simp only [ReachesAligned]
          rw [← hblock]
          exact BitVec.le_refl _
        · simp only [Range.Reaches] at hx ⊢
          bv_omega
        · apply reachesAligned_of_dvd
          simp only [Range.lo, BitVec.toNat_add]
          omega

/-- What `kmem_frames_alloc` hands out is inside imported memory, and so is what it leaves. -/
theorem kmemFramesAlloc_inside {pm : AllocatorMap} {numFrames : Word}
    (hpm : ∀ q ∈ pm, RegionInside entries q) (hnum : numFrames.toNat < 2 ^ 20) :
    (∀ frame ∈ framesReturned pm numFrames, FrameInside entries frame) ∧
      ∀ q ∈ (kmemFramesAlloc pm numFrames).2, RegionInside entries q := by
  have hbytes := toNat_pageSize_mul hnum
  unfold framesReturned kmemFramesAlloc
  cases halloc : allocatorMemAlloc pm (pageSize * numFrames) pageSize allocPmNormal with
  | none => exact ⟨fun frame hframe => absurd rfl hframe.1, hpm⟩
  | some result =>
    obtain ⟨block, pm'⟩ := result
    obtain ⟨hdvd, hinside, hpm'⟩ := alloc_inside hpm ⟨numFrames.toNat, hbytes⟩ halloc
    refine ⟨fun frame hframe => ?_, hpm'⟩
    obtain ⟨_, i, hi, rfl⟩ := hframe
    refine ⟨?_, fun x hx => hinside x ?_⟩
    · simp only [frameAt, BitVec.toNat_add, BitVec.toNat_ofNat]
      omega
    · simp only [InFrame, frameAt] at hx
      rw [BitVec.lt_def, hbytes]
      bv_omega

/-- Freed frames lie in imported memory, as one region. -/
theorem freed_inside {addr numFrames : Word} (hpos : 0 < numFrames.toNat)
    (h : ∀ i < numFrames.toNat, FrameInside entries (frameAt addr i)) :
    RegionInside entries ⟨⟨addr, pageSize * numFrames⟩, allocPmNormal⟩ := by
  constructor
  · intro x hx
    have hbytes : (pageSize * numFrames).toNat ≤ 4096 * numFrames.toNat := by
      rw [BitVec.toNat_mul]
      exact Nat.mod_le _ _
    simp only [Range.Reaches, BitVec.lt_def] at hx
    refine (h ((x - addr).toNat / 4096) (by omega)).2 x ?_
    simp only [InFrame, frameAt]
    bv_omega
  · apply reachesAligned_of_dvd
    have hfirst := (h 0 hpos).1
    rwa [frameAt, Nat.mul_zero, BitVec.add_zero] at hfirst

/-- Every step keeps the invariant. -/
theorem FrameInv.step (hroom : ∃ x, ¬ Offered entries x) {s s' : FrameState} (h : FrameInv entries s)
    (hstep : FrameStep s s') : FrameInv entries s' := by
  cases hstep with
  | alloc numFrames hnum =>
    obtain ⟨hframes, hregions⟩ := kmemFramesAlloc_inside h.regions hnum
    exact ⟨hregions, fun frame hframe => hframe.elim (h.frames frame) (hframes frame)⟩
  | free addr numFrames hpos hheld =>
    refine ⟨?_, fun frame hframe => h.frames frame hframe.1⟩
    exact allocatorRegionAdd_inside hroom h.regions
      (freed_inside hpos fun i hi => h.frames _ (hheld i hi))

/-- The imported map is inside imported memory. -/
theorem addRanges_inside (hroom : ∃ x, ¬ Offered entries x) (ranges : List Range) (pm : AllocatorMap)
    (hpm : ∀ q ∈ pm, RegionInside entries q)
    (hranges : ∀ r ∈ ranges, RegionInside entries ⟨r, allocPmNormal⟩) :
    ∀ q ∈ addRanges pm ranges, RegionInside entries q := by
  induction ranges generalizing pm with
  | nil => exact hpm
  | cons r rest ih =>
    obtain ⟨hr, hrest⟩ := List.forall_mem_cons.mp hranges
    exact ih _ (allocatorRegionAdd_inside hroom hpm hr) hrest

/-- A kernel that occupies memory and is not offered leaves some address unoffered. -/
theorem KernelNotOffered.exists_not_offered {layout : Layout} (h : KernelNotOffered entries layout)
    {k : Word} (hk : InKernel layout k) :
    ∃ x, ¬ Offered entries x := by
  by_contra hall
  have hoffered : ∀ x, Offered entries x := fun x => by
    by_contra hx
    exact hall ⟨x, hx⟩
  refine h.pages (k - BitVec.ofNat 32 (k.toNat % 4096)) ?_ (fun x _ => hoffered x) k ?_ hk
  · bv_omega
  · simp only [InFrame]
    bv_omega

/-- The physical map after boot is the import; loading the layout does not touch it. -/
theorem bootMemory_pm {fuel : ℕ} {info : MultibootInfo} {mem : ByteMem 32} {layout : Layout}
    {memory : BootMemory}
    (hlaid : MmapLaidOut mem (info.mmapAddr + info.mmapLength) info.mmapAddr entries)
    (hfuel : entries.length ≤ fuel) (hboot : bootMemory fuel info mem layout = some memory) :
    memory.pm = addRanges allocatorMapInit (importedRanges entries) := by
  unfold bootMemory multibootCopyMemMapToAllocator at hboot
  split at hboot
  · cases hboot
  · rw [copyMemMapFrom_eq _ _ _ _ _ _ hfuel hlaid] at hboot
    obtain ⟨pm, hpm, hload⟩ := Option.bind_eq_some_iff.mp hboot
    obtain ⟨vm, _, hmemory⟩ := Option.bind_eq_some_iff.mp hload
    rw [← Option.some.inj hmemory, ← Option.some.inj hpm]

/-- Every state of a run from the import meets the invariant. -/
theorem FrameInv.of_run (hroom : ∃ x, ¬ Offered entries x)
    (hreaches : ∀ r ∈ importedRanges entries, ReachesAligned pageSize r) {s : FrameState}
    (hrun : Relation.ReflTransGen FrameStep
      ⟨addRanges allocatorMapInit (importedRanges entries), ∅⟩ s) : FrameInv entries s := by
  induction hrun with
  | refl =>
    refine ⟨?_, fun frame hframe => hframe.elim⟩
    apply addRanges_inside hroom _ _ (by simp [allocatorMapInit])
    exact fun r hr => ⟨fun y hy => ⟨r, hr, hy⟩, hreaches r hr⟩
  | tail _ hstep ih => exact ih.step hroom hstep

/-- If the firmware does not offer the kernel's memory, no run of allocating and freeing frames
returns a frame that meets the kernel. -/
theorem frames_avoid_kernel (fuel : ℕ) (info : MultibootInfo) (mem : ByteMem 32) (layout : Layout)
    (entries : List MmapEntry) (memory : BootMemory) (s : FrameState)
    (hlaid : MmapLaidOut mem (info.mmapAddr + info.mmapLength) info.mmapAddr entries)
    (hfuel : entries.length ≤ fuel) (hboot : bootMemory fuel info mem layout = some memory)
    (hkernel : KernelNotOffered entries layout)
    (hrun : Relation.ReflTransGen FrameStep ⟨memory.pm, ∅⟩ s) (numFrames : Word)
    (hnum : numFrames.toNat < 2 ^ 20) :
    ∀ frame ∈ framesReturned s.pm numFrames, ∀ x, InFrame frame x → ¬ InKernel layout x := by
  intro frame hframe x hx hk
  have hroom := hkernel.exists_not_offered hk
  rw [bootMemory_pm hlaid hfuel hboot] at hrun
  have hinv := FrameInv.of_run hroom hkernel.reaches hrun
  obtain ⟨hdvd, hoffered⟩ := (kmemFramesAlloc_inside hinv.regions hnum).1 frame hframe
  exact hkernel.pages frame hdvd hoffered x hx hk

/-- The layout of a kernel linked at three gigabytes with a four-megabyte boot area. -/
def bootLayout : Layout := ⟨0xC0000000, 0xC0400000⟩

/-- The virtual space loaded for that layout. -/
def bootVm : VmSpace :=
  ⟨[], [⟨⟨0x1000, 0xBFFFF000⟩, allocVmUser⟩, ⟨⟨0xC0400000, 0x3FC00000⟩, allocVmKernel⟩]⟩

/-- One entry: a megabyte of available memory after the boot area. -/
def clearMemoryBytes : ByteMem 32 :=
  bytesAt9000 [20, 0, 0, 0, 0, 0, 0x40, 0, 0, 0, 0, 0, 0, 0, 0x10, 0, 0, 0, 0, 0, 1, 0, 0, 0]

/-- One entry: 127 megabytes of available memory from one megabyte on. -/
def extendedMemoryBytes : ByteMem 32 :=
  bytesAt9000 [20, 0, 0, 0, 0, 0, 0x10, 0, 0, 0, 0, 0, 0, 0, 0xF0, 7, 0, 0, 0, 0, 1, 0, 0, 0]

theorem clearMemory_kernelNotOffered :
    KernelNotOffered [⟨20, 0x400000, 0x100000, 1⟩] bootLayout := by
  have hranges : importedRanges [⟨20, 0x400000, 0x100000, 1⟩] = [⟨0x400000, 0x100000⟩] := by decide
  refine ⟨by rw [hranges]; decide, fun frame _ hoffered x hx hkernel => ?_⟩
  obtain ⟨r, hr, hreach⟩ := hoffered x hx
  rw [hranges, List.mem_singleton] at hr
  have hend := hkernel.2
  rw [hr] at hreach
  simp only [Range.Reaches] at hreach
  simp only [bootLayout, Layout.physicalAddress] at hend
  bv_omega

/-- With memory offered only past the boot area, the first frame is clear of the kernel. -/
theorem frames_avoid_kernel_clear :
    0x400000 ∈ framesReturned [⟨⟨0x400000, 0x100000⟩, allocPmNormal⟩] 1 ∧
      ¬ InKernel bootLayout 0x400000 := by
  have hlaid : MmapLaidOut clearMemoryBytes (0x9000 + 24) 0x9000 [⟨20, 0x400000, 0x100000, 1⟩] :=
    ⟨by decide, by decide, by unfold MmapLaidOut; decide⟩
  have hreturned : 0x400000 ∈ framesReturned [⟨⟨0x400000, 0x100000⟩, allocPmNormal⟩] 1 :=
    ⟨by decide, 0, by decide, by decide⟩
  exact ⟨hreturned, frames_avoid_kernel 2 ⟨0x40, 24, 0x9000⟩ clearMemoryBytes bootLayout
    [⟨20, 0x400000, 0x100000, 1⟩] ⟨bootVm, [⟨⟨0x400000, 0x100000⟩, allocPmNormal⟩]⟩ _ hlaid
    (by decide) rfl clearMemory_kernelNotOffered Relation.ReflTransGen.refl 1 (by decide) 0x400000
    hreturned 0x400000 (by unfold InFrame; decide)⟩

/-- Where memory from one megabyte on is offered, the second frame is the kernel's first. -/
theorem frames_meet_kernel :
    MmapLaidOut extendedMemoryBytes (0x9000 + 24) 0x9000 [⟨20, 0x100000, 0x7F00000, 1⟩] ∧
      bootMemory 2 ⟨0x40, 24, 0x9000⟩ extendedMemoryBytes bootLayout =
        some ⟨bootVm, [⟨⟨0x100000, 0x7F00000⟩, allocPmNormal⟩]⟩ ∧
      (∃ held, Relation.ReflTransGen FrameStep ⟨[⟨⟨0x100000, 0x7F00000⟩, allocPmNormal⟩], ∅⟩
        ⟨[⟨⟨0x101000, 0x7EFF000⟩, allocPmNormal⟩], held⟩) ∧
      0x101000 ∈ framesReturned [⟨⟨0x101000, 0x7EFF000⟩, allocPmNormal⟩] 1 ∧
      InKernel bootLayout 0x101000 := by
  refine ⟨⟨by decide, by decide, by unfold MmapLaidOut; decide⟩, rfl,
    ⟨_, Relation.ReflTransGen.single (FrameStep.alloc _ 1 (by decide))⟩,
    ⟨by decide, 0, by decide, by decide⟩, by decide⟩

end ChrisOS.Boot
