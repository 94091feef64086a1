import ChrisOS.Mm.Allocator

/-!
# Kernel memory management

The address-space part of `mm/kmem.c` with `mm/vm_map.c`: the kernel's virtual address space
is a map of free virtual regions and a map of regions in use, and physical frames come from
a third map. Page tables and the wiring of frames to virtual pages use the addresses these
functions return but do not change the three maps.
-/

namespace ChrisOS.Mm

open ChrisOS.Utils ChrisOS.Lib

/-- `struct vm_map`: the regions in use, sorted by start address. They have no attributes. -/
abbrev VmMap := List (Region Unit)

/-- Adjacent regions in use are never merged, so each keeps the size it was allocated with. -/
def vmMapRegionPreMerge (_ _ : Region Unit) : Bool := false

/-- Add a region in use. -/
def vmMapRegionAddNew (map : VmMap) (addr size : Word) : VmMap :=
  add vmMapRegionPreMerge map ⟨⟨addr, size⟩, ()⟩

/-- Unlink the first region that starts at `addr`. -/
def vmMapRegionRemove (map : VmMap) (addr : Word) : VmMap :=
  map.eraseP fun region => region.address = addr

/-- The maps of `struct vm_space`. -/
structure VmSpace where
  vmMap : VmMap
  vmAllocMap : AllocatorMap
deriving DecidableEq, Repr

/-- The fields of `struct layout` that memory management reads. -/
structure Layout where
  segmentStart : Word
  memoryEnd : Word
deriving DecidableEq, Repr

/-- The physical address of a kernel address. -/
def Layout.physicalAddress (layout : Layout) (kernelAddress : Word) : Word :=
  kernelAddress - layout.segmentStart

/-- The kernel's space before the layout is loaded. -/
def vmSpaceInit : VmSpace := ⟨[], allocatorMapInit⟩

/-- `MAX_VA`. -/
def maxVa : Word := BitVec.allOnes 32

/-- `kmem_load_layout`: offer the user and kernel halves, then take out the boot area. -/
def kmemLoadLayout (fuel : ℕ) (layout : Layout) (space : VmSpace) : Option VmSpace :=
  let user := allocatorRegionAddNew space.vmAllocMap pageSize (layout.segmentStart - pageSize)
    allocVmUser
  let both := allocatorRegionAddNew user layout.segmentStart (maxVa - layout.segmentStart + 1)
    allocVmKernel
  (allocatorRangeAcquire fuel both layout.segmentStart
    (layout.memoryEnd - layout.segmentStart)).map fun map => { space with vmAllocMap := map }

/-- `kmem_vm_alloc`: the address, or zero when no kernel region has room. -/
def kmemVmAlloc (space : VmSpace) (size : Word) : Word × VmSpace :=
  match allocatorMemAlloc space.vmAllocMap size 0 allocVmKernel with
  | some (addr, map) => (addr, ⟨vmMapRegionAddNew space.vmMap addr size, map⟩)
  | none => (0, space)

/-- `kmem_vm_free`; `none` is the double-free panic. -/
def kmemVmFree (space : VmSpace) (addr : Word) : Option VmSpace :=
  (findAddress space.vmMap addr).map fun region =>
    ⟨vmMapRegionRemove space.vmMap addr,
      allocatorMemFree space.vmAllocMap addr region.size allocVmKernel⟩

/-- `kmem_vm_get_size`; `none` is the `false` result. -/
def kmemVmGetSize (space : VmSpace) (addr : Word) : Option Word :=
  (findAddress space.vmMap addr).map fun region => region.size

/-- `kern_pm_alloc_region_add`. -/
def kernPmAllocRegionAdd (pm : AllocatorMap) (start size : Word) (flags : AllocRegionFlags) :
    AllocatorMap :=
  allocatorRegionAddNew pm start size flags

/-- `kmem_frames_alloc`: the physical address, or zero. -/
def kmemFramesAlloc (pm : AllocatorMap) (numFrames : Word) : Word × AllocatorMap :=
  match allocatorMemAlloc pm (pageSize * numFrames) pageSize allocPmNormal with
  | some (addr, map) => (addr, map)
  | none => (0, pm)

/-- `kmem_frames_free`. -/
def kmemFramesFree (pm : AllocatorMap) (addr numFrames : Word) : AllocatorMap :=
  allocatorMemFree pm addr (pageSize * numFrames) allocPmNormal

/-- The bytes asked for by fewer than `2 ^ 20` frames. -/
theorem toNat_pageSize_mul {numFrames : Word} (h : numFrames.toNat < 2 ^ 20) :
    (pageSize * numFrames).toNat = 4096 * numFrames.toNat := by
  rw [BitVec.toNat_mul]
  exact Nat.mod_eq_of_lt (show 4096 * numFrames.toNat < 2 ^ 32 by omega)

/-- The test of `vm_map` joins nothing. -/
theorem vmMapRegionPreMerge_decides : DecidesJoin vmMapRegionPreMerge fun _ _ => False :=
  ⟨fun a b => by simp [vmMapRegionPreMerge], fun _ _ h => h.elim⟩

/-- Finding and removing by address act on one and the same region. -/
theorem findAddress_eq_some {map : VmMap} {addr : Word} {region : Region Unit}
    (h : findAddress map addr = some region) :
    region.address = addr ∧ ∃ pre post, map = pre ++ region :: post ∧
      vmMapRegionRemove map addr = pre ++ post := by
  obtain ⟨haddr, pre, post, rfl, hpre⟩ := List.find?_eq_some_iff_append.mp h
  refine ⟨by simpa using haddr, pre, post, rfl, ?_⟩
  have hnone : ∀ a ∈ pre, ¬ decide (a.address = addr) = true := by simpa using hpre
  rw [vmMapRegionRemove, List.eraseP_append_right _ hnone,
    List.eraseP_cons_of_pos (p := fun b : Region Unit => decide (b.address = addr)) haddr]

/-- A region in use is linked in front of the first one with a greater address. -/
theorem vmMapRegionAddNew_cons (cur : Region Unit) (rest : VmMap) (addr size : Word) :
    vmMapRegionAddNew (cur :: rest) addr size =
      if addr < cur.address then ⟨⟨addr, size⟩, ()⟩ :: cur :: rest
      else cur :: vmMapRegionAddNew rest addr size := by
  have hmerge : merge vmMapRegionPreMerge cur ⟨⟨addr, size⟩, ()⟩ = none := rfl
  simp only [vmMapRegionAddNew, add, hmerge]

/-- Adding a region in use links it somewhere and changes no other. -/
theorem vmMapRegionAddNew_perm (map : VmMap) (addr size : Word) :
    (vmMapRegionAddNew map addr size).Perm (⟨⟨addr, size⟩, ()⟩ :: map) := by
  induction map with
  | nil => exact List.Perm.refl _
  | cons cur rest ih =>
    rw [vmMapRegionAddNew_cons]
    split
    · exact List.Perm.refl _
    · exact (ih.cons cur).trans (List.Perm.swap _ _ _)

section AddRemove

variable {map : VmMap} {a b : Word} (size : Word)

/-- A region in use is found at its address. -/
theorem findAddress_addNew_self (h : ∀ r ∈ map, r.address ≠ a) :
    findAddress (vmMapRegionAddNew map a size) a = some ⟨⟨a, size⟩, ()⟩ := by
  induction map with
  | nil => simp [vmMapRegionAddNew, add, findAddress]
  | cons cur rest ih =>
    obtain ⟨hcur, hrest⟩ := List.forall_mem_cons.mp h
    rw [vmMapRegionAddNew_cons]
    split
    · simp [findAddress]
    · rw [findAddress, List.find?_cons_of_neg (by simpa using hcur)]
      exact ih hrest

/-- Adding a region in use hides no region at another address. -/
theorem findAddress_addNew_of_ne (h : a ≠ b) :
    findAddress (vmMapRegionAddNew map b size) a = findAddress map a := by
  induction map with
  | nil => simp [vmMapRegionAddNew, add, findAddress, h.symm]
  | cons cur rest ih =>
    rw [vmMapRegionAddNew_cons]
    split
    · rw [findAddress, List.find?_cons_of_neg (by simpa using h.symm)]
      rfl
    · unfold findAddress at ih ⊢
      rw [List.find?_cons, List.find?_cons, ih]

/-- Adding a region in use and removing it again. -/
theorem vmMapRegionRemove_addNew_self (h : ∀ r ∈ map, r.address ≠ a) :
    vmMapRegionRemove (vmMapRegionAddNew map a size) a = map := by
  induction map with
  | nil => simp [vmMapRegionAddNew, add, vmMapRegionRemove]
  | cons cur rest ih =>
    obtain ⟨hcur, hrest⟩ := List.forall_mem_cons.mp h
    rw [vmMapRegionAddNew_cons]
    split
    · simp [vmMapRegionRemove]
    · rw [vmMapRegionRemove, List.eraseP_cons_of_neg (by simpa using hcur)]
      exact congrArg (cur :: ·) (ih hrest)

/-- Removing a region in use that a later one has been added after. -/
theorem vmMapRegionRemove_addNew_of_lt (h : a < b) :
    vmMapRegionRemove (vmMapRegionAddNew map b size) a =
      vmMapRegionAddNew (vmMapRegionRemove map a) b size := by
  have hne : b ≠ a := (BitVec.ne_of_lt h).symm
  induction map with
  | nil => simp [vmMapRegionAddNew, add, vmMapRegionRemove, hne]
  | cons cur rest ih =>
    by_cases hcur : cur.address = a
    · -- the new region passes the one that is removed
      have hpass : ¬ b < cur.address := by
        rw [hcur]
        exact BitVec.not_lt.mpr (BitVec.le_of_lt h)
      rw [vmMapRegionAddNew_cons, if_neg hpass]
      simp [vmMapRegionRemove, hcur]
    · have hkept : vmMapRegionRemove (cur :: rest) a = cur :: vmMapRegionRemove rest a :=
        List.eraseP_cons_of_neg (by simpa using hcur)
      rw [hkept, vmMapRegionAddNew_cons, vmMapRegionAddNew_cons]
      split
      · rw [← hkept]
        exact List.eraseP_cons_of_neg (by simpa using hne)
      · rw [← ih]
        exact List.eraseP_cons_of_neg (by simpa using hcur)

end AddRemove

end ChrisOS.Mm
