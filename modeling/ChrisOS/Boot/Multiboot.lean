import ChrisOS.Mm.Kmem
import ChrisOS.Mm.RegionImage
import ChrisOS.Lib.ByteMem

/-!
# Importing the firmware's memory map

`multiboot_copy_mem_map_to_allocator` walks the packed entries the boot loader left in memory
and offers the available ones to the physical allocator. Entries carry 64-bit addresses and
lengths, the allocator takes 32-bit ones: the call drops the upper halves. What the import
can vouch for is therefore a question about the truncated entries.

The other parts of the multiboot information, and its relocation before the import, are
left out.
-/

namespace ChrisOS.Boot

open ChrisOS.Utils ChrisOS.Lib ChrisOS.Mm

/-- `struct multiboot_mmap_entry`. -/
structure MmapEntry where
  size : BitVec 32
  addr : BitVec 64
  len : BitVec 64
  type : BitVec 32
deriving DecidableEq, Repr

/-- The fields of the multiboot information that describe the memory map. -/
structure MultibootInfo where
  flags : Word
  mmapLength : Word
  mmapAddr : Word
deriving DecidableEq, Repr

/-- `MULTIBOOT_MEMORY_AVAILABLE`. -/
def multibootMemoryAvailable : BitVec 32 := 1

/-- `MULTIBOOT_INFO_MEM_MAP`. -/
def multibootInfoMemMap : Word := 0x40

/-- The packed entry at an address. -/
def readMmapEntry (mem : ByteMem 32) (cur : Word) : MmapEntry :=
  ⟨load32 mem cur, load64 mem (cur + 4), load64 mem (cur + 12), load32 mem (cur + 20)⟩

/-- The body of the walk: offer an available entry, less the first page of memory. -/
def importEntry (pm : AllocatorMap) (mmap : MmapEntry) : AllocatorMap :=
  if mmap.type = multibootMemoryAvailable then
    if mmap.addr ≠ 0 then
      kernPmAllocRegionAdd pm (mmap.addr.setWidth 32) (mmap.len.setWidth 32) allocPmNormal
    else if mmap.len > 4096 then
      kernPmAllocRegionAdd pm ((mmap.addr + 4096).setWidth 32) ((mmap.len - 4096).setWidth 32)
        allocPmNormal
    else pm
  else pm

/-- The walk over the entries; `none` means that it was not done within `fuel` entries. -/
def copyMemMapFrom (mem : ByteMem 32) (mmapEnd : Word) : ℕ → Word → AllocatorMap → Option AllocatorMap
  | 0, cur, pm => if cur < mmapEnd then none else some pm
  | fuel + 1, cur, pm =>
    if cur < mmapEnd then
      let mmap := readMmapEntry mem cur
      copyMemMapFrom mem mmapEnd fuel (cur + (mmap.size + 4)) (importEntry pm mmap)
    else some pm

/-- `multiboot_copy_mem_map_to_allocator`; a failed assertion is `none` too. -/
def multibootCopyMemMapToAllocator (fuel : ℕ) (info : MultibootInfo) (mem : ByteMem 32)
    (pm : AllocatorMap) : Option AllocatorMap :=
  if info.flags &&& multibootInfoMemMap = 0 then none
  else copyMemMapFrom mem (info.mmapAddr + info.mmapLength) fuel info.mmapAddr pm

/-- The entries lie one after the other in memory, each ending where its size field says. -/
def MmapLaidOut (mem : ByteMem 32) (mmapEnd : Word) : Word → List MmapEntry → Prop
  | cur, [] => cur = mmapEnd
  | cur, mmap :: rest =>
    readMmapEntry mem cur = mmap ∧ cur.toNat + (mmap.size.toNat + 4) ≤ mmapEnd.toNat ∧
      MmapLaidOut mem mmapEnd (cur + (mmap.size + 4)) rest

/-- The range offered to the allocator for an entry: what the walk's body adds to an empty map. -/
def MmapEntry.imported (mmap : MmapEntry) : Option Range :=
  (importEntry allocatorMapInit mmap).head?.map (·.toRange)

/-- The ranges offered for a list of entries. -/
def importedRanges (entries : List MmapEntry) : List Range := entries.filterMap MmapEntry.imported

/-- The entry is available memory at the physical address `x`, and is not one that starts at
zero if `x` is in the first page. -/
def MmapEntry.Backs (mmap : MmapEntry) (x : Word) : Prop :=
  mmap.type = multibootMemoryAvailable ∧ mmap.addr.toNat ≤ x.toNat ∧
    x.toNat < mmap.addr.toNat + mmap.len.toNat ∧ (x.toNat < 4096 → mmap.addr ≠ 0)

/-- Everything the map covers is backed by an entry. -/
def ImportSound (entries : List MmapEntry) (pm : AllocatorMap) : Prop :=
  ∀ x, Reached pm x → ∃ mmap ∈ entries, mmap.Backs x

/-- Every address of every truncated entry is backed by an entry. -/
def ImagesBacked (entries : List MmapEntry) : Prop :=
  ∀ r ∈ importedRanges entries, ∀ x, r.Reaches x → ∃ mmap ∈ entries, mmap.Backs x

/-- Adding the ranges offered for a list of entries. -/
def addRanges (pm : AllocatorMap) (ranges : List Range) : AllocatorMap :=
  ranges.foldl (fun pm r => allocatorRegionAdd pm ⟨r, allocPmNormal⟩) pm

/-- The walk's body adds the range offered for the entry. -/
theorem importEntry_eq (pm : AllocatorMap) (mmap : MmapEntry) :
    importEntry pm mmap = addRanges pm mmap.imported.toList := by
  unfold MmapEntry.imported importEntry
  by_cases htype : mmap.type = multibootMemoryAvailable
  · rw [if_pos htype, if_pos htype]
    by_cases haddr : mmap.addr ≠ 0
    · rw [if_pos haddr, if_pos haddr]
      rfl
    · rw [if_neg haddr, if_neg haddr]
      by_cases hlen : mmap.len > 4096
      · rw [if_pos hlen, if_pos hlen]
        rfl
      · rw [if_neg hlen, if_neg hlen]
        rfl
  · rw [if_neg htype, if_neg htype]
    rfl

/-- On entries that are laid out in memory the walk adds the range of each, in order. -/
theorem copyMemMapFrom_eq (mem : ByteMem 32) (mmapEnd : Word) (entries : List MmapEntry) (fuel : ℕ)
    (cur : Word) (pm : AllocatorMap) (hfuel : entries.length ≤ fuel)
    (hlaid : MmapLaidOut mem mmapEnd cur entries) :
    copyMemMapFrom mem mmapEnd fuel cur pm = some (addRanges pm (importedRanges entries)) := by
  induction entries generalizing fuel cur pm with
  | nil =>
    have hdone : ¬ cur < mmapEnd := by
      rw [show cur = mmapEnd from hlaid]
      exact BitVec.lt_irrefl mmapEnd
    cases fuel <;> rw [copyMemMapFrom, if_neg hdone] <;> rfl
  | cons mmap rest ih =>
    obtain ⟨hread, hend, hrest⟩ := hlaid
    cases fuel with
    | zero => exact absurd hfuel (by simp)
    | succ fuel =>
      have hmore : cur < mmapEnd := by bv_omega
      have hfuel' : rest.length ≤ fuel := by simpa using hfuel
      rw [copyMemMapFrom, if_pos hmore]
      simp only [hread]
      rw [ih fuel _ _ hfuel' hrest, importEntry_eq]
      cases himported : mmap.imported <;>
        simp [addRanges, importedRanges, himported]

/-- Adding ranges covers only what the map or a range covered. -/
theorem addRanges_reached (ranges : List Range) (pm : AllocatorMap) (x : Word)
    (hx : Reached (addRanges pm ranges) x) : Reached pm x ∨ ∃ r ∈ ranges, r.Reaches x := by
  induction ranges generalizing pm with
  | nil => exact Or.inl hx
  | cons r rest ih =>
    obtain hx | ⟨q, hq, hqx⟩ := ih _ hx
    · obtain hx | hx := add_reached _ _ _ x hx
      · exact Or.inl hx
      · exact Or.inr ⟨r, List.mem_cons_self, hx⟩
    · exact Or.inr ⟨q, List.mem_cons_of_mem _ hq, hqx⟩

/-- Adding ranges covers all of them while the sizes together do not wrap. -/
theorem reached_addRanges (ranges : List Range) (pm : AllocatorMap)
    (hsum : totalSize pm + (ranges.map fun r => r.size.toNat).sum < 2 ^ 32) (x : Word)
    (hx : Reached pm x ∨ ∃ r ∈ ranges, r.Reaches x) : Reached (addRanges pm ranges) x := by
  induction ranges generalizing pm with
  | nil =>
    obtain hx | ⟨r, hr, _⟩ := hx
    · exact hx
    · cases hr
  | cons r rest ih =>
    rw [List.map_cons, List.sum_cons] at hsum
    obtain ⟨htotal, hkeep⟩ := reached_add allocatorRegionPreMerge pm ⟨r, allocPmNormal⟩
      (by rw [totalSize_cons]; change r.size.toNat + totalSize pm < 2 ^ 32; omega)
    have hsize : totalSize (add allocatorRegionPreMerge pm ⟨r, allocPmNormal⟩) ≤
        r.size.toNat + totalSize pm := by
      rw [totalSize_cons] at htotal
      exact htotal
    apply ih (allocatorRegionAdd pm ⟨r, allocPmNormal⟩)
      (by change totalSize (add _ _ _) + _ < _; omega)
    obtain hx | ⟨q, hq, hqx⟩ := hx
    · exact Or.inl (hkeep x ((reached_cons _ _ x).mpr (Or.inr hx)))
    · obtain rfl | hq := List.mem_cons.mp hq
      · exact Or.inl (hkeep x ((reached_cons _ _ x).mpr (Or.inl hqx)))
      · exact Or.inr ⟨q, hq, hqx⟩

/-- An entry that ends within the 32-bit space loses nothing by truncation. -/
theorem MmapEntry.backs_of_imported {mmap : MmapEntry} {r : Range} (h : mmap.imported = some r)
    (hend : mmap.addr.toNat + mmap.len.toNat ≤ 2 ^ 32) (x : Word) (hx : r.Reaches x) :
    mmap.Backs x := by
  unfold MmapEntry.imported importEntry at h
  split at h
  · next htype =>
    refine ⟨htype, ?_⟩
    split at h
    · next haddr =>
      cases h
      simp only [Range.Reaches] at hx
      exact ⟨by bv_omega, by bv_omega, fun _ => haddr⟩
    · next haddr =>
      split at h
      · next hlen =>
        have hr := Option.some.inj h
        have hzero : mmap.addr = 0 := by simpa using haddr
        rw [← hr] at hx
        simp only [Range.Reaches, hzero] at hx
        rw [hzero] at hend ⊢
        exact ⟨by bv_omega, by bv_omega, fun hlow => absurd hlow (by bv_omega)⟩
      · cases h
  · cases h

/-- Truncation does no harm to maps that end within the 32-bit space. -/
theorem imagesBacked_of_le (entries : List MmapEntry)
    (h : ∀ mmap ∈ entries, mmap.addr.toNat + mmap.len.toNat ≤ 2 ^ 32) : ImagesBacked entries := by
  intro r hr x hx
  obtain ⟨mmap, hmmap, himported⟩ := List.mem_filterMap.mp hr
  exact ⟨mmap, hmmap, mmap.backs_of_imported himported (h mmap hmmap) x hx⟩

/-- The import covers only available memory if every truncated entry is backed by entries, and,
as long as the imported sizes together stay below `2 ^ 32`, only then. -/
theorem multiboot_import_sound (fuel : ℕ) (info : MultibootInfo) (mem : ByteMem 32)
    (entries : List MmapEntry) (hflags : info.flags &&& multibootInfoMemMap ≠ 0)
    (hlaid : MmapLaidOut mem (info.mmapAddr + info.mmapLength) info.mmapAddr entries)
    (hfuel : entries.length ≤ fuel) :
    ∃ pm, multibootCopyMemMapToAllocator fuel info mem allocatorMapInit = some pm ∧
      (ImagesBacked entries → ImportSound entries pm) ∧
      (((importedRanges entries).map fun r => r.size.toNat).sum < 2 ^ 32 →
        (ImportSound entries pm ↔ ImagesBacked entries)) := by
  have hempty : ∀ x, ¬ Reached allocatorMapInit x := by simp [Reached, allocatorMapInit]
  have hsound : ImagesBacked entries →
      ImportSound entries (addRanges allocatorMapInit (importedRanges entries)) := by
    intro hbacked x hx
    obtain hx | ⟨r, hr, hrx⟩ := addRanges_reached _ _ x hx
    · exact absurd hx (hempty x)
    · exact hbacked r hr x hrx
  refine ⟨_, ?_, hsound, fun hsum => ⟨fun himport r hr x hrx => ?_, hsound⟩⟩
  · rw [multibootCopyMemMapToAllocator, if_neg hflags, copyMemMapFrom_eq _ _ _ _ _ _ hfuel hlaid]
  · apply himport x
    apply reached_addRanges _ _ _ x (Or.inr ⟨r, hr, hrx⟩)
    simpa [totalSize, allocatorMapInit] using hsum

/-- A memory with the given bytes from `0x9000` on. -/
def bytesAt9000 (bytes : List (BitVec 8)) : ByteMem 32 := fun a => bytes.getD (a.toNat - 0x9000) 0

/-- One entry: a megabyte of available memory at one megabyte. -/
def lowMemoryBytes : ByteMem 32 :=
  bytesAt9000 [20, 0, 0, 0, 0, 0, 0x10, 0, 0, 0, 0, 0, 0, 0, 0x10, 0, 0, 0, 0, 0, 1, 0, 0, 0]

/-- One entry: a gigabyte of available memory at four gigabytes. -/
def highMemoryBytes : ByteMem 32 :=
  bytesAt9000 [20, 0, 0, 0, 0, 0, 0, 0, 1, 0, 0, 0, 0, 0, 0, 0x40, 0, 0, 0, 0, 1, 0, 0, 0]

/-- The import of a map below four gigabytes is sound. -/
theorem multiboot_import_sound_low :
    ∃ pm, multibootCopyMemMapToAllocator 1 ⟨0x40, 24, 0x9000⟩ lowMemoryBytes allocatorMapInit =
        some pm ∧ ImportSound [⟨20, 0x100000, 0x100000, 1⟩] pm := by
  have hlaid : MmapLaidOut lowMemoryBytes (0x9000 + 24) 0x9000 [⟨20, 0x100000, 0x100000, 1⟩] :=
    ⟨by decide, by decide, by unfold MmapLaidOut; decide⟩
  obtain ⟨pm, himport, hsound, _⟩ := multiboot_import_sound 1 ⟨0x40, 24, 0x9000⟩ lowMemoryBytes
    [⟨20, 0x100000, 0x100000, 1⟩] (by decide) hlaid (by decide)
  exact ⟨pm, himport, hsound (imagesBacked_of_le _ (by decide))⟩

/-- Memory at four gigabytes is imported as memory at zero, which no entry backs. -/
theorem multiboot_import_unsound_high :
    MmapLaidOut highMemoryBytes (0x9000 + 24) 0x9000 [⟨20, 0x100000000, 0x40000000, 1⟩] ∧
      ∃ pm, multibootCopyMemMapToAllocator 1 ⟨0x40, 24, 0x9000⟩ highMemoryBytes allocatorMapInit =
        some pm ∧ ¬ ImportSound [⟨20, 0x100000000, 0x40000000, 1⟩] pm := by
  refine ⟨⟨by decide, by decide, by unfold MmapLaidOut; decide⟩,
    [⟨⟨0, 0x40000000⟩, allocPmNormal⟩], by decide, fun hsound => ?_⟩
  obtain ⟨mmap, hmmap, _, hlo, _⟩ := hsound 0 ⟨_, List.mem_singleton_self _, by decide⟩
  rw [List.mem_singleton.mp hmmap] at hlo
  exact absurd hlo (by decide)

end ChrisOS.Boot
