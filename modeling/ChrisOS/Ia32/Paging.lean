import ChrisOS.Lib.ByteMem
import ChrisOS.Lib.CountedLoop
import ChrisOS.Utils.Mem

/-!
# Page directories and page tables

`ia32/paging.c`: mapping and unmapping ranges of pages in a page directory, and the translation the
processor makes from the directory and its tables.

Memory is one row of pages, each of 1024 words, by the address at which the kernel reaches the page: the
physical page at `p` is at `p + KERNEL_VMA`. A page directory is a page, and so is a page table; nothing
keeps a directory entry from naming the page of its own directory as a table. Pages from
`kalloc_static` are given in advance. `none` is a panic or a failed assertion.
-/

namespace ChrisOS.Ia32

open ChrisOS.Utils ChrisOS.Lib

/-- `KERNEL_VMA`. -/
def kernelVma : Word := 0xC0000000

/-- `PT_ENTRIES` and `PDT_ENTRIES`. -/
def ptEntries : ℕ := 1024

/-- `I86_PDE_PRESENT` and `I86_PTE_PRESENT`. -/
def present : Word := 1

/-- `I86_PDE_WRITABLE`. -/
def writable : Word := 2

/-- `I86_PDE_USER`. -/
def user : Word := 4

/-- `I86_PDE_4MB`. -/
def large : Word := 0x80

/-- `I86_PDE_FRAME` and `I86_PTE_FRAME`. -/
def frameMask : Word := 0xFFFFF000

/-- `struct page_directory` and `struct page_table`: the words of a page. -/
abbrev Entries := Fin ptEntries → Word

/-- The pages of memory by their addresses, which are multiples of the page size, and the pages
`kalloc_static` will return. -/
structure PagingMemory where
  page : Word → Entries
  staticPages : List Word

/-- `paging_pd_entry_is_present`. -/
def pagingPdEntryIsPresent (e : Word) : Prop := e &&& present ≠ 0

instance (e : Word) : Decidable (pagingPdEntryIsPresent e) := inferInstanceAs (Decidable (_ ≠ _))

/-- `paging_pd_entry_set_flags`. -/
def pagingPdEntrySetFlags (e flags mask : Word) : Word := (e &&& (mask ||| frameMask)) ||| flags

/-- `paging_pd_entry_set_frame`. -/
def pagingPdEntrySetFrame (e frame : Word) : Option Word :=
  if frame &&& ~~~frameMask ≠ 0 then none else some ((e &&& ~~~frameMask) ||| frame)

/-- `paging_pd_entry_get_frame`. -/
def pagingPdEntryGetFrame (e : Word) : Word := e &&& frameMask

/-- `paging_pd_entry_id_for_addr`. -/
def pagingPdEntryIdForAddr (addr : Word) : Fin ptEntries :=
  ⟨(addr / pageSize / 1024).toNat, by
    have : addr.toNat / 4096 / 1024 < 1024 := by omega
    simpa [pageSize, ptEntries, BitVec.toNat_udiv] using this⟩

/-- `paging_pt_entry_id_for_addr`. -/
def pagingPtEntryIdForAddr (addr : Word) : Fin ptEntries :=
  ⟨((addr &&& (pageSize * 1024 - 1)) / pageSize).toNat, by
    have hle : (addr &&& (pageSize * 1024 - 1)).toNat ≤ 4194303 := by
      rw [BitVec.toNat_and]
      exact Nat.and_le_right
    have : (addr &&& (pageSize * 1024 - 1)).toNat / 4096 < 1024 := by omega
    simpa [pageSize, ptEntries, BitVec.toNat_udiv] using this⟩

/-- `paging_pt_for_pd_entry`: where the kernel finds the table, or null. -/
def pagingPtForPdEntry (e : Word) : Word :=
  if pagingPdEntryGetFrame e ≠ 0 then pagingPdEntryGetFrame e + kernelVma else 0

/-- `paging_pd_install_pt`: the new value of the entry. -/
def pagingPdInstallPt (e pt flags : Word) : Option Word :=
  (pagingPdEntrySetFrame e (pt - kernelVma)).map fun e => pagingPdEntrySetFlags e flags 0

/-- `paging_alloc_static_pt`: a page of zeroes. -/
def pagingAllocStaticPt (s : PagingMemory) : Option (Word × PagingMemory) :=
  match s.staticPages with
  | [] => none
  | pt :: rest =>
    some (pt, { s with page := Function.update s.page pt fun _ => 0, staticPages := rest })

/-- Write one entry of a table. -/
def Entries.store (entries : Entries) (i : ℕ) (value : Word) : Option Entries :=
  if h : i < ptEntries then some (Function.update entries ⟨i, h⟩ value) else none

/-- `paging_pt_map`: how many pages were mapped, and the table. -/
def pagingPtMap (entries : Entries) (vaddr baseAddr : Word) (pages : ℕ) (flags : Word) :
    Option (ℕ × Entries) :=
  let ptId := (pagingPtEntryIdForAddr vaddr).val
  let ptEndId := ptId + pages
  let (actualPages, ptEndId) :=
    if ptEndId > ptEntries then (pages - (ptEndId - ptEntries), ptEntries) else (pages, ptEndId)
  (countedLoop (fun i (addr, entries) =>
    (Entries.store entries i (addr ||| flags)).map fun entries => (addr + pageSize, entries))
    ptId (ptEndId - ptId) (baseAddr, entries)).map fun (_, entries) => (actualPages, entries)

/-- `paging_pt_unmap`. -/
def pagingPtUnmap (entries : Entries) (vaddr : Word) (pages : ℕ) : Option Entries :=
  let ptId := (pagingPtEntryIdForAddr vaddr).val
  let ptEndId := ptId + pages
  if ptEndId > ptEntries then none
  else countedLoop (fun i entries => Entries.store entries i 0) ptId (ptEndId - ptId) entries

/-- The part of the loop of `paging_map` that finds the table for an address, or makes one. -/
def pagingMapTable (s : PagingMemory) (pd vaddr : Word) : Option (Word × PagingMemory) :=
  let id := pagingPdEntryIdForAddr vaddr
  let pde := s.page pd id
  let pt := pagingPtForPdEntry pde
  if pt = 0 then
    (pagingAllocStaticPt s).bind fun (pt, s) =>
      if pt = 0 then none
      else
        (pagingPdInstallPt (s.page pd id) pt (present ||| writable ||| user)).map fun e =>
          (pt, { s with page := Function.update s.page pd (Function.update (s.page pd) id e) })
  else if ¬ pagingPdEntryIsPresent pde then none
  else some (pt, s)

/-- The loop of `paging_map`. Neither `vaddr` nor `base_addr` moves; `addr`, which does, is not used. -/
def pagingMapLoop (pd baseAddr vaddr flags : Word) :
    ℕ → PagingMemory → ℕ → Word → Option PagingMemory
  | fuel, s, pages, size =>
    if size = 0 then some s
    else
      match fuel with
      | 0 => none
      | fuel + 1 =>
        (pagingMapTable s pd vaddr).bind fun (pt, s) =>
          let curPages := min pages (ptEntries - (pagingPtEntryIdForAddr vaddr).val)
          (pagingPtMap (s.page pt) vaddr baseAddr curPages flags).bind fun (_, entries) =>
            pagingMapLoop pd baseAddr vaddr flags fuel
              { s with page := Function.update s.page pt entries } (pages - curPages)
              (size - BitVec.ofNat 32 curPages * pageSize)

/-- `paging_map`. -/
def pagingMap (s : PagingMemory) (pd baseAddr size vaddr flags : Word) : Option PagingMemory :=
  if alignAddress vaddr pageSize ≠ vaddr ∨ alignAddress size pageSize ≠ size then none
  else
    let pages := (size / pageSize).toNat
    pagingMapLoop pd baseAddr vaddr flags pages s pages size

/-- The loop of `paging_unmap`, which moves `vaddr` along; the size is asserted to be zero at its end. -/
def pagingUnmapLoop (pd : Word) : ℕ → PagingMemory → ℕ → Word → Word → Option PagingMemory
  | _, s, 0, size, _ => if size = 0 then some s else none
  | 0, _, _ + 1, _, _ => none
  | fuel + 1, s, pages + 1, size, vaddr =>
    let pde := s.page pd (pagingPdEntryIdForAddr vaddr)
    let pt := pagingPtForPdEntry pde
    if pt = 0 ∨ ¬ pagingPdEntryIsPresent pde then none
    else
      let curPages := min (pages + 1) (ptEntries - (pagingPtEntryIdForAddr vaddr).val)
      (pagingPtUnmap (s.page pt) vaddr curPages).bind fun entries =>
        let incr := BitVec.ofNat 32 curPages * pageSize
        pagingUnmapLoop pd fuel { s with page := Function.update s.page pt entries }
          (pages + 1 - curPages) (size - incr) (vaddr + incr)

/-- `paging_unmap`. -/
def pagingUnmap (s : PagingMemory) (pd vaddr size : Word) : Option PagingMemory :=
  if alignAddress vaddr pageSize ≠ vaddr ∨ alignAddress size pageSize ≠ size then none
  else
    let pages := (size / pageSize).toNat
    pagingUnmapLoop pd pages s pages size vaddr

/-- What an entry says of its page: the frame and the flags, if the page is present. -/
def entryPage (e : Word) : Option (Word × Word) :=
  if e &&& present ≠ 0 then some (e &&& frameMask, e &&& ~~~frameMask) else none

/-- The processor's lookup: the frame and the flags of the page an address is in. The frame of a page
of 4 MB is that of the 4 KB part the address is in. -/
def lookup (s : PagingMemory) (pd vaddr : Word) : Option (Word × Word) :=
  let pde := s.page pd (pagingPdEntryIdForAddr vaddr)
  if ¬ pagingPdEntryIsPresent pde then none
  else if pde &&& large ≠ 0 then
    some ((pde &&& 0xFFC00000) ||| (vaddr &&& 0x003FF000), pde &&& ~~~frameMask)
  else
    entryPage (s.page (pagingPdEntryGetFrame pde + kernelVma) (pagingPtEntryIdForAddr vaddr))

/-- The page that a physical address is in, by the address at which the kernel reaches it. -/
def pageOf (addr : Word) : Word := (addr + kernelVma) &&& frameMask

/-- The word of its page that a byte is in. -/
def wordOf (addr : Word) : Fin ptEntries :=
  ⟨addr.toNat % 4096 / 4, by
    have hentries : ptEntries = 1024 := rfl
    omega⟩

/-- One of the four bytes of a word. -/
def byteOfWord (word : Word) (k : ℕ) : BitVec 8 := (word >>> (8 * k)).setWidth 8

/-- A word with one of its bytes replaced. -/
def setByteOfWord (word : Word) (k : ℕ) (value : BitVec 8) : Word :=
  word &&& ~~~((0xFF : Word) <<< (8 * k)) ||| value.setWidth 32 <<< (8 * k)

/-- The bytes of memory, by physical address. -/
def PagingMemory.bytes (s : PagingMemory) : ByteMem 32 := fun addr =>
  byteOfWord (s.page (pageOf addr) (wordOf addr)) (addr.toNat % 4)

/-- Write a byte at a physical address. -/
def PagingMemory.storeByte (s : PagingMemory) (addr : Word) (value : BitVec 8) : PagingMemory :=
  let words := s.page (pageOf addr)
  { s with
    page := Function.update s.page (pageOf addr) (Function.update words (wordOf addr)
      (setByteOfWord (words (wordOf addr)) (addr.toNat % 4) value)) }

/-- The directory entry an address falls under. -/
theorem val_pagingPdEntryIdForAddr (addr : Word) :
    (pagingPdEntryIdForAddr addr).val = addr.toNat / 4194304 := by
  have hdiv : (addr / pageSize / 1024).toNat = addr.toNat / 4096 / 1024 := by
    rw [BitVec.toNat_udiv, BitVec.toNat_udiv]
    rfl
  change (addr / pageSize / 1024).toNat = _
  rw [hdiv]
  omega

/-- The table entry an address falls under. -/
theorem val_pagingPtEntryIdForAddr (addr : Word) :
    (pagingPtEntryIdForAddr addr).val = addr.toNat % 4194304 / 4096 := by
  have hmask : (addr &&& (pageSize * 1024 - 1)).toNat = addr.toNat % 4194304 :=
    toNat_and_mask addr _ 22 rfl
  simp only [pagingPtEntryIdForAddr, BitVec.toNat_udiv, hmask]
  rfl

end ChrisOS.Ia32
