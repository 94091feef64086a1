import ChrisOS.Ia32.Paging

/-!
# What `paging_map` maps

The loop of `paging_map` does not move on: every round writes the entries of the table that `vaddr`
falls under, from `vaddr` on. So the first round decides: of the pages asked for, those under
the same directory entry as `vaddr` are mapped as they should be, and the others keep the translation
they had. All this is so for a directory that is none of its own tables: otherwise mapping a page writes a
directory entry.
-/

namespace ChrisOS.Ia32

open ChrisOS.Utils ChrisOS.Lib

section Tables

/-- Writing an entry in range. -/
theorem Entries.store_of_lt (entries : Entries) {i : ℕ} (h : i < ptEntries) (value : Word) :
    entries.store i value = some (Function.update entries ⟨i, h⟩ value) :=
  dif_pos h

/-- The entries of consecutive pages from a base address on, the first at index `ptId`. -/
def pageEntries (baseAddr flags : Word) (ptId : ℕ) : Entries := fun x =>
  (baseAddr + BitVec.ofNat 32 ((x.val - ptId) * 4096)) ||| flags

/-- `paging_pt_map` of pages that are all in the table. -/
theorem pagingPtMap_eq (entries : Entries) (vaddr baseAddr flags : Word) {pages : ℕ}
    (h : (pagingPtEntryIdForAddr vaddr).val + pages ≤ ptEntries) :
    pagingPtMap entries vaddr baseAddr pages flags =
      some (pages, filled (pagingPtEntryIdForAddr vaddr).val
        ((pagingPtEntryIdForAddr vaddr).val + pages)
        (pageEntries baseAddr flags (pagingPtEntryIdForAddr vaddr).val) entries) := by
  rw [pagingPtMap]
  generalize (pagingPtEntryIdForAddr vaddr).val = ptId at h ⊢
  dsimp only
  rw [if_neg (Nat.not_lt.mpr h)]
  dsimp only
  rw [Nat.add_sub_cancel_left]
  let inv (k : ℕ) (r : Word × Entries) : Prop :=
    r.1 = baseAddr + BitVec.ofNat 32 ((k - ptId) * 4096) ∧
      r.2 = filled ptId k (pageEntries baseAddr flags ptId) entries
  have hstart : inv ptId (baseAddr, entries) := by
    refine ⟨?_, (filled_self ptId _ entries).symm⟩
    simp
  have hstep : ∀ k r, ptId ≤ k → k < ptId + pages → inv k r →
      ∃ r', ((Entries.store r.2 k (r.1 ||| flags)).map fun entries => (r.1 + pageSize, entries)) =
        some r' ∧ inv (k + 1) r' := by
    rintro k ⟨addr, result⟩ hk hkn ⟨rfl, rfl⟩
    have hlt : k < ptEntries := Nat.lt_of_lt_of_le hkn h
    refine ⟨_, by rw [Entries.store_of_lt _ hlt, Option.map_some], ?_, ?_⟩
    · have hsucc : (k + 1 - ptId) * 4096 = (k - ptId) * 4096 + 4096 := by omega
      dsimp only
      rw [hsucc, BitVec.ofNat_add, ← BitVec.add_assoc]
      rfl
    · exact update_filled ⟨k, hlt⟩ hk _ _
  obtain ⟨r, hloop, _, hentries⟩ := countedLoop_inv inv hstart hstep
  rw [hloop, Option.map_some, hentries]

/-- `paging_pt_unmap` of pages that are all in the table. -/
theorem pagingPtUnmap_eq (entries : Entries) (vaddr : Word) {pages : ℕ}
    (h : (pagingPtEntryIdForAddr vaddr).val + pages ≤ ptEntries) :
    pagingPtUnmap entries vaddr pages =
      some (filled (pagingPtEntryIdForAddr vaddr).val
        ((pagingPtEntryIdForAddr vaddr).val + pages) (fun _ => 0) entries) := by
  rw [pagingPtUnmap]
  generalize (pagingPtEntryIdForAddr vaddr).val = ptId at h ⊢
  rw [if_neg (Nat.not_lt.mpr h), Nat.add_sub_cancel_left]
  have hstep : ∀ k (r : Entries), ptId ≤ k → k < ptId + pages →
      r = filled ptId k (fun _ => 0) entries →
      ∃ r', r.store k 0 = some r' ∧ r' = filled ptId (k + 1) (fun _ => 0) entries := by
    rintro k _ hk hkn rfl
    have hlt : k < ptEntries := Nat.lt_of_lt_of_le hkn h
    exact ⟨_, Entries.store_of_lt _ hlt _, update_filled ⟨k, hlt⟩ hk _ _⟩
  obtain ⟨r, hloop, rfl⟩ := countedLoop_inv (fun k r => r = filled ptId k (fun _ => 0) entries)
    (filled_self ptId _ entries).symm hstep
  exact hloop

/-- Writing entries that are there already. -/
theorem filled_filled {new old : Entries} {i k m : ℕ} (h : m ≤ k) :
    filled i m new (filled i k new old) = filled i k new old := by
  funext x
  rw [filled]
  split
  · next hx => rw [filled, if_pos ⟨hx.1, Nat.lt_of_lt_of_le hx.2 h⟩]
  · rfl

end Tables

/-- The frame bits of a word are the word rounded down to a page. -/
theorem toNat_and_frameMask (e : Word) : (e &&& frameMask).toNat = e.toNat / 4096 * 4096 :=
  toNat_and_not_mask e 0xFFF 12 rfl

/-- A page-aligned address consists of frame bits. -/
theorem and_frameMask_of_aligned {a : Word} (h : a.toNat % 4096 = 0) : a &&& frameMask = a := by
  apply BitVec.eq_of_toNat_eq
  rw [toNat_and_frameMask]
  omega

/-- A page-aligned address has no flag bits. -/
theorem and_not_frameMask_of_aligned {a : Word} (h : a.toNat % 4096 = 0) : a &&& ~~~frameMask = 0 := by
  rw [← and_frameMask_of_aligned h, BitVec.and_assoc, BitVec.and_not_self]
  exact BitVec.and_zero

/-- Flag bits and frame bits are apart. -/
theorem flags_and_frameMask (e : Word) : e &&& ~~~frameMask &&& frameMask = 0 := by
  rw [BitVec.and_assoc, BitVec.not_and_self]
  exact BitVec.and_zero

/-- An address or a size that is a multiple of the page size is not rounded. -/
theorem alignAddress_pageSize {a : Word} (h : a.toNat % 4096 = 0) : alignAddress a pageSize = a := by
  apply BitVec.eq_of_toNat_eq
  rw [toNat_alignAddress a pageSize 12 rfl]
  omega

/-- The assertions of `paging_map` and `paging_unmap` hold of whole pages. -/
theorem aligned_of_pages {vaddr size : Word} (hvaddr : vaddr.toNat % 4096 = 0)
    (hsize : size.toNat % 4096 = 0) :
    ¬ (alignAddress vaddr pageSize ≠ vaddr ∨ alignAddress size pageSize ≠ size) := by
  rw [alignAddress_pageSize hvaddr, alignAddress_pageSize hsize]
  simp

/-- A word without frame bits consists of flag bits. -/
theorem and_not_frameMask_of_flags {flags : Word} (h : flags &&& frameMask = 0) :
    flags &&& ~~~frameMask = flags := by
  calc flags &&& ~~~frameMask = flags &&& frameMask ||| flags &&& ~~~frameMask := by
        rw [h]
        exact BitVec.zero_or.symm
    _ = flags := by rw [← BitVec.and_or_distrib_left, BitVec.or_not_self, BitVec.and_allOnes]

/-- Bits of an entry that are not frame bits are those of its flags. -/
theorem frame_or_and {frame flags bits : Word} (hframe : frame.toNat % 4096 = 0)
    (hbits : frameMask &&& bits = 0) : (frame ||| flags) &&& bits = flags &&& bits := by
  have hclear : frame &&& bits = 0 := by
    rw [← and_frameMask_of_aligned hframe, BitVec.and_assoc, hbits]
    exact BitVec.and_zero
  rw [BitVec.and_or_distrib_right, hclear]
  exact BitVec.zero_or

/-- The frame bits of an entry are those of its frame. -/
theorem frame_or_and_frameMask {frame flags : Word} (hframe : frame.toNat % 4096 = 0)
    (hflags : flags &&& frameMask = 0) : (frame ||| flags) &&& frameMask = frame := by
  rw [BitVec.and_or_distrib_right, and_frameMask_of_aligned hframe, hflags]
  exact BitVec.or_zero

/-- What the entry of a page says, if the flags are flag bits and say it is present. -/
theorem entryPage_or {frame flags : Word} (hframe : frame.toNat % 4096 = 0)
    (hflags : flags &&& frameMask = 0) (hpresent : flags &&& present ≠ 0) :
    entryPage (frame ||| flags) = some (frame, flags) := by
  rw [entryPage, frame_or_and hframe rfl, if_pos hpresent, frame_or_and_frameMask hframe hflags,
    frame_or_and hframe (BitVec.and_not_self frameMask), and_not_frameMask_of_flags hflags]

section Map

variable {s : PagingMemory} {pd vaddr : Word}

/-- An entry that names a table: it is present, not for a page of 4 MB, and the kernel finds the table at
`pt`. -/
structure NamesTable (e pt : Word) : Prop where
  isPresent : pagingPdEntryIsPresent e
  notLarge : e &&& large = 0
  ptr : pagingPtForPdEntry e = pt
  ptr_ne : pt ≠ 0

/-- The processor finds the table where the kernel does. -/
theorem NamesTable.frame_add {e pt : Word} (h : NamesTable e pt) :
    pagingPdEntryGetFrame e + kernelVma = pt := by
  have hptr := h.ptr
  rw [pagingPtForPdEntry] at hptr
  split at hptr
  · exact hptr
  · exact absurd hptr.symm h.ptr_ne

/-- The lookup of an address under an entry that names a table. -/
theorem NamesTable.lookup_eq {pt x : Word} (h : NamesTable (s.page pd (pagingPdEntryIdForAddr x)) pt) :
    lookup s pd x = entryPage (s.page pt (pagingPtEntryIdForAddr x)) := by
  have hlarge : ¬ s.page pd (pagingPdEntryIdForAddr x) &&& large ≠ 0 := not_not.mpr h.notLarge
  rw [lookup, if_neg (not_not.mpr h.isPresent), if_neg hlarge, h.frame_add]

/-- A directory entry for a table, not for a page of 4 MB. -/
def ForTable (e : Word) : Prop := pagingPdEntryIsPresent e ∧ e &&& large = 0

/-- The table the processor finds for an address. -/
def walkedTable (s : PagingMemory) (pd x : Word) : Word :=
  pagingPdEntryGetFrame (s.page pd (pagingPdEntryIdForAddr x)) + kernelVma

/-- A lookup depends on the directory entry and, if that is for a table, on the table entry. -/
theorem lookup_congr {s' : PagingMemory} {x : Word}
    (hentry : s'.page pd (pagingPdEntryIdForAddr x) = s.page pd (pagingPdEntryIdForAddr x))
    (htable : ForTable (s.page pd (pagingPdEntryIdForAddr x)) →
      s'.page (walkedTable s pd x) (pagingPtEntryIdForAddr x) =
        s.page (walkedTable s pd x) (pagingPtEntryIdForAddr x)) :
    lookup s' pd x = lookup s pd x := by
  rw [lookup, lookup, hentry]
  by_cases hpresent : pagingPdEntryIsPresent (s.page pd (pagingPdEntryIdForAddr x))
  · rw [if_neg (not_not.mpr hpresent), if_neg (not_not.mpr hpresent)]
    by_cases hlarge : s.page pd (pagingPdEntryIdForAddr x) &&& large ≠ 0
    · rw [if_pos hlarge, if_pos hlarge]
    · have hsame := htable ⟨hpresent, not_not.mp hlarge⟩
      rw [walkedTable] at hsame
      rw [if_neg hlarge, if_neg hlarge, hsame]
  · rw [if_pos hpresent, if_pos hpresent]

variable {pt : Word}

/-- `paging_map` uses a table that is there. -/
theorem NamesTable.pagingMapTable_eq (h : NamesTable (s.page pd (pagingPdEntryIdForAddr vaddr)) pt) :
    pagingMapTable s pd vaddr = some (pt, s) := by
  rw [pagingMapTable]
  dsimp only
  rw [h.ptr, if_neg h.ptr_ne, if_neg (not_not.mpr h.isPresent)]

variable {size : Word}

/-- The size left after some of the pages. -/
theorem toNat_sub_pages {pages cur : ℕ} (hsize : size.toNat = pages * 4096) (hcur : cur ≤ pages) :
    (size - BitVec.ofNat 32 cur * pageSize).toNat = (pages - cur) * 4096 := by
  have hlt := size.isLt
  have hmul : (BitVec.ofNat 32 cur * pageSize).toNat = cur * 4096 := by
    rw [BitVec.toNat_mul, BitVec.toNat_ofNat]
    change cur % 2 ^ 32 * 4096 % 2 ^ 32 = _
    rw [Nat.mod_eq_of_lt (by omega : cur < 2 ^ 32), Nat.mod_eq_of_lt (by omega)]
  bv_omega

variable {pages : ℕ}

/-- The number of pages of a size. -/
theorem toNat_div_pageSize (hsize : size.toNat = pages * 4096) : (size / pageSize).toNat = pages := by
  rw [BitVec.toNat_udiv, hsize]
  exact Nat.mul_div_cancel pages (by decide)

/-- The size of some pages is not zero. -/
theorem ne_zero_of_pages (hpos : 0 < pages) (hsize : size.toNat = pages * 4096) : size ≠ 0 := by
  bv_omega

/-- The page at `pt` is the table for an address and nothing else: neither the directory nor the table of
another entry. -/
structure TableFor (s : PagingMemory) (pd vaddr pt : Word) : Prop where
  names : NamesTable (s.page pd (pagingPdEntryIdForAddr vaddr)) pt
  apart : pt ≠ pd
  others : ∀ i, i ≠ pagingPdEntryIdForAddr vaddr → ForTable (s.page pd i) →
    pagingPdEntryGetFrame (s.page pd i) + kernelVma ≠ pt

/-- The table with the entries of as many of the pages as it has room for. -/
def PagingMemory.mapPages (s : PagingMemory) (pt vaddr baseAddr flags : Word) (pages : ℕ) :
    PagingMemory :=
  { s with
    page := Function.update s.page pt (filled (pagingPtEntryIdForAddr vaddr).val
      ((pagingPtEntryIdForAddr vaddr).val + min pages (ptEntries - (pagingPtEntryIdForAddr vaddr).val))
      (pageEntries baseAddr flags (pagingPtEntryIdForAddr vaddr).val) (s.page pt)) }

theorem mapPages_page_self (pt vaddr baseAddr flags : Word) (pages : ℕ) :
    (s.mapPages pt vaddr baseAddr flags pages).page pt =
      filled (pagingPtEntryIdForAddr vaddr).val ((pagingPtEntryIdForAddr vaddr).val +
        min pages (ptEntries - (pagingPtEntryIdForAddr vaddr).val))
        (pageEntries baseAddr flags (pagingPtEntryIdForAddr vaddr).val) (s.page pt) :=
  Function.update_self ..

theorem mapPages_page_of_ne {pt q : Word} (h : q ≠ pt) (vaddr baseAddr flags : Word) (pages : ℕ) :
    (s.mapPages pt vaddr baseAddr flags pages).page q = s.page q :=
  Function.update_of_ne h ..

/-- One round of the loop. -/
theorem pagingMapLoop_round {s₁ : PagingMemory} {baseAddr flags pt size : Word} {fuel pages : ℕ}
    (htable : pagingMapTable s pd vaddr = some (pt, s₁)) (hne : size ≠ 0) :
    pagingMapLoop pd baseAddr vaddr flags (fuel + 1) s pages size =
      pagingMapLoop pd baseAddr vaddr flags fuel (s₁.mapPages pt vaddr baseAddr flags pages)
        (pages - min pages (ptEntries - (pagingPtEntryIdForAddr vaddr).val))
        (size - BitVec.ofNat 32 (min pages (ptEntries - (pagingPtEntryIdForAddr vaddr).val)) *
          pageSize) := by
  have hroom : (pagingPtEntryIdForAddr vaddr).val +
      min pages (ptEntries - (pagingPtEntryIdForAddr vaddr).val) ≤ ptEntries := by
    have := (pagingPtEntryIdForAddr vaddr).isLt
    omega
  rw [pagingMapLoop, if_neg hne, htable, Option.bind_some]
  dsimp only
  rw [pagingPtMap_eq _ _ _ _ hroom, Option.bind_some]
  rfl

/-- Once a table has the entries of the pages, mapping them again changes nothing. -/
theorem pagingMapLoop_done {baseAddr flags pt : Word} {m : ℕ} (hfor : TableFor s pd vaddr pt)
    {fuel pages : ℕ} (hfuel : pages ≤ fuel) (hsize : size.toNat = pages * 4096)
    (hpages : pages ≤ m) :
    pagingMapLoop pd baseAddr vaddr flags fuel (s.mapPages pt vaddr baseAddr flags m) pages size =
      some (s.mapPages pt vaddr baseAddr flags m) := by
  induction fuel generalizing pages size with
  | zero =>
    have hzero : size = 0 := BitVec.eq_of_toNat_eq (by simp; omega)
    rw [pagingMapLoop, if_pos hzero]
  | succ fuel ih =>
    by_cases hne : size = 0
    · rw [pagingMapLoop, if_pos hne]
    · have hentry : NamesTable ((s.mapPages pt vaddr baseAddr flags m).page pd
          (pagingPdEntryIdForAddr vaddr)) pt := by
        rw [mapPages_page_of_ne hfor.apart.symm]
        exact hfor.names
      have hagain : (s.mapPages pt vaddr baseAddr flags m).mapPages pt vaddr baseAddr flags pages =
          s.mapPages pt vaddr baseAddr flags m := by
        simp only [PagingMemory.mapPages, Function.update_self, Function.update_idem]
        rw [filled_filled (by omega)]
      rw [pagingMapLoop_round hentry.pagingMapTable_eq hne, hagain]
      have hpos : pages ≠ 0 := fun hzero => hne (BitVec.eq_of_toNat_eq (by simp; omega))
      have hlt := (pagingPtEntryIdForAddr vaddr).isLt
      refine ih (by omega) (toNat_sub_pages hsize (Nat.min_le_left _ _)) (by omega)

/-- What `paging_map` does, from a table that is there or has just been made. -/
theorem pagingMap_eq {s₁ : PagingMemory} {baseAddr flags pt size : Word}
    (htable : pagingMapTable s pd vaddr = some (pt, s₁)) (hfor : TableFor s₁ pd vaddr pt)
    (hvaddr : vaddr.toNat % 4096 = 0) (hsize : size.toNat = pages * 4096) (hne : size ≠ 0) :
    pagingMap s pd baseAddr size vaddr flags = some (s₁.mapPages pt vaddr baseAddr flags pages) := by
  have hpos : pages ≠ 0 := fun hzero => hne (BitVec.eq_of_toNat_eq (by simp; omega))
  obtain ⟨fuel, rfl⟩ : ∃ n, pages = n + 1 := ⟨pages - 1, by omega⟩
  have hlt := (pagingPtEntryIdForAddr vaddr).isLt
  rw [pagingMap, if_neg (aligned_of_pages hvaddr (by omega)), toNat_div_pageSize hsize]
  dsimp only
  rw [pagingMapLoop_round htable hne]
  exact pagingMapLoop_done hfor (by omega) (toNat_sub_pages hsize (Nat.min_le_left _ _))
    (Nat.sub_le _ _)

/-- Without a table `paging_map` of some pages panics. -/
theorem pagingMap_eq_none {baseAddr flags size : Word} (htable : pagingMapTable s pd vaddr = none)
    (hne : size ≠ 0) : pagingMap s pd baseAddr size vaddr flags = none := by
  rw [pagingMap]
  split
  · rfl
  · dsimp only
    cases (size / pageSize).toNat with
    | zero => rw [pagingMapLoop, if_neg hne]
    | succ pages => rw [pagingMapLoop, if_neg hne, htable, Option.bind_none]

/-- The lookup after as many of the pages as the table has room for have been mapped. -/
theorem TableFor.lookup_mapPages {pt baseAddr flags : Word} (h : TableFor s pd vaddr pt)
    (hvaddr : vaddr.toNat % 4096 = 0) (x : Word) :
    lookup (s.mapPages pt vaddr baseAddr flags pages) pd x =
      if pagingPdEntryIdForAddr x = pagingPdEntryIdForAddr vaddr ∧
          vaddr.toNat ≤ x.toNat ∧ x.toNat < vaddr.toNat + pages * 4096 then
        entryPage ((baseAddr + BitVec.ofNat 32 ((x.toNat - vaddr.toNat) / 4096 * 4096)) ||| flags)
      else lookup s pd x := by
  have hdirectory : (s.mapPages pt vaddr baseAddr flags pages).page pd = s.page pd :=
    mapPages_page_of_ne h.apart.symm ..
  by_cases hx : pagingPdEntryIdForAddr x = pagingPdEntryIdForAddr vaddr
  · have hnames : NamesTable (s.page pd (pagingPdEntryIdForAddr x)) pt := by
      rw [hx]
      exact h.names
    have hnames' := hnames
    rw [← hdirectory] at hnames'
    rw [hnames'.lookup_eq, hnames.lookup_eq, mapPages_page_self, filled, pageEntries]
    have hslot := congrArg Fin.val hx
    have hlt := (pagingPtEntryIdForAddr x).isLt
    rw [val_pagingPdEntryIdForAddr, val_pagingPdEntryIdForAddr] at hslot
    rw [val_pagingPtEntryIdForAddr] at hlt
    simp only [val_pagingPtEntryIdForAddr]
    split
    · have hindex : x.toNat % 4194304 / 4096 - vaddr.toNat % 4194304 / 4096 =
          (x.toNat - vaddr.toNat) / 4096 := by omega
      rw [if_pos ⟨hx, by omega⟩, hindex]
    · rw [if_neg fun hin => by omega]
  · rw [if_neg fun hin => hx hin.1]
    refine lookup_congr (by rw [hdirectory]) fun hentry => ?_
    have hwalked : walkedTable s pd x ≠ pt := h.others _ hx hentry
    rw [mapPages_page_of_ne hwalked]

/-- `paging_pd_entry_set_frame` of an aligned frame. -/
theorem pagingPdEntrySetFrame_eq (e : Word) {frame : Word} (h : frame.toNat % 4096 = 0) :
    pagingPdEntrySetFrame e frame = some ((e &&& ~~~frameMask) ||| frame) :=
  if_neg (not_not.mpr (and_not_frameMask_of_aligned h))

/-- The entry `paging_pd_install_pt` makes for a page of `kalloc_static`. -/
theorem pagingPdInstallPt_eq (e : Word) {pt flags : Word} (hpt : pt.toNat % 4096 = 0) :
    pagingPdInstallPt e pt flags = some ((pt - kernelVma) ||| flags) := by
  have haligned : (pt - kernelVma).toNat % 4096 = 0 := by
    rw [kernelVma]
    bv_omega
  have hmask : (0 : Word) ||| frameMask = frameMask := rfl
  rw [pagingPdInstallPt, pagingPdEntrySetFrame_eq e haligned, Option.map_some, pagingPdEntrySetFlags,
    hmask, BitVec.and_or_distrib_right, flags_and_frameMask, and_frameMask_of_aligned haligned]
  congr 2
  exact BitVec.zero_or

/-- A page `kalloc_static` may return for a table: it is aligned, and neither null nor the page at physical
address zero. -/
structure UsablePage (pt : Word) : Prop where
  aligned : pt.toNat % 4096 = 0
  ne_zero : pt ≠ 0
  ne_first : pt ≠ kernelVma

/-- The entry made for a new table names it. -/
theorem UsablePage.namesTable (h : UsablePage pt) :
    NamesTable ((pt - kernelVma) ||| (present ||| writable ||| user)) pt := by
  have haligned : (pt - kernelVma).toNat % 4096 = 0 := by
    have := h.aligned
    rw [kernelVma]
    bv_omega
  have hne : pt - kernelVma ≠ 0 := fun hzero => h.ne_first (by
    rw [kernelVma] at hzero ⊢
    bv_omega)
  have hflags : (present ||| writable ||| user) &&& frameMask = 0 := rfl
  have hframe := frame_or_and_frameMask haligned hflags
  refine ⟨?_, ?_, ?_, h.ne_zero⟩
  · rw [pagingPdEntryIsPresent, frame_or_and haligned rfl]
    decide
  · rw [frame_or_and haligned rfl]
    rfl
  · rw [pagingPtForPdEntry, pagingPdEntryGetFrame, hframe, if_pos hne, BitVec.sub_add_cancel]

/-- An empty table installed in a directory. -/
def PagingMemory.installTable (s : PagingMemory) (pd : Word) (id : Fin ptEntries) (pt : Word)
    (rest : List Word) : PagingMemory :=
  let page := Function.update s.page pt fun _ => 0
  ⟨Function.update page pd (Function.update (page pd) id
    ((pt - kernelVma) ||| (present ||| writable ||| user))), rest⟩

section Install

variable (id : Fin ptEntries) (rest : List Word) {pt : Word}

theorem installTable_directory (h : pt ≠ pd) : (s.installTable pd id pt rest).page pd =
    Function.update (s.page pd) id ((pt - kernelVma) ||| (present ||| writable ||| user)) := by
  simp only [PagingMemory.installTable, Function.update_self, Function.update_of_ne h.symm]

theorem installTable_table (h : pt ≠ pd) : (s.installTable pd id pt rest).page pt = fun _ => 0 := by
  simp only [PagingMemory.installTable, Function.update_of_ne h, Function.update_self]

theorem installTable_of_ne {q : Word} (hpd : q ≠ pd) (hpt : q ≠ pt) :
    (s.installTable pd id pt rest).page q = s.page q := by
  simp only [PagingMemory.installTable, Function.update_of_ne hpd, Function.update_of_ne hpt]

end Install

/-- `paging_map` makes a table where it finds none. -/
theorem pagingMapTable_new {rest : List Word}
    (hnull : pagingPtForPdEntry (s.page pd (pagingPdEntryIdForAddr vaddr)) = 0)
    (hstatic : s.staticPages = pt :: rest) (hpage : UsablePage pt) :
    pagingMapTable s pd vaddr =
      some (pt, s.installTable pd (pagingPdEntryIdForAddr vaddr) pt rest) := by
  rw [pagingMapTable]
  dsimp only
  rw [if_pos hnull, pagingAllocStaticPt, hstatic]
  dsimp only [Option.bind_some]
  rw [if_neg hpage.ne_zero, pagingPdInstallPt_eq _ hpage.aligned, Option.map_some]
  rfl

/-- A directory on a page of its own: on a page boundary, and no entry names it as a table. -/
structure OwnPage (s : PagingMemory) (pd : Word) : Prop where
  aligned : pd.toNat % 4096 = 0
  unnamed : ∀ i, ForTable (s.page pd i) → pagingPdEntryGetFrame (s.page pd i) + kernelVma ≠ pd

/-- Distinct entries of the directory name distinct tables. -/
def NoSharedTable (s : PagingMemory) (pd : Word) : Prop :=
  ∀ i j, ForTable (s.page pd i) → ForTable (s.page pd j) →
    pagingPdEntryGetFrame (s.page pd i) = pagingPdEntryGetFrame (s.page pd j) → i = j

/-- `kalloc_static` has a page for a table that is not the directory and that no present entry names. -/
structure FreshPage (s : PagingMemory) (pd pt : Word) : Prop where
  usable : UsablePage pt
  apart : pt ≠ pd
  unnamed : ∀ i, pagingPdEntryIsPresent (s.page pd i) →
    pagingPdEntryGetFrame (s.page pd i) + kernelVma ≠ pt

/-- The table of an entry for one. -/
theorem NoSharedTable.tableFor (hdir : NoSharedTable s pd) (hown : OwnPage s pd)
    (hentry : ForTable (s.page pd (pagingPdEntryIdForAddr vaddr)))
    (hptr : pagingPtForPdEntry (s.page pd (pagingPdEntryIdForAddr vaddr)) ≠ 0) :
    TableFor s pd vaddr (pagingPtForPdEntry (s.page pd (pagingPdEntryIdForAddr vaddr))) := by
  have hnames : NamesTable (s.page pd (pagingPdEntryIdForAddr vaddr)) _ :=
    ⟨hentry.1, hentry.2, rfl, hptr⟩
  refine ⟨hnames, ?_, fun i hi hother => ?_⟩
  · rw [← hnames.frame_add]
    exact hown.unnamed _ hentry
  · rw [← hnames.frame_add]
    intro heq
    exact hi (hdir _ _ hother hentry ((BitVec.add_left_inj kernelVma).mp heq))

/-- The table made for an entry. -/
theorem FreshPage.tableFor (h : FreshPage s pd pt) (rest : List Word) :
    TableFor (s.installTable pd (pagingPdEntryIdForAddr vaddr) pt rest) pd vaddr pt := by
  refine ⟨?_, h.apart, fun i hi hother => ?_⟩
  · rw [installTable_directory _ _ h.apart, Function.update_self]
    exact h.usable.namesTable
  · rw [installTable_directory _ _ h.apart, Function.update_of_ne hi] at hother ⊢
    exact h.unnamed i hother.1

/-- A new table translates nothing, and the other entries translate as before. -/
theorem FreshPage.lookup_installTable (h : FreshPage s pd pt) (hown : OwnPage s pd) (id : Fin ptEntries)
    (rest : List Word) (x : Word) :
    lookup (s.installTable pd id pt rest) pd x =
      if pagingPdEntryIdForAddr x = id then none else lookup s pd x := by
  split
  · next hx =>
    subst hx
    rw [(h.tableFor rest).names.lookup_eq, installTable_table _ _ h.apart]
    exact (show entryPage 0 = none by decide)
  · next hx =>
    have hentry : (s.installTable pd id pt rest).page pd (pagingPdEntryIdForAddr x) =
        s.page pd (pagingPdEntryIdForAddr x) := by
      rw [installTable_directory _ _ h.apart, Function.update_of_ne hx]
    refine lookup_congr hentry fun hfor => ?_
    have hpt : walkedTable s pd x ≠ pt := h.unnamed _ hfor.1
    have hpd : walkedTable s pd x ≠ pd := hown.unnamed _ hfor
    rw [installTable_of_ne _ _ hpd hpt]

/-- A directory with tables of its own: no present entry is for a page of 4 MB, and distinct present
entries name distinct tables. -/
structure TablesDistinct (s : PagingMemory) (pd : Word) : Prop where
  notLarge : ∀ i, pagingPdEntryIsPresent (s.page pd i) → s.page pd i &&& large = 0
  distinct : ∀ i j, pagingPdEntryIsPresent (s.page pd i) → pagingPdEntryIsPresent (s.page pd j) →
    pagingPdEntryGetFrame (s.page pd i) = pagingPdEntryGetFrame (s.page pd j) → i = j

theorem TablesDistinct.noSharedTable (h : TablesDistinct s pd) : NoSharedTable s pd :=
  fun i j hi hj => h.distinct i j hi.1 hj.1

section Translates

variable {s' s₁ : PagingMemory} {baseAddr size flags pt : Word}

/-- The pages of the range translate as asked for, and all addresses outside it as before. -/
structure Translates (s s' : PagingMemory) (pd baseAddr size vaddr flags : Word) : Prop where
  pages : ∀ i < size.toNat / 4096, lookup s' pd (vaddr + BitVec.ofNat 32 (i * 4096)) =
    entryPage ((baseAddr + BitVec.ofNat 32 (i * 4096)) ||| flags)
  others : ∀ x : Word, ¬ (vaddr.toNat ≤ x.toNat ∧ x.toNat < vaddr.toNat + size.toNat) →
    lookup s' pd x = lookup s pd x

/-- What the pages under other directory entries than the first have to translate to already. -/
def RestMapped (s : PagingMemory) (pd baseAddr size vaddr flags : Word) : Prop :=
  ∀ i < size.toNat / 4096,
    pagingPdEntryIdForAddr (vaddr + BitVec.ofNat 32 (i * 4096)) ≠ pagingPdEntryIdForAddr vaddr →
    lookup s pd (vaddr + BitVec.ofNat 32 (i * 4096)) =
      entryPage ((baseAddr + BitVec.ofNat 32 (i * 4096)) ||| flags)

/-- The first round maps the pages under the directory entry of `vaddr`; the others have to be mapped
already, and what is under the entry outside the range must not have changed. -/
theorem TableFor.translates_iff (h : TableFor s₁ pd vaddr pt) (hvaddr : vaddr.toNat % 4096 = 0)
    (hsize : size.toNat % 4096 = 0) (hend : vaddr.toNat + size.toNat ≤ 2 ^ 32)
    (hother : ∀ x, pagingPdEntryIdForAddr x ≠ pagingPdEntryIdForAddr vaddr →
      lookup s₁ pd x = lookup s pd x) :
    Translates s (s₁.mapPages pt vaddr baseAddr flags (size.toNat / 4096)) pd baseAddr size vaddr flags ↔
      (∀ x : Word, pagingPdEntryIdForAddr x = pagingPdEntryIdForAddr vaddr →
        ¬ (vaddr.toNat ≤ x.toNat ∧ x.toNat < vaddr.toNat + size.toNat) →
        lookup s₁ pd x = lookup s pd x) ∧
      RestMapped s pd baseAddr size vaddr flags := by
  have hlookup : ∀ x, lookup (s₁.mapPages pt vaddr baseAddr flags (size.toNat / 4096)) pd x = _ :=
    h.lookup_mapPages hvaddr
  have hpages : size.toNat / 4096 * 4096 = size.toNat := by omega
  rw [hpages] at hlookup
  constructor
  · refine fun ht => ⟨fun x _ hout => ?_, fun i hi hne => ?_⟩
    · rw [← ht.others x hout, hlookup, if_neg fun hin => hout hin.2]
    · rw [← ht.pages i hi, hlookup, if_neg fun hin => hne hin.1, hother _ hne]
  · rintro ⟨hsame, hrest⟩
    refine ⟨fun i hi => ?_, fun x hout => ?_⟩
    · by_cases hslot : pagingPdEntryIdForAddr (vaddr + BitVec.ofNat 32 (i * 4096)) =
          pagingPdEntryIdForAddr vaddr
      · have haddr : (vaddr + BitVec.ofNat 32 (i * 4096)).toNat = vaddr.toNat + i * 4096 :=
          toNat_add_ofNat (by omega)
        rw [hlookup, haddr, if_pos ⟨hslot, by omega⟩, Nat.add_sub_cancel_left,
          Nat.mul_div_cancel i (by decide)]
      · rw [hlookup, if_neg fun hin => hslot hin.1, hother _ hslot]
        exact hrest i hi hslot
    · rw [hlookup, if_neg fun hin => hout hin.2]
      by_cases hslot : pagingPdEntryIdForAddr x = pagingPdEntryIdForAddr vaddr
      · exact hsame x hslot hout
      · exact hother x hslot

/-- The directory entry of `vaddr` and the rest of the range are such that mapping under that one entry is
enough: an absent entry holds no frame, where the kernel finds no table nothing is lost by a new
one, and the pages under other entries translate as asked for already. -/
structure Mappable (s : PagingMemory) (pd baseAddr size vaddr flags : Word) : Prop where
  entry : ¬ pagingPdEntryIsPresent (s.page pd (pagingPdEntryIdForAddr vaddr)) →
    pagingPtForPdEntry (s.page pd (pagingPdEntryIdForAddr vaddr)) = 0
  nothing_lost : pagingPtForPdEntry (s.page pd (pagingPdEntryIdForAddr vaddr)) = 0 →
    ∀ x : Word, pagingPdEntryIdForAddr x = pagingPdEntryIdForAddr vaddr →
      ¬ (vaddr.toNat ≤ x.toNat ∧ x.toNat < vaddr.toNat + size.toNat) → lookup s pd x = none
  rest : RestMapped s pd baseAddr size vaddr flags

end Translates

end Map

/-- Memory full of zeros, and one page for a table. -/
def emptyPaging : PagingMemory := ⟨fun _ _ => 0, [0xC0100000]⟩

/-- An empty directory has no present entry. -/
theorem emptyPaging_not_present (pd : Word) (i : Fin ptEntries) :
    ¬ pagingPdEntryIsPresent (emptyPaging.page pd i) :=
  (show ¬ pagingPdEntryIsPresent 0 by decide)

theorem emptyPaging_ownPage : OwnPage emptyPaging 0xC0101000 :=
  ⟨rfl, fun i h => absurd h.1 (emptyPaging_not_present _ i)⟩

theorem emptyPaging_freshPage : FreshPage emptyPaging 0xC0101000 0xC0100000 :=
  ⟨⟨rfl, by decide, by decide⟩, by decide, fun i h => absurd h (emptyPaging_not_present _ i)⟩

end ChrisOS.Ia32
