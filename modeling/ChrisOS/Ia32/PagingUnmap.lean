import ChrisOS.Ia32.PagingMap

/-!
# What `paging_unmap` removes

Unlike the loop of `paging_map`, that of `paging_unmap` moves along: each round clears the entries of one
table, from the address it is at to the end of the table or of the range. The address may wrap at
the very end of the range, when no page is left.

The kernel takes an entry whose frame is zero to name no table, so a table in the first page of
physical memory cannot be unmapped. And a table that is the page of its own directory must not be: the
entries cleared are directory entries, which a later round may need.
-/

namespace ChrisOS.Ia32

open ChrisOS.Utils ChrisOS.Lib

/-- Where the kernel finds the table for an address, or null. -/
def tableOf (s : PagingMemory) (pd x : Word) : Word :=
  pagingPtForPdEntry (s.page pd (pagingPdEntryIdForAddr x))

/-- The `k`-th page from an address on. -/
def pageAt (vaddr : Word) (k : ℕ) : Word := vaddr + BitVec.ofNat 32 (k * 4096)

/-- Entry `i` of table `q` is that of one of the pages. -/
def EntryOfPages (s : PagingMemory) (pd vaddr : Word) (pages : ℕ) (q : Word) (i : Fin ptEntries) :
    Prop :=
  ∃ k < pages, tableOf s pd (pageAt vaddr k) = q ∧ pagingPtEntryIdForAddr (pageAt vaddr k) = i

/-- The entries of the pages are cleared and nothing else is changed, the directory least of all. -/
structure Unmapped (s s' : PagingMemory) (pd vaddr : Word) (pages : ℕ) : Prop where
  directory : s'.page pd = s.page pd
  staticPages : s'.staticPages = s.staticPages
  cleared : ∀ q i, EntryOfPages s pd vaddr pages q i → s'.page q i = 0
  kept : ∀ q i, ¬ EntryOfPages s pd vaddr pages q i → s'.page q i = s.page q i

section Rounds

variable {s s' : PagingMemory} {pd vaddr : Word} {pages : ℕ}

theorem toNat_pageAt {k : ℕ} (h : vaddr.toNat + k * 4096 < 2 ^ 32) :
    (pageAt vaddr k).toNat = vaddr.toNat + k * 4096 := toNat_add_ofNat h

theorem pageAt_pageAt (vaddr : Word) (j k : ℕ) : pageAt (pageAt vaddr j) k = pageAt vaddr (j + k) := by
  unfold pageAt
  rw [BitVec.add_assoc, ← BitVec.ofNat_add, Nat.add_mul]

variable {cur : ℕ}

/-- The pages after the first ones are whole pages as well. The address may wrap at the end of the space,
where no page is left. -/
theorem pageAt_rest (hvaddr : vaddr.toNat % 4096 = 0) (hend : vaddr.toNat + pages * 4096 ≤ 2 ^ 32)
    (hcur : cur ≤ pages) :
    (pageAt vaddr cur).toNat % 4096 = 0 ∧
      (pageAt vaddr cur).toNat + (pages - cur) * 4096 ≤ 2 ^ 32 := by
  by_cases hlast : vaddr.toNat + cur * 4096 = 2 ^ 32
  · have hwrap : (pageAt vaddr cur).toNat = 0 := by
      rw [pageAt]
      bv_omega
    omega
  · rw [toNat_pageAt (by omega)]
    omega

/-- Nothing is unmapped. -/
theorem Unmapped.refl (s : PagingMemory) (pd vaddr : Word) : Unmapped s s pd vaddr 0 :=
  ⟨rfl, rfl, fun _ _ ⟨_, hk, _⟩ => absurd hk (Nat.not_lt_zero _), fun _ _ _ => rfl⟩

/-- The pages of a range are those of its first part and those of the rest. -/
theorem entryOfPages_split (hdirectory : s'.page pd = s.page pd) (hcur : cur ≤ pages) (q : Word)
    (i : Fin ptEntries) :
    EntryOfPages s pd vaddr pages q i ↔ EntryOfPages s pd vaddr cur q i ∨
      EntryOfPages s' pd (pageAt vaddr cur) (pages - cur) q i := by
  simp only [EntryOfPages, tableOf, hdirectory, pageAt_pageAt]
  constructor
  · rintro ⟨k, hk, hentry⟩
    by_cases hlt : k < cur
    · exact Or.inl ⟨k, hlt, hentry⟩
    · have hsum : cur + (k - cur) = k := by omega
      exact Or.inr ⟨k - cur, by omega, hsum.symm ▸ hentry⟩
  · rintro (⟨k, hk, hentry⟩ | ⟨k, hk, hentry⟩)
    · exact ⟨k, by omega, hentry⟩
    · exact ⟨cur + k, by omega, hentry⟩

/-- Unmapping a range in two parts. -/
theorem Unmapped.trans {s₁ : PagingMemory} (hcur : cur ≤ pages) (h : Unmapped s s₁ pd vaddr cur)
    (h' : Unmapped s₁ s' pd (pageAt vaddr cur) (pages - cur)) :
    Unmapped s s' pd vaddr pages := by
  have hsplit : ∀ q i, EntryOfPages s pd vaddr pages q i ↔ EntryOfPages s pd vaddr cur q i ∨
      EntryOfPages s₁ pd (pageAt vaddr cur) (pages - cur) q i :=
    entryOfPages_split h.directory hcur
  refine ⟨h'.directory.trans h.directory, h'.staticPages.trans h.staticPages, fun q i hentry => ?_,
    fun q i hentry => ?_⟩
  · by_cases hrest : EntryOfPages s₁ pd (pageAt vaddr cur) (pages - cur) q i
    · exact h'.cleared q i hrest
    · rw [h'.kept q i hrest]
      exact h.cleared q i (((hsplit q i).mp hentry).resolve_right hrest)
  · rw [hsplit, not_or] at hentry
    rw [h'.kept q i hentry.2, h.kept q i hentry.1]

/-- The pages of one round are under one directory entry, at consecutive table entries. -/
theorem pageAt_same_slot (hvaddr : vaddr.toNat % 4096 = 0) {k : ℕ}
    (hk : (pagingPtEntryIdForAddr vaddr).val + k < ptEntries) :
    pagingPdEntryIdForAddr (pageAt vaddr k) = pagingPdEntryIdForAddr vaddr ∧
      (pagingPtEntryIdForAddr (pageAt vaddr k)).val = (pagingPtEntryIdForAddr vaddr).val + k := by
  have hlt := vaddr.isLt
  rw [val_pagingPtEntryIdForAddr, ptEntries] at hk
  have haddr : (pageAt vaddr k).toNat = vaddr.toNat + k * 4096 := toNat_pageAt (by omega)
  rw [Fin.ext_iff, val_pagingPdEntryIdForAddr, val_pagingPdEntryIdForAddr, val_pagingPtEntryIdForAddr,
    val_pagingPtEntryIdForAddr, haddr]
  omega

/-- How many of the pages from an address on are under its directory entry. -/
def firstPages (vaddr : Word) (pages : ℕ) : ℕ :=
  min pages (ptEntries - (pagingPtEntryIdForAddr vaddr).val)

theorem index_add_firstPages (vaddr : Word) (pages : ℕ) :
    (pagingPtEntryIdForAddr vaddr).val + firstPages vaddr pages ≤ ptEntries := by
  have := (pagingPtEntryIdForAddr vaddr).isLt
  unfold firstPages
  omega

/-- The entries of the next pages cleared in the table of the first. -/
def PagingMemory.clearPages (s : PagingMemory) (pd vaddr : Word) (cur : ℕ) : PagingMemory :=
  { s with
    page := Function.update s.page (tableOf s pd vaddr)
      (filled (pagingPtEntryIdForAddr vaddr).val ((pagingPtEntryIdForAddr vaddr).val + cur)
        (fun _ => 0) (s.page (tableOf s pd vaddr))) }

/-- Clearing entries of one table unmaps its pages, if it is not the directory. -/
theorem unmapped_clearPages (hvaddr : vaddr.toNat % 4096 = 0)
    (hcur : (pagingPtEntryIdForAddr vaddr).val + cur ≤ ptEntries) (hapart : tableOf s pd vaddr ≠ pd) :
    Unmapped s (s.clearPages pd vaddr cur) pd vaddr cur := by
  have hentry : ∀ q i, EntryOfPages s pd vaddr cur q i ↔ q = tableOf s pd vaddr ∧
      (pagingPtEntryIdForAddr vaddr).val ≤ i.val ∧ i.val < (pagingPtEntryIdForAddr vaddr).val + cur := by
    intro q i
    constructor
    · rintro ⟨k, hk, rfl, rfl⟩
      obtain ⟨hslot, hindex⟩ := pageAt_same_slot hvaddr (k := k) (by omega)
      exact ⟨by rw [tableOf, hslot, tableOf], by omega, by omega⟩
    · rintro ⟨rfl, hlo, hhi⟩
      obtain ⟨hslot, hindex⟩ := pageAt_same_slot hvaddr
        (k := i.val - (pagingPtEntryIdForAddr vaddr).val) (by omega)
      exact ⟨i.val - (pagingPtEntryIdForAddr vaddr).val, by omega, by rw [tableOf, hslot, tableOf],
        Fin.ext (by omega)⟩
  refine ⟨Function.update_of_ne hapart.symm .., rfl, fun q i h => ?_, fun q i h => ?_⟩
  · obtain ⟨rfl, hin⟩ := (hentry q i).mp h
    rw [PagingMemory.clearPages]
    dsimp only
    rw [Function.update_self, filled, if_pos hin]
  · rw [hentry] at h
    rw [PagingMemory.clearPages]
    dsimp only
    by_cases hq : q = tableOf s pd vaddr
    · rw [hq, Function.update_self, filled, if_neg fun hin => h ⟨hq, hin⟩]
    · rw [Function.update_of_ne hq]

/-- One round of the loop. -/
theorem pagingUnmapLoop_round (fuel : ℕ) (size : Word) :
    pagingUnmapLoop pd (fuel + 1) s (pages + 1) size vaddr =
      if tableOf s pd vaddr = 0 ∨
          ¬ pagingPdEntryIsPresent (s.page pd (pagingPdEntryIdForAddr vaddr)) then none
      else pagingUnmapLoop pd fuel (s.clearPages pd vaddr (firstPages vaddr (pages + 1)))
        (pages + 1 - firstPages vaddr (pages + 1))
        (size - BitVec.ofNat 32 (firstPages vaddr (pages + 1)) * pageSize)
        (pageAt vaddr (firstPages vaddr (pages + 1))) := by
  have hcur : min (pages + 1) (ptEntries - (pagingPtEntryIdForAddr vaddr).val) =
      firstPages vaddr (pages + 1) := rfl
  have hstep : vaddr + BitVec.ofNat 32 (firstPages vaddr (pages + 1)) * pageSize =
      pageAt vaddr (firstPages vaddr (pages + 1)) := by
    rw [pageAt, BitVec.ofNat_mul]
    rfl
  rw [pagingUnmapLoop]
  dsimp only
  rw [hcur, hstep, pagingPtUnmap_eq _ _ (index_add_firstPages vaddr (pages + 1))]
  rfl

variable {size : Word}

/-- The loop unmaps every page, if the kernel finds their tables and none is the directory. -/
theorem pagingUnmapLoop_unmaps {fuel : ℕ} (hfuel : pages ≤ fuel) (hvaddr : vaddr.toNat % 4096 = 0)
    (hsize : size.toNat = pages * 4096)
    (hend : vaddr.toNat + pages * 4096 ≤ 2 ^ 32)
    (hpresent : ∀ k < pages,
      pagingPdEntryIsPresent (s.page pd (pagingPdEntryIdForAddr (pageAt vaddr k))))
    (hptr : ∀ k < pages, tableOf s pd (pageAt vaddr k) ≠ 0)
    (hapart : ∀ k < pages, tableOf s pd (pageAt vaddr k) ≠ pd) :
    ∃ s', pagingUnmapLoop pd fuel s pages size vaddr = some s' ∧ Unmapped s s' pd vaddr pages := by
  induction fuel generalizing s pages size vaddr with
  | zero =>
    obtain rfl : pages = 0 := by omega
    have hzero : size = 0 := BitVec.eq_of_toNat_eq (by simp [hsize])
    exact ⟨s, by rw [pagingUnmapLoop, if_pos hzero], Unmapped.refl s pd vaddr⟩
  | succ fuel ih =>
    cases pages with
    | zero =>
      have hzero : size = 0 := BitVec.eq_of_toNat_eq (by simp [hsize])
      exact ⟨s, by rw [pagingUnmapLoop, if_pos hzero], Unmapped.refl s pd vaddr⟩
    | succ pages =>
      have hself : pageAt vaddr 0 = vaddr := by simp [pageAt]
      have hptr₀ := hptr 0 (Nat.succ_pos _)
      have hpresent₀ := hpresent 0 (Nat.succ_pos _)
      have hapart₀ := hapart 0 (Nat.succ_pos _)
      rw [hself] at hptr₀ hpresent₀ hapart₀
      rw [pagingUnmapLoop_round, if_neg (not_or.mpr ⟨hptr₀, not_not.mpr hpresent₀⟩)]
      have hround := unmapped_clearPages hvaddr (index_add_firstPages vaddr (pages + 1)) hapart₀
      have hindex := (pagingPtEntryIdForAddr vaddr).isLt
      have hcur : 0 < firstPages vaddr (pages + 1) := by unfold firstPages; omega
      have hle : firstPages vaddr (pages + 1) ≤ pages + 1 := Nat.min_le_left _ _
      generalize firstPages vaddr (pages + 1) = cur at hround hcur hle ⊢
      have hsum : ∀ k, pageAt (pageAt vaddr cur) k = pageAt vaddr (cur + k) := pageAt_pageAt vaddr cur
      have hnext := pageAt_rest hvaddr hend hle
      obtain ⟨s', hloop, hrest⟩ := ih (by omega) hnext.1 (toNat_sub_pages hsize hle) hnext.2
        (fun k hk => by rw [hround.directory, hsum]; exact hpresent (cur + k) (by omega))
        (fun k hk => by rw [tableOf, hround.directory, hsum]; exact hptr (cur + k) (by omega))
        (fun k hk => by rw [tableOf, hround.directory, hsum]; exact hapart (cur + k) (by omega))
      exact ⟨s', hloop, hround.trans hle hrest⟩

/-- The loop comes to its end only if every page has a directory entry that is present. -/
theorem pagingUnmapLoop_present {fuel : ℕ} (hvaddr : vaddr.toNat % 4096 = 0)
    (hend : vaddr.toNat + pages * 4096 ≤ 2 ^ 32)
    (hapart : ∀ k < pages,
      pagingPdEntryIsPresent (s.page pd (pagingPdEntryIdForAddr (pageAt vaddr k))) →
        tableOf s pd (pageAt vaddr k) ≠ pd)
    (h : pagingUnmapLoop pd fuel s pages size vaddr = some s') :
    ∀ k < pages, pagingPdEntryIsPresent (s.page pd (pagingPdEntryIdForAddr (pageAt vaddr k))) := by
  induction fuel generalizing s pages size vaddr with
  | zero =>
    cases pages with
    | zero => exact fun k hk => absurd hk (Nat.not_lt_zero k)
    | succ pages => cases h
  | succ fuel ih =>
    cases pages with
    | zero => exact fun k hk => absurd hk (Nat.not_lt_zero k)
    | succ pages =>
      rw [pagingUnmapLoop_round] at h
      split at h
      · cases h
      · next hfound =>
        have hpresent := not_not.mp (not_or.mp hfound).2
        have hapart₀ := hapart 0 (Nat.succ_pos _)
        rw [show pageAt vaddr 0 = vaddr by simp [pageAt]] at hapart₀
        have hroom := index_add_firstPages vaddr (pages + 1)
        have hround := unmapped_clearPages hvaddr hroom (hapart₀ hpresent)
        have hle : firstPages vaddr (pages + 1) ≤ pages + 1 := Nat.min_le_left _ _
        generalize firstPages vaddr (pages + 1) = cur at h hround hroom hle
        have hnext := pageAt_rest hvaddr hend hle
        have hrest := ih hnext.1 hnext.2 (fun k hk hpage => by
          rw [hround.directory, pageAt_pageAt] at hpage
          rw [tableOf, hround.directory, pageAt_pageAt]
          exact hapart (cur + k) (by omega) hpage) h
        intro k hk
        by_cases hlt : k < cur
        · rw [(pageAt_same_slot hvaddr (by omega)).1]
          exact hpresent
        · have hpage := hrest (k - cur) (by omega)
          rw [hround.directory, pageAt_pageAt, show cur + (k - cur) = k by omega] at hpage
          exact hpage

/-- An address and the page it is in have the same entries. -/
theorem exists_pageAt (hvaddr : vaddr.toNat % 4096 = 0) {x : Word} (hlo : vaddr.toNat ≤ x.toNat)
    (hhi : x.toNat < vaddr.toNat + pages * 4096) :
    ∃ k < pages, pagingPdEntryIdForAddr (pageAt vaddr k) = pagingPdEntryIdForAddr x ∧
      pagingPtEntryIdForAddr (pageAt vaddr k) = pagingPtEntryIdForAddr x := by
  have hx := x.isLt
  have haddr : (pageAt vaddr ((x.toNat - vaddr.toNat) / 4096)).toNat = x.toNat / 4096 * 4096 := by
    rw [toNat_pageAt (by omega)]
    omega
  refine ⟨(x.toNat - vaddr.toNat) / 4096, by omega, Fin.ext ?_, Fin.ext ?_⟩
  · rw [val_pagingPdEntryIdForAddr, val_pagingPdEntryIdForAddr, haddr]
    omega
  · rw [val_pagingPtEntryIdForAddr, val_pagingPtEntryIdForAddr, haddr]
    omega

/-- The entries of the pages are those of the addresses of the range. -/
theorem entryOfPages_iff (hvaddr : vaddr.toNat % 4096 = 0)
    (hend : vaddr.toNat + pages * 4096 ≤ 2 ^ 32) (q : Word) (i : Fin ptEntries) :
    EntryOfPages s pd vaddr pages q i ↔ ∃ x : Word, vaddr.toNat ≤ x.toNat ∧
      x.toNat < vaddr.toNat + pages * 4096 ∧ tableOf s pd x = q ∧ pagingPtEntryIdForAddr x = i := by
  constructor
  · rintro ⟨k, hk, hentry⟩
    have haddr : (pageAt vaddr k).toNat = vaddr.toNat + k * 4096 := toNat_pageAt (by omega)
    exact ⟨pageAt vaddr k, by omega, by omega, hentry⟩
  · rintro ⟨x, hlo, hhi, rfl, rfl⟩
    obtain ⟨k, hk, hslot, hindex⟩ := exists_pageAt hvaddr hlo hhi
    exact ⟨k, hk, by rw [tableOf, hslot, tableOf], hindex⟩

/-- `paging_unmap` unmaps every page of the range, if the kernel finds their tables. -/
theorem pagingUnmap_unmaps (hvaddr : vaddr.toNat % 4096 = 0) (hsize : size.toNat = pages * 4096)
    (hend : vaddr.toNat + pages * 4096 ≤ 2 ^ 32)
    (hpresent : ∀ k < pages,
      pagingPdEntryIsPresent (s.page pd (pagingPdEntryIdForAddr (pageAt vaddr k))))
    (hptr : ∀ k < pages, tableOf s pd (pageAt vaddr k) ≠ 0)
    (hapart : ∀ k < pages, tableOf s pd (pageAt vaddr k) ≠ pd) :
    ∃ s', pagingUnmap s pd vaddr size = some s' ∧ Unmapped s s' pd vaddr pages := by
  rw [pagingUnmap, if_neg (aligned_of_pages hvaddr (by omega)), toNat_div_pageSize hsize]
  exact pagingUnmapLoop_unmaps (Nat.le_refl pages) hvaddr hsize hend hpresent hptr hapart

end Rounds

section Range

variable {s s' : PagingMemory} {pd vaddr x : Word} {pages : ℕ}

theorem walkedTable_eq_tableOf (hptr : tableOf s pd x ≠ 0) : walkedTable s pd x = tableOf s pd x := by
  rw [tableOf, pagingPtForPdEntry] at hptr ⊢
  by_cases hframe : pagingPdEntryGetFrame (s.page pd (pagingPdEntryIdForAddr x)) ≠ 0
  · rw [if_pos hframe, walkedTable]
  · exact absurd (if_neg hframe) hptr

/-- No page has the entry of an address outside the range. -/
theorem not_entryOfPages_of_outside (hvaddr : vaddr.toNat % 4096 = 0)
    (hend : vaddr.toNat + pages * 4096 ≤ 2 ^ 32)
    (hrange : ∀ y : Word, vaddr.toNat ≤ y.toNat → y.toNat < vaddr.toNat + pages * 4096 →
      ForTable (s.page pd (pagingPdEntryIdForAddr y)) ∧ tableOf s pd y ≠ 0)
    (hdistinct : NoSharedTable s pd)
    (hx : x.toNat < vaddr.toNat ∨ vaddr.toNat + pages * 4096 ≤ x.toNat)
    (hentry : ForTable (s.page pd (pagingPdEntryIdForAddr x))) :
    ¬ EntryOfPages s pd vaddr pages (walkedTable s pd x) (pagingPtEntryIdForAddr x) := by
  rw [entryOfPages_iff hvaddr hend]
  rintro ⟨y, hlo, hhi, htable, hindex⟩
  obtain ⟨hfor, hptr⟩ := hrange y hlo hhi
  rw [← walkedTable_eq_tableOf hptr] at htable
  have hframe := congrArg (fun a => a - kernelVma) htable
  simp only [walkedTable, BitVec.add_sub_cancel] at hframe
  -- the same directory entry and the same table entry: the same page
  have hslot := congrArg Fin.val (hdistinct _ _ hfor hentry hframe)
  have hindex' := congrArg Fin.val hindex
  rw [val_pagingPdEntryIdForAddr, val_pagingPdEntryIdForAddr] at hslot
  rw [val_pagingPtEntryIdForAddr, val_pagingPtEntryIdForAddr] at hindex'
  omega

/-- What the processor finds once a range has been unmapped. -/
theorem Unmapped.lookup_eq (h : Unmapped s s' pd vaddr pages) (hvaddr : vaddr.toNat % 4096 = 0)
    (hend : vaddr.toNat + pages * 4096 ≤ 2 ^ 32)
    (hrange : ∀ y : Word, vaddr.toNat ≤ y.toNat → y.toNat < vaddr.toNat + pages * 4096 →
      ForTable (s.page pd (pagingPdEntryIdForAddr y)) ∧ tableOf s pd y ≠ 0)
    (hdistinct : NoSharedTable s pd) (x : Word) :
    lookup s' pd x = if vaddr.toNat ≤ x.toNat ∧ x.toNat < vaddr.toNat + pages * 4096 then none
      else lookup s pd x := by
  by_cases hx : vaddr.toNat ≤ x.toNat ∧ x.toNat < vaddr.toNat + pages * 4096
  · obtain ⟨⟨hpresent, hsmall⟩, hptr⟩ := hrange x hx.1 hx.2
    have hcleared := h.cleared _ _ ((entryOfPages_iff hvaddr hend _ _).mpr ⟨x, hx.1, hx.2, rfl, rfl⟩)
    rw [← walkedTable_eq_tableOf hptr, walkedTable] at hcleared
    rw [if_pos hx, lookup, h.directory, if_neg (not_not.mpr hpresent), if_neg (not_not.mpr hsmall),
      hcleared]
    rfl
  · rw [if_neg hx]
    refine lookup_congr (by rw [h.directory]) fun hentry => ?_
    exact h.kept _ _ (not_entryOfPages_of_outside hvaddr hend hrange hdistinct (by omega) hentry)

end Range

/-- A directory at `0xC0100000` with one entry. In all other pages every word is 7, so that as a table each
maps its pages. -/
def oneEntry (slot : ℕ) (e : Word) : PagingMemory :=
  ⟨fun q i => if q = 0xC0100000 then if i.val = slot then e else 0 else 7, []⟩

theorem oneEntry_page (slot : ℕ) (e : Word) (i : Fin ptEntries) :
    (oneEntry slot e).page 0xC0100000 i = if i.val = slot then e else 0 := rfl

theorem oneEntry_directory {slot : ℕ} {e x : Word} (hx : x.toNat / 4194304 = slot) :
    (oneEntry slot e).page 0xC0100000 (pagingPdEntryIdForAddr x) = e := by
  rw [oneEntry_page, if_pos (by rw [val_pagingPdEntryIdForAddr, hx])]

/-- The one entry is the only one that can be for a table. -/
theorem oneEntry_forTable {slot : ℕ} {e : Word} {i : Fin ptEntries}
    (h : ForTable ((oneEntry slot e).page 0xC0100000 i)) :
    i.val = slot ∧ (oneEntry slot e).page 0xC0100000 i = e := by
  rw [oneEntry_page] at h ⊢
  by_cases hi : i.val = slot
  · exact ⟨hi, if_pos hi⟩
  · rw [if_neg hi] at h
    exact absurd h.1 (by decide)

theorem oneEntry_noSharedTable (slot : ℕ) (e : Word) : NoSharedTable (oneEntry slot e) 0xC0100000 :=
  fun _ _ hi hj _ => Fin.ext ((oneEntry_forTable hi).1.trans (oneEntry_forTable hj).1.symm)

theorem oneEntry_ownPage {slot : ℕ} {e : Word} (h : pagingPdEntryGetFrame e + kernelVma ≠ 0xC0100000) :
    OwnPage (oneEntry slot e) 0xC0100000 :=
  ⟨rfl, fun i hi => by
    rw [(oneEntry_forTable hi).2]
    exact h⟩

/-- A directory at `0xC0101000` with an entry that names its own page and, next to it, one for a table. -/
def selfNamed : PagingMemory :=
  ⟨fun q i => if q = 0xC0101000 then
      if i.val = 1021 then 0x00101007 else if i.val = 1022 then 0x00102007 else 0 else 7, []⟩

theorem selfNamed_page (i : Fin ptEntries) : selfNamed.page 0xC0101000 i =
    if i.val = 1021 then 0x00101007 else if i.val = 1022 then 0x00102007 else 0 := rfl

theorem selfNamed_noSharedTable : NoSharedTable selfNamed 0xC0101000 := by
  have hcases : ∀ i, ForTable (selfNamed.page 0xC0101000 i) → i.val = 1021 ∨ i.val = 1022 := by
    intro i hi
    by_contra hne
    rw [not_or] at hne
    rw [selfNamed_page, if_neg hne.1, if_neg hne.2] at hi
    exact absurd hi.1 (by decide)
  intro i j hi hj hframe
  rw [selfNamed_page, selfNamed_page] at hframe
  obtain hi | hi := hcases i hi <;> obtain hj | hj := hcases j hj
  · exact Fin.ext (hi.trans hj.symm)
  · simp only [hi, hj] at hframe
    exact absurd hframe (by decide)
  · simp only [hi, hj] at hframe
    exact absurd hframe (by decide)
  · exact Fin.ext (hi.trans hj.symm)

end ChrisOS.Ia32
