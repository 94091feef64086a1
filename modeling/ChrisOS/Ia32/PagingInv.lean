import ChrisOS.Ia32.PagingUnmap
import Mathlib.Data.List.Nodup

/-!
# Page tables through mapping and unmapping

What `paging_map` and `paging_unmap` need of a page directory, and keep: it is on a page of its own, its
entries name tables of their own, where the kernel finds them, and the pages for new tables are apart from
those in use. Of the pages asked for, a mapping that succeeds gives those under the first directory entry
their frames, and unmapping takes them away again. No other page of memory is written.
-/

namespace ChrisOS.Ia32

open ChrisOS.Utils ChrisOS.Lib

/-- The tables of a directory are their own and can be found, and so will new ones be. The directory is
none of them. -/
structure PagingInv (s : PagingMemory) (pd : Word) : Prop where
  own : OwnPage s pd
  noShared : NoSharedTable s pd
  found : ∀ i, ForTable (s.page pd i) → pagingPtForPdEntry (s.page pd i) ≠ 0
  fresh : ∀ pt ∈ s.staticPages, FreshPage s pd pt
  nodup : s.staticPages.Nodup

/-- A page that is the directory or one of its tables, or is kept for a new one. -/
def InUse (s : PagingMemory) (pd q : Word) : Prop :=
  q = pd ∨ (∃ i, ForTable (s.page pd i) ∧ pagingPdEntryGetFrame (s.page pd i) + kernelVma = q) ∨
    q ∈ s.staticPages

section Inv

variable {s s' : PagingMemory} {pd vaddr : Word}

/-- The invariant is about the directory and the pages for new tables. -/
theorem PagingInv.congr (h : PagingInv s pd) (hdirectory : s'.page pd = s.page pd)
    (hstatic : s'.staticPages = s.staticPages) : PagingInv s' pd := by
  obtain ⟨hown, hshared, hfound, hfresh, hnodup⟩ := h
  constructor
  · refine ⟨hown.aligned, ?_⟩
    rw [hdirectory]
    exact hown.unnamed
  · rw [NoSharedTable, hdirectory]
    exact hshared
  · rw [hdirectory]
    exact hfound
  · intro pt hpt
    have hpage := hfresh pt (hstatic ▸ hpt)
    refine ⟨hpage.usable, hpage.apart, ?_⟩
    rw [hdirectory]
    exact hpage.unnamed
  · rw [hstatic]
    exact hnodup

/-- So is the question which pages are in use. -/
theorem inUse_congr (hdirectory : s'.page pd = s.page pd) (hstatic : s'.staticPages = s.staticPages)
    (q : Word) : InUse s' pd q ↔ InUse s pd q := by
  rw [InUse, InUse, hdirectory, hstatic]

/-- A lookup depends on the pages in use only. -/
theorem lookup_of_inUse (h : ∀ q, InUse s pd q → s'.page q = s.page q) (x : Word) :
    lookup s' pd x = lookup s pd x := by
  refine lookup_congr (by rw [h pd (Or.inl rfl)]) fun hentry => ?_
  have hwalked : InUse s pd (walkedTable s pd x) := Or.inr (Or.inl ⟨_, hentry, rfl⟩)
  rw [h _ hwalked]

variable {pt : Word}

/-- Installing a new table keeps the invariant. -/
theorem PagingInv.installTable (h : PagingInv s pd) {rest : List Word}
    (hstatic : s.staticPages = pt :: rest) (id : Fin ptEntries) :
    PagingInv (s.installTable pd id pt rest) pd := by
  have hfresh : FreshPage s pd pt := h.fresh pt (by simp [hstatic])
  have hnames := hfresh.usable.namesTable
  have hnodup := h.nodup
  rw [hstatic, List.nodup_cons] at hnodup
  have hdirectory := installTable_directory (s := s) id rest hfresh.apart
  -- an entry for a table is the new one, or an old one that names another table
  have hentry : ∀ i, ForTable ((s.installTable pd id pt rest).page pd i) →
      (i = id ∧ NamesTable ((s.installTable pd id pt rest).page pd i) pt) ∨
      (i ≠ id ∧ (s.installTable pd id pt rest).page pd i = s.page pd i ∧ ForTable (s.page pd i)) := by
    intro i hi
    rw [hdirectory] at hi ⊢
    by_cases hid : i = id
    · subst hid
      rw [Function.update_self]
      exact Or.inl ⟨rfl, hnames⟩
    · rw [Function.update_of_ne hid] at hi ⊢
      exact Or.inr ⟨hid, rfl, hi⟩
  refine ⟨⟨h.own.aligned, fun i hi => ?_⟩, fun i j hi hj hframe => ?_, fun i hi => ?_,
    fun q hq => ⟨?_, ?_, fun i hi => ?_⟩, hnodup.2⟩
  · obtain ⟨_, hnew⟩ | ⟨_, hsame, hold⟩ := hentry i hi
    · rw [hnew.frame_add]
      exact hfresh.apart
    · rw [hsame]
      exact h.own.unnamed i hold
  · obtain ⟨rfl, hnew⟩ | ⟨_, hsame, hold⟩ := hentry i hi <;>
      obtain ⟨rfl, hnew'⟩ | ⟨_, hsame', hold'⟩ := hentry j hj
    · rfl
    · rw [hsame'] at hframe
      refine absurd ?_ (hfresh.unnamed j hold'.1)
      rw [← hframe, hnew.frame_add]
    · rw [hsame] at hframe
      refine absurd ?_ (hfresh.unnamed i hold.1)
      rw [hframe, hnew'.frame_add]
    · rw [hsame, hsame'] at hframe
      exact h.noShared i j hold hold' hframe
  · obtain ⟨_, hnew⟩ | ⟨_, hsame, hold⟩ := hentry i hi
    · rw [hnew.ptr]
      exact hnew.ptr_ne
    · rw [hsame]
      exact h.found i hold
  · exact (h.fresh q (by simp [hstatic, show q ∈ rest from hq])).usable
  · exact (h.fresh q (by simp [hstatic, show q ∈ rest from hq])).apart
  · rw [hdirectory] at hi ⊢
    by_cases hid : i = id
    · rw [hid, Function.update_self, hnames.frame_add]
      rintro rfl
      exact hnodup.1 hq
    · rw [Function.update_of_ne hid] at hi ⊢
      exact (h.fresh q (by simp [hstatic, show q ∈ rest from hq])).unnamed i hi

/-- Pages from `vaddr` on have been mapped: their directory entries are for tables, an entry is changed only
if it was absent and is now for a table, and addresses outside the pages translate as before. No page
has come into use, and those that were not are as before. -/
structure Wired (s s' : PagingMemory) (pd vaddr : Word) (pages : ℕ) : Prop where
  entries : ∀ i, s'.page pd i = s.page pd i ∨
    ¬ pagingPdEntryIsPresent (s.page pd i) ∧ ForTable (s'.page pd i)
  table : ∀ x : Word, vaddr.toNat ≤ x.toNat → x.toNat < vaddr.toNat + pages * 4096 →
    ForTable (s'.page pd (pagingPdEntryIdForAddr x))
  outside : ∀ x : Word, x.toNat < vaddr.toNat ∨ vaddr.toNat + pages * 4096 ≤ x.toNat →
    lookup s' pd x = lookup s pd x
  inUse : ∀ q, InUse s' pd q → InUse s pd q
  unused : ∀ q, ¬ InUse s pd q → s'.page q = s.page q

theorem Wired.refl (s : PagingMemory) (pd vaddr : Word) : Wired s s pd vaddr 0 :=
  ⟨fun _ => Or.inl rfl, fun x hlo hhi => absurd hhi (by omega), fun _ _ => rfl, fun _ hq => hq,
    fun _ _ => rfl⟩

variable {pages : ℕ}

/-- Entries for tables are kept. -/
theorem Wired.kept (h : Wired s s' pd vaddr pages) {i : Fin ptEntries} (hi : ForTable (s.page pd i)) :
    s'.page pd i = s.page pd i :=
  (h.entries i).resolve_right fun hchanged => hchanged.1 hi.1

variable {s₁ : PagingMemory}

/-- More pages after those that are mapped. -/
theorem Wired.append {pages more : ℕ} (h : Wired s s₁ pd vaddr pages)
    (hfits : vaddr.toNat + pages * 4096 < 2 ^ 32) (h' : Wired s₁ s' pd (pageAt vaddr pages) more) :
    Wired s s' pd vaddr (pages + more) := by
  have hnext := toNat_pageAt hfits
  refine ⟨fun i => ?_, fun x hlo hhi => ?_, fun x hx => ?_, fun q hq => h.inUse q (h'.inUse q hq),
    fun q hq => (h'.unused q fun hin => hq (h.inUse q hin)).trans (h.unused q hq)⟩
  · obtain hsame | ⟨habsent, htable⟩ := h.entries i
    · rw [← hsame]
      exact h'.entries i
    · rw [h'.kept htable]
      exact Or.inr ⟨habsent, htable⟩
  · by_cases hx : x.toNat < vaddr.toNat + pages * 4096
    · have hentry := h.table x hlo hx
      rw [h'.kept hentry]
      exact hentry
    · exact h'.table x (by omega) (by omega)
  · have hsum : vaddr.toNat + (pages + more) * 4096 = vaddr.toNat + pages * 4096 + more * 4096 := by
      rw [Nat.add_mul, Nat.add_assoc]
    obtain hx | hx := hx
    · rw [h'.outside x (Or.inl (by omega)), h.outside x (Or.inl hx)]
    · rw [hsum] at hx
      rw [h'.outside x (Or.inr (hnext ▸ hx)), h.outside x (Or.inr (Nat.le_of_add_right_le hx))]

/-- A new table wires nothing yet. -/
theorem PagingInv.installTable_wired (h : PagingInv s pd) {rest : List Word}
    (hstatic : s.staticPages = pt :: rest)
    (habsent : ¬ pagingPdEntryIsPresent (s.page pd (pagingPdEntryIdForAddr vaddr))) :
    Wired s (s.installTable pd (pagingPdEntryIdForAddr vaddr) pt rest) pd vaddr 0 := by
  have hfresh : FreshPage s pd pt := h.fresh pt (by simp [hstatic])
  have hnames := hfresh.usable.namesTable
  have hdirectory := installTable_directory (s := s) (pagingPdEntryIdForAddr vaddr) rest hfresh.apart
  refine ⟨fun i => ?_, fun x hlo hhi => absurd hhi (by omega), fun x _ => ?_, fun q hq => ?_,
    fun q hq => ?_⟩
  · rw [hdirectory]
    by_cases hi : i = pagingPdEntryIdForAddr vaddr
    · rw [hi, Function.update_self]
      exact Or.inr ⟨habsent, hnames.isPresent, hnames.notLarge⟩
    · rw [Function.update_of_ne hi]
      exact Or.inl rfl
  · -- an empty table translates what an absent entry does: nothing
    rw [hfresh.lookup_installTable h.own]
    split
    · next hx => rw [lookup, hx, if_pos habsent]
    · rfl
  · obtain rfl | ⟨i, hi, rfl⟩ | hq := hq
    · exact Or.inl rfl
    · rw [hdirectory] at hi ⊢
      by_cases hid : i = pagingPdEntryIdForAddr vaddr
      · rw [hid, Function.update_self, hnames.frame_add]
        exact Or.inr (Or.inr (by simp [hstatic]))
      · rw [Function.update_of_ne hid] at hi ⊢
        exact Or.inr (Or.inl ⟨i, hi, rfl⟩)
    · exact Or.inr (Or.inr (by simp [hstatic, show q ∈ rest from hq]))
  · refine installTable_of_ne _ _ (fun hpd => hq (Or.inl hpd)) fun hpt => hq (Or.inr (Or.inr ?_))
    simp [hstatic, hpt]

/-- The table `paging_map` finds or makes for an address that is not in a page of 4 MB. -/
theorem PagingInv.tableFor (h : PagingInv s pd)
    (hsmall : pagingPdEntryIsPresent (s.page pd (pagingPdEntryIdForAddr vaddr)) →
      s.page pd (pagingPdEntryIdForAddr vaddr) &&& large = 0)
    (htable : pagingMapTable s pd vaddr = some (pt, s₁)) :
    TableFor s₁ pd vaddr pt ∧ PagingInv s₁ pd ∧ Wired s s₁ pd vaddr 0 ∧
      s.staticPages.length ≤ s₁.staticPages.length + 1 := by
  by_cases hpresent : pagingPdEntryIsPresent (s.page pd (pagingPdEntryIdForAddr vaddr))
  · have hentry : ForTable (s.page pd (pagingPdEntryIdForAddr vaddr)) := ⟨hpresent, hsmall hpresent⟩
    have hfor := h.noShared.tableFor h.own hentry (h.found _ hentry)
    rw [hfor.names.pagingMapTable_eq] at htable
    cases htable
    exact ⟨hfor, h, Wired.refl s pd vaddr, Nat.le_succ _⟩
  · have hnull : pagingPtForPdEntry (s.page pd (pagingPdEntryIdForAddr vaddr)) = 0 := by
      by_contra hne
      rw [pagingMapTable] at htable
      dsimp only at htable
      rw [if_neg hne, if_pos hpresent] at htable
      cases htable
    cases hstatic : s.staticPages with
    | nil =>
      rw [pagingMapTable] at htable
      dsimp only at htable
      rw [if_pos hnull, pagingAllocStaticPt, hstatic] at htable
      cases htable
    | cons page rest =>
      have hfresh : FreshPage s pd page := h.fresh page (by simp [hstatic])
      rw [pagingMapTable_new hnull hstatic hfresh.usable] at htable
      cases htable
      exact ⟨hfresh.tableFor rest, h.installTable hstatic _, h.installTable_wired hstatic hpresent,
        Nat.le_refl _⟩

/-- What the pages of a mapping translate to. -/
def MapsTo (s : PagingMemory) (pd vaddr baseAddr flags : Word) (pages : ℕ) : Prop :=
  ∀ x : Word, vaddr.toNat ≤ x.toNat → x.toNat < vaddr.toNat + pages * 4096 →
    lookup s pd x =
      entryPage ((baseAddr + BitVec.ofNat 32 ((x.toNat - vaddr.toNat) / 4096 * 4096)) ||| flags)

theorem firstPages_of_slot (hvaddr : vaddr.toNat % 4096 = 0)
    (h : vaddr.toNat % 4194304 + pages * 4096 ≤ 4194304) : firstPages vaddr pages = pages := by
  have hindex := val_pagingPtEntryIdForAddr vaddr
  have hentries : ptEntries = 1024 := rfl
  unfold firstPages
  omega

/-- The pages under the directory entry of the first. -/
theorem lt_firstPages_iff (hvaddr : vaddr.toNat % 4096 = 0) {x : Word} (hlo : vaddr.toNat ≤ x.toNat) :
    x.toNat < vaddr.toNat + firstPages vaddr pages * 4096 ↔
      pagingPdEntryIdForAddr x = pagingPdEntryIdForAddr vaddr ∧
        x.toNat < vaddr.toNat + pages * 4096 := by
  have hindex := val_pagingPtEntryIdForAddr vaddr
  have hentries : ptEntries = 1024 := rfl
  rw [Fin.ext_iff, val_pagingPdEntryIdForAddr, val_pagingPdEntryIdForAddr]
  unfold firstPages
  omega

/-- Mapping pages with a table that is there. -/
theorem TableFor.wired (h : TableFor s pd vaddr pt) (hvaddr : vaddr.toNat % 4096 = 0)
    (baseAddr flags : Word) (pages : ℕ) :
    Wired s (s.mapPages pt vaddr baseAddr flags pages) pd vaddr (firstPages vaddr pages) ∧
      MapsTo (s.mapPages pt vaddr baseAddr flags pages) pd vaddr baseAddr flags
        (firstPages vaddr pages) := by
  have hfor : ForTable (s.page pd (pagingPdEntryIdForAddr vaddr)) := ⟨h.names.isPresent, h.names.notLarge⟩
  have hdirectory : (s.mapPages pt vaddr baseAddr flags pages).page pd = s.page pd :=
    mapPages_page_of_ne h.apart.symm ..
  refine ⟨⟨fun i => Or.inl (by rw [hdirectory]), fun x hlo hhi => ?_, fun x hx => ?_, fun q hq => ?_,
    fun q hq => ?_⟩, fun x hlo hhi => ?_⟩
  · rw [hdirectory, ((lt_firstPages_iff hvaddr hlo).mp hhi).1]
    exact hfor
  · rw [h.lookup_mapPages hvaddr, if_neg]
    rintro ⟨hslot, hlo, hhi⟩
    have := (lt_firstPages_iff hvaddr hlo).mpr ⟨hslot, hhi⟩
    omega
  · exact (inUse_congr hdirectory rfl q).mp hq
  · refine mapPages_page_of_ne (fun hpt => hq (Or.inr (Or.inl ⟨_, hfor, ?_⟩))) ..
    rw [hpt, h.names.frame_add]
  · obtain ⟨hslot, hhi⟩ := (lt_firstPages_iff hvaddr hlo).mp hhi
    rw [h.lookup_mapPages hvaddr, if_pos ⟨hslot, hlo, hhi⟩]

/-- A mapping that succeeds has wired the pages under the first directory entry. -/
theorem PagingInv.pagingMap_wires (h : PagingInv s pd) {baseAddr size flags : Word}
    (hsmall : pagingPdEntryIsPresent (s.page pd (pagingPdEntryIdForAddr vaddr)) →
      s.page pd (pagingPdEntryIdForAddr vaddr) &&& large = 0)
    (hvaddr : vaddr.toNat % 4096 = 0) (hpos : 0 < pages) (hsize : size.toNat = pages * 4096)
    (hmap : pagingMap s pd baseAddr size vaddr flags = some s') :
    PagingInv s' pd ∧ Wired s s' pd vaddr (firstPages vaddr pages) ∧
      MapsTo s' pd vaddr baseAddr flags (firstPages vaddr pages) ∧
      s.staticPages.length ≤ s'.staticPages.length + 1 := by
  have hne := ne_zero_of_pages hpos hsize
  cases htable : pagingMapTable s pd vaddr with
  | none =>
    rw [pagingMap_eq_none htable hne] at hmap
    cases hmap
  | some found =>
    obtain ⟨pt, s₁⟩ := found
    obtain ⟨hfor, hinv, hmade, hstatic⟩ := h.tableFor hsmall htable
    rw [pagingMap_eq htable hfor hvaddr hsize hne] at hmap
    cases hmap
    obtain ⟨hwired, hmaps⟩ := hfor.wired hvaddr baseAddr flags pages
    have hself : pageAt vaddr 0 = vaddr := by simp [pageAt]
    rw [← hself] at hwired
    have hall := hmade.append (by have := vaddr.isLt; omega) hwired
    rw [hself, Nat.zero_add] at hall
    exact ⟨hinv.congr (mapPages_page_of_ne hfor.apart.symm ..) rfl, hall, hmaps, hstatic⟩

/-- The directory is the same, and so are the entries of its tables for some addresses. -/
structure SameEntries (s s' : PagingMemory) (pd : Word) (xs : Set Word) : Prop where
  directory : s'.page pd = s.page pd
  staticPages : s'.staticPages = s.staticPages
  entries : ∀ x ∈ xs, ForTable (s.page pd (pagingPdEntryIdForAddr x)) →
    s'.page (walkedTable s pd x) (pagingPtEntryIdForAddr x) =
      s.page (walkedTable s pd x) (pagingPtEntryIdForAddr x)

theorem SameEntries.trans {xs ys : Set Word} (h : SameEntries s s₁ pd xs)
    (h' : SameEntries s₁ s' pd ys) : SameEntries s s' pd (xs ∩ ys) := by
  refine ⟨h'.directory.trans h.directory, h'.staticPages.trans h.staticPages, fun x hx hfor => ?_⟩
  have hsame := h'.entries x hx.2
  rw [walkedTable, h.directory] at hsame
  exact (hsame hfor).trans (h.entries x hx.1 hfor)

/-- A mapping with a table that is there writes the entries of its pages only. -/
theorem PagingInv.pagingMap_sameEntries (h : PagingInv s pd) {baseAddr size flags : Word}
    (hentry : ForTable (s.page pd (pagingPdEntryIdForAddr vaddr)))
    (hvaddr : vaddr.toNat % 4096 = 0) (hpos : 0 < pages) (hsize : size.toNat = pages * 4096)
    (hmap : pagingMap s pd baseAddr size vaddr flags = some s') :
    SameEntries s s' pd {x | ¬ (vaddr.toNat ≤ x.toNat ∧ x.toNat < vaddr.toNat + pages * 4096)} := by
  have hfor := h.noShared.tableFor h.own hentry (h.found _ hentry)
  rw [pagingMap_eq hfor.names.pagingMapTable_eq hfor hvaddr hsize (ne_zero_of_pages hpos hsize)] at hmap
  cases hmap
  refine ⟨mapPages_page_of_ne hfor.apart.symm .., rfl, fun x hx hother => ?_⟩
  by_cases hslot : pagingPdEntryIdForAddr x = pagingPdEntryIdForAddr vaddr
  · have hwalked : walkedTable s pd x = _ := hslot ▸ hfor.names.frame_add
    rw [hwalked, hslot, mapPages_page_self, filled, if_neg]
    have hvalue := congrArg Fin.val hslot
    have hout : ¬ (vaddr.toNat ≤ x.toNat ∧ x.toNat < vaddr.toNat + pages * 4096) := hx
    rw [val_pagingPdEntryIdForAddr, val_pagingPdEntryIdForAddr] at hvalue
    rw [val_pagingPtEntryIdForAddr, val_pagingPtEntryIdForAddr]
    omega
  · have hwalked : walkedTable s pd x ≠ _ := hfor.others _ hslot hother
    rw [mapPages_page_of_ne hwalked]

/-- A mapping succeeds if there is a table or a page for one. -/
theorem PagingInv.pagingMap_isSome (h : PagingInv s pd) {size : Word}
    (hsmall : pagingPdEntryIsPresent (s.page pd (pagingPdEntryIdForAddr vaddr)) →
      s.page pd (pagingPdEntryIdForAddr vaddr) &&& large = 0)
    (hnull : ¬ pagingPdEntryIsPresent (s.page pd (pagingPdEntryIdForAddr vaddr)) →
      pagingPtForPdEntry (s.page pd (pagingPdEntryIdForAddr vaddr)) = 0 ∧ s.staticPages ≠ [])
    (hpos : 0 < pages) (hsize : size.toNat = pages * 4096) (haligned : vaddr.toNat % 4096 = 0)
    (baseAddr flags : Word) : ∃ s', pagingMap s pd baseAddr size vaddr flags = some s' := by
  have hne := ne_zero_of_pages hpos hsize
  by_cases hpresent : pagingPdEntryIsPresent (s.page pd (pagingPdEntryIdForAddr vaddr))
  · have hentry : ForTable (s.page pd (pagingPdEntryIdForAddr vaddr)) := ⟨hpresent, hsmall hpresent⟩
    have hfor := h.noShared.tableFor h.own hentry (h.found _ hentry)
    exact ⟨_, pagingMap_eq hfor.names.pagingMapTable_eq hfor haligned hsize hne⟩
  · obtain ⟨hzero, hstatic⟩ := hnull hpresent
    obtain ⟨pt, rest, hcons⟩ := List.exists_cons_of_ne_nil hstatic
    have hfresh : FreshPage s pd pt := h.fresh pt (by simp [hcons])
    exact ⟨_, pagingMap_eq (pagingMapTable_new hzero hcons hfresh.usable) (hfresh.tableFor rest) haligned
      hsize hne⟩

section Unmap

variable {pages : ℕ} (hvaddr : vaddr.toNat % 4096 = 0) (hend : vaddr.toNat + pages * 4096 ≤ 2 ^ 32)
  (htable : ∀ x : Word, vaddr.toNat ≤ x.toNat → x.toNat < vaddr.toNat + pages * 4096 →
    ForTable (s.page pd (pagingPdEntryIdForAddr x)))

include hvaddr hend htable

/-- Unmapping pages whose entries are for tables. -/
theorem PagingInv.pagingUnmap_clears (h : PagingInv s pd) {size : Word}
    (hsize : size.toNat = pages * 4096) :
    ∃ s', pagingUnmap s pd vaddr size = some s' ∧ Unmapped s s' pd vaddr pages := by
  have hpage : ∀ k < pages, ForTable (s.page pd (pagingPdEntryIdForAddr (pageAt vaddr k))) :=
    fun k hk => by
      have haddr : (pageAt vaddr k).toNat = vaddr.toNat + k * 4096 := toNat_pageAt (by omega)
      exact htable _ (by omega) (by omega)
  have hptr : ∀ k < pages, tableOf s pd (pageAt vaddr k) ≠ 0 := fun k hk => h.found _ (hpage k hk)
  refine pagingUnmap_unmaps hvaddr hsize hend (fun k hk => (hpage k hk).1) hptr fun k hk => ?_
  rw [← walkedTable_eq_tableOf (hptr k hk)]
  exact h.own.unnamed _ (hpage k hk)

/-- What an unmapping changes: the pages translate to nothing, and other addresses as before. -/
theorem Unmapped.lookup_of_inv (h : Unmapped s s' pd vaddr pages) (hinv : PagingInv s pd) (x : Word) :
    lookup s' pd x = if vaddr.toNat ≤ x.toNat ∧ x.toNat < vaddr.toNat + pages * 4096 then none
      else lookup s pd x :=
  h.lookup_eq hvaddr hend (fun y hlo hhi => ⟨htable y hlo hhi, hinv.found _ (htable y hlo hhi)⟩)
    hinv.noShared x

/-- An unmapping writes pages in use only. -/
theorem Unmapped.unused (h : Unmapped s s' pd vaddr pages) (hinv : PagingInv s pd) {q : Word}
    (hq : ¬ InUse s pd q) : s'.page q = s.page q := by
  funext i
  refine h.kept q i fun hentry => hq ?_
  obtain ⟨x, hlo, hhi, rfl, _⟩ := (entryOfPages_iff hvaddr hend q i).mp hentry
  have hfor := htable x hlo hhi
  exact Or.inr (Or.inl ⟨_, hfor, walkedTable_eq_tableOf (hinv.found _ hfor)⟩)

/-- The entries of other pages are what they were, and those of the pages are empty. -/
theorem Unmapped.sameEntries (h : Unmapped s s' pd vaddr pages) (hinv : PagingInv s pd) :
    SameEntries s s' pd {x | ¬ (vaddr.toNat ≤ x.toNat ∧ x.toNat < vaddr.toNat + pages * 4096)} ∧
      ∀ x : Word, vaddr.toNat ≤ x.toNat → x.toNat < vaddr.toNat + pages * 4096 →
        s'.page (walkedTable s pd x) (pagingPtEntryIdForAddr x) = 0 := by
  refine ⟨⟨h.directory, h.staticPages, fun x hx hfor => h.kept _ _ ?_⟩, fun x hlo hhi => ?_⟩
  · have hout : ¬ (vaddr.toNat ≤ x.toNat ∧ x.toNat < vaddr.toNat + pages * 4096) := hx
    exact not_entryOfPages_of_outside hvaddr hend
      (fun y hlo hhi => ⟨htable y hlo hhi, hinv.found _ (htable y hlo hhi)⟩) hinv.noShared (by omega) hfor
  · rw [walkedTable_eq_tableOf (hinv.found _ (htable x hlo hhi))]
    exact h.cleared _ _ ((entryOfPages_iff hvaddr hend _ _).mpr ⟨x, hlo, hhi, rfl, rfl⟩)

end Unmap

/-- Unmapping keeps the invariant. -/
theorem Unmapped.pagingInv (h : Unmapped s s' pd vaddr pages) (hinv : PagingInv s pd) :
    PagingInv s' pd :=
  hinv.congr h.directory h.staticPages

/-- Mapped and unmapped again: the pages translate to nothing, and all else is as before. -/
theorem Wired.lookup_unmapped (h : Wired s s₁ pd vaddr pages) (hinv : PagingInv s₁ pd)
    (h' : Unmapped s₁ s' pd vaddr pages) (haligned : vaddr.toNat % 4096 = 0)
    (hend : vaddr.toNat + pages * 4096 ≤ 2 ^ 32) (x : Word) :
    lookup s' pd x = if vaddr.toNat ≤ x.toNat ∧ x.toNat < vaddr.toNat + pages * 4096 then none
      else lookup s pd x := by
  rw [h'.lookup_of_inv haligned hend h.table hinv]
  split
  · rfl
  · exact h.outside x (by omega)

end Inv

end ChrisOS.Ia32
