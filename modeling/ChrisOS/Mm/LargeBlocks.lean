import ChrisOS.Mm.FramesAccount

/-!
# Copying blocks of 4 MB

The allocator is asked for 4 MB of frames with the alignment of a page only. If free frames in rows of 4 MB
or more start on 4 MB boundaries, each block taken is on such a boundary, and there is one block
less. A block is copied without a trace in memory but the copy, where free address space lies under
empty page tables.
-/

namespace ChrisOS.Mm

open ChrisOS.Utils ChrisOS.Lib ChrisOS.Ia32

/-- Free frames for `k` pages of 4 MB: wherever 4 MB are free, they are in a row of free frames that starts on
a 4 MB boundary, and there are `k` blocks on such boundaries. -/
structure LargeFree (map : AllocatorMap) (k : ℕ) : Prop where
  aligned : ∀ b, FreeBlock map allocPmNormal 4194304 b →
    ∃ c, 4194304 ∣ c ∧ c ≤ b ∧ ∀ x, c ≤ x → x < b + 4194304 → Covered map x allocPmNormal
  blocks : ∃ l : List ℕ, l.Nodup ∧ k ≤ l.length ∧
    ∀ c ∈ l, 4194304 ∣ c ∧ FreeBlock map allocPmNormal 4194304 c

/-- The block taken is on a 4 MB boundary, and one less is free. -/
theorem LargeFree.taken {map map' : AllocatorMap} {a : Word} {k : ℕ} (h : LargeFree map (k + 1))
    (htaken : BlockTaken 4096 4194304 allocPmNormal map map' a) :
    4194304 ∣ a.toNat ∧ LargeFree map' k := by
  have haligned : 4194304 ∣ a.toNat := by
    obtain ⟨c, hc, hle, hrow⟩ := h.aligned _ htaken.free
    have hlowest := htaken.lowest c fun x hx hx' => hrow x hx (by omega)
    rwa [show a.toNat = c by omega]
  refine ⟨haligned, fun b hb => ?_, ?_⟩
  · have hold : ∀ x, b ≤ x → x < b + 4194304 → _ := fun x hx hx' =>
      (htaken.covered x allocPmNormal).mp (hb x hx hx')
    obtain ⟨c, hc, hle, hrow⟩ := h.aligned b fun x hx hx' => (hold x hx hx').1
    have hlowest := htaken.lowest c fun x hx hx' => hrow x hx (by omega)
    have hout := (hold b (Nat.le_refl _) (by omega)).2
    -- the row now starts behind the block, or it is another row
    by_cases hfirst : a.toNat = c
    · exact ⟨a.toNat + 4194304, by omega, by omega, fun x hx hx' =>
        (htaken.covered x _).mpr ⟨hrow x (by omega) hx', by omega⟩⟩
    · exact ⟨c, hc, hle, fun x hx hx' => (htaken.covered x _).mpr ⟨hrow x hx hx', by omega⟩⟩
  · obtain ⟨l, hnodup, hlength, hl⟩ := h.blocks
    refine ⟨l.erase a.toNat, hnodup.erase _, ?_, fun c hc => ?_⟩
    · have : l.length - 1 ≤ (l.erase a.toNat).length := List.le_length_erase
      omega
    · obtain ⟨hne, hmem⟩ := hnodup.mem_erase_iff.mp hc
      obtain ⟨hdvd, hfree⟩ := hl c hmem
      exact ⟨hdvd, fun x hx hx' => (htaken.covered x _).mpr ⟨hfree x hx hx', by omega⟩⟩

section Words

/-- A word is known by its bytes. -/
theorem eq_of_byteOfWord {u v : Word} (h : ∀ k < 4, byteOfWord u k = byteOfWord v k) : u = v := by
  apply BitVec.eq_of_getLsbD_eq
  intro i hi
  have hbit := congrArg (fun b => BitVec.getLsbD b (i % 8)) (h (i / 8) (by omega))
  have hlt : i % 8 < 8 := Nat.mod_lt _ (by decide)
  simpa only [byteOfWord, BitVec.getLsbD_setWidth, BitVec.getLsbD_ushiftRight, hlt, decide_true,
    Bool.true_and, Nat.div_add_mod] using hbit

/-- A page is known by its bytes. -/
theorem page_of_bytes {s s' : PagingMemory} {q : Word} (hq : q.toNat % 4096 = 0)
    (h : ∀ a, pageOf a = q → s'.bytes a = s.bytes a) : s'.page q = s.page q := by
  funext i
  have hi : i.val < 1024 := i.isLt
  refine eq_of_byteOfWord fun k hk => ?_
  let a : Word := q - kernelVma + BitVec.ofNat 32 (4 * i.val + k)
  have hvalue : a.toNat % 4096 = 4 * i.val + k := by
    dsimp only [a, kernelVma]
    bv_omega
  have hpage : pageOf a = q := by
    apply BitVec.eq_of_toNat_eq
    rw [pageOf, toNat_and_frameMask]
    dsimp only [a, kernelVma]
    bv_omega
  have hword : wordOf a = i := Fin.ext (by simp only [wordOf]; omega)
  have hbyte := h a hpage
  rw [PagingMemory.bytes, PagingMemory.bytes, hpage, hword, show a.toNat % 4 = k by omega] at hbyte
  exact hbyte

/-- Every entry of every table is for some address. -/
theorem exists_addr (i j : Fin ptEntries) :
    ∃ x, pagingPdEntryIdForAddr x = i ∧ pagingPtEntryIdForAddr x = j := by
  have hi : i.val < 1024 := i.isLt
  have hj : j.val < 1024 := j.isLt
  have hvalue : (BitVec.ofNat 32 (i.val * 4194304 + j.val * 4096)).toNat =
      i.val * 4194304 + j.val * 4096 := by
    rw [BitVec.toNat_ofNat]
    exact Nat.mod_eq_of_lt (by omega)
  refine ⟨BitVec.ofNat 32 (i.val * 4194304 + j.val * 4096), Fin.ext ?_, Fin.ext ?_⟩
  · rw [val_pagingPdEntryIdForAddr, hvalue]
    omega
  · rw [val_pagingPtEntryIdForAddr, hvalue]
    omega

end Words

/-- Memory management as copying 4 MB without a trace needs it. -/
structure LargeReady (s : KernelMemory) : Prop extends CloneSound s where
  empty : TablesEmpty s
  room : TwoBlocks s 1024
  fit : WindowsFit s 1024

/-- The block of 4 MB at `src` has been copied to `dest`, and no other byte has changed but in the pages
kept for new tables. -/
structure LargeCopied (s : KernelMemory) (paging : PagingMemory) (dest src : Word) : Prop where
  copied : ∀ k < 4194304, paging.bytes (dest + BitVec.ofNat 32 k) = s.paging.bytes (src + BitVec.ofNat 32 k)
  others : ∀ a, pageOf a ∉ s.paging.staticPages → (∀ k < 4194304, a ≠ dest + BitVec.ofNat 32 k) →
    paging.bytes a = s.paging.bytes a
  staticPages : paging.staticPages = s.paging.staticPages

/-- `kmem_frames_clone` of 1024 frames on a 4 MB boundary. -/
theorem LargeReady.kmemFramesClone_large {s : KernelMemory} (h : LargeReady s) {k : ℕ}
    (hfree : LargeFree s.kernPmAllocMap (k + 1)) {src : Word} (hsrc : 4194304 ∣ src.toNat)
    (hsource : ∀ i < 4194304, ¬ InUse s.paging s.currentPageDir (pageOf (src + BitVec.ofNat 32 i)))
    (hinUse : ¬ Covered s.kernPmAllocMap src.toNat allocPmNormal) (locals : Word × Word) :
    ∃ dest pm paging, kmemFramesClone locals s src 1024 =
        some (dest, { s with kernPmAllocMap := pm, paging := paging }) ∧
      BlockTaken 4096 4194304 allocPmNormal s.kernPmAllocMap pm dest ∧
      LargeCopied s paging dest src := by
  have hlt := src.isLt
  obtain ⟨_, hnone⟩ | ⟨dest, pm, hframes, htaken⟩ :=
    h.frames.kmemFramesAlloc_cases (show 0 < (1024 : Word).toNat by decide) (by decide)
  · obtain ⟨l, _, hlength, hl⟩ := hfree.blocks
    obtain ⟨c, hc⟩ := List.exists_mem_of_length_pos (Nat.lt_of_lt_of_le (Nat.succ_pos k) hlength)
    exact absurd (hl c hc).2 (hnone c)
  · have haligned := (hfree.taken htaken).1
    have hfits : src.toNat + (1024 : Word).toNat * 4096 ≤ 2 ^ 32 := by
      change src.toNat + 4194304 ≤ _
      omega
    obtain ⟨⟨result, s'⟩, hcall⟩ := kmemFramesClone_returns h.toCloneSound (by decide) (by decide)
      (by omega : src.toNat % 4096 = 0) hfits hframes htaken hsource
      (fun x hx habsent => absurd (h.empty x hx).1.1 habsent) h.fit
    refine ⟨dest, pm, ?_⟩
    cases kmemFramesClone_outcome h.toCloneSound (by decide) (by decide) (by omega) hfits hframes htaken
      hsource hcall with
    | failed paging hroom _ => exact absurd h.room hroom
    | copied paging _ hundone htables =>
      have hsame := htables h.empty
      refine ⟨paging, hcall, htaken, fun i hi => ?_, fun a hstatic hout => ?_, hsame.staticPages⟩
      · rw [hundone.bytes _ (h.taken_apart htaken i hi)]
        refine (copyDown_copies_iff s.paging.bytes dest src (n := 4194304) (by decide)).mpr
          (fun j hj => ?_) i hi
        -- the source is not ahead in the copy: both are on 4 MB boundaries, and only one is free
        have hne : src ≠ dest := by
          rintro rfl
          exact hinUse (htaken.free _ (Nat.le_refl _) (Nat.lt_add_of_pos_right (by decide)))
        have hdvd : 4194304 ∣ (src - dest).toNat := by
          rw [BitVec.toNat_sub]
          omega
        have hpos : (src - dest).toNat ≠ 0 := fun hzero => hne (by bv_omega)
        omega
      · by_cases hin : InUse s.paging s.currentPageDir (pageOf a)
        · apply bytes_of_page
          obtain hpd | ⟨i, hfor, hi⟩ | hpage := hin
          · rw [hpd]
            exact hsame.directory
          · funext j
            obtain ⟨x, rfl, rfl⟩ := exists_addr i j
            rw [← hi]
            exact hsame.entries x trivial hfor
          · exact absurd hpage hstatic
        · rw [hundone.bytes a hin]
          exact copyDown_of_ne _ _ _ _ _ hout

end ChrisOS.Mm
