import ChrisOS.Ia32.PagingInv
import ChrisOS.Lib.ByteCopy
import ChrisOS.Mm.KmemPages

/-!
# Copying between mapped frames

`memcpy` between virtual addresses that are mapped to consecutive physical ones copies the bytes of the
frames, provided that the frames written hold no page directory or page table in use: then every byte is
copied under the same translations.
-/

namespace ChrisOS.Mm

open ChrisOS.Utils ChrisOS.Lib ChrisOS.Ia32

section Bytes

/-- A byte of a word after one has been replaced. -/
theorem byteOfWord_setByteOfWord (word : Word) {j k : ℕ} (value : BitVec 8) (hj : j < 4) (hk : k < 4) :
    byteOfWord (setByteOfWord word k value) j = if j = k then value else byteOfWord word j := by
  have hmask : ∀ i, (0xFF : Word).getLsbD i = decide (i < 8) := by
    intro i
    by_cases hi : i < 32
    · revert i
      decide
    · rw [BitVec.getLsbD_of_ge _ _ (by omega), decide_eq_false (by omega)]
  apply BitVec.eq_of_getLsbD_eq
  intro i hi
  have hbit : 8 * j + i < 32 := by omega
  simp only [byteOfWord, setByteOfWord, BitVec.getLsbD_setWidth, BitVec.getLsbD_ushiftRight,
    BitVec.getLsbD_or, BitVec.getLsbD_and, BitVec.getLsbD_not, BitVec.getLsbD_shiftLeft, hmask, hi, hbit,
    decide_true, Bool.true_and]
  by_cases hjk : j = k
  · subst hjk
    have hstart : ¬ 8 * j + i < 8 * j := by omega
    rw [if_pos rfl, Nat.add_sub_cancel_left]
    simp [hi, hstart, Nat.lt_of_lt_of_le hi (by decide : 8 ≤ 32)]
  · rw [if_neg hjk]
    by_cases hlow : 8 * j + i < 8 * k
    · simp [hlow, hi]
    · have hhigh : 8 ≤ 8 * j + i - 8 * k := by omega
      simp [hi, Nat.not_lt.mpr hhigh, BitVec.getLsbD_of_ge value _ hhigh]

/-- A byte is known by its page, its word and its place in the word. -/
theorem eq_of_place {a b : Word} (hpage : pageOf a = pageOf b) (hword : wordOf a = wordOf b)
    (hbyte : a.toNat % 4 = b.toNat % 4) : a = b := by
  have hframe := congrArg BitVec.toNat hpage
  have hindex := congrArg Fin.val hword
  rw [pageOf, pageOf, toNat_and_frameMask, toNat_and_frameMask, kernelVma] at hframe
  simp only [wordOf] at hindex
  bv_omega

/-- The bytes of memory after one has been written. -/
theorem bytes_storeByte (s : PagingMemory) (addr : Word) (value : BitVec 8) :
    (s.storeByte addr value).bytes = Function.update s.bytes addr value := by
  funext x
  have hplace : x.toNat % 4 < 4 ∧ addr.toNat % 4 < 4 := by omega
  by_cases hx : x = addr
  · subst hx
    rw [Function.update_self, PagingMemory.bytes, PagingMemory.storeByte]
    dsimp only
    rw [Function.update_self, Function.update_self, byteOfWord_setByteOfWord _ _ hplace.1 hplace.2,
      if_pos rfl]
  · rw [Function.update_of_ne hx, PagingMemory.bytes, PagingMemory.storeByte, PagingMemory.bytes]
    dsimp only
    by_cases hpage : pageOf x = pageOf addr
    · rw [hpage, Function.update_self]
      by_cases hword : wordOf x = wordOf addr
      · rw [hword, Function.update_self, byteOfWord_setByteOfWord _ _ hplace.1 hplace.2,
          if_neg fun hbyte => hx (eq_of_place hpage hword hbyte)]
      · rw [Function.update_of_ne hword]
    · rw [Function.update_of_ne hpage]

/-- Memory whose pages are the same holds the same bytes. -/
theorem bytes_of_page {s s' : PagingMemory} {addr : Word}
    (h : s'.page (pageOf addr) = s.page (pageOf addr)) : s'.bytes addr = s.bytes addr := by
  rw [PagingMemory.bytes, PagingMemory.bytes, h]

end Bytes

section Copy

variable {s s' : KernelMemory} {dest src d b : Word}

/-- The memory after `n` bytes have been copied from the last to the first. The pages in use are as
before. -/
structure CopiedTo (s : KernelMemory) (paging : PagingMemory) (dest src : Word) (n : ℕ) : Prop where
  bytes : paging.bytes = copyDown s.paging.bytes dest src n
  inUse : ∀ q, InUse s.paging s.currentPageDir q → paging.page q = s.paging.page q
  staticPages : paging.staticPages = s.paging.staticPages

/-- Copying backwards between virtual addresses that are mapped to consecutive physical ones. -/
theorem copyByte_loop {n : ℕ} (k : ℕ)
    (hsrc : ∀ i < n, s.physical (src + BitVec.ofNat 32 i) = some (b + BitVec.ofNat 32 i))
    (hdest : ∀ i < n, s.physical (dest + BitVec.ofNat 32 i) = some (d + BitVec.ofNat 32 i))
    (hfree : ∀ i < n, ¬ InUse s.paging s.currentPageDir (pageOf (d + BitVec.ofNat 32 i))) :
    ∃ paging, countedLoop (fun j => KernelMemory.copyByte dest src (k + n - 1 - j)) k n s =
      some { s with paging := paging } ∧ CopiedTo s paging d b n := by
  induction n generalizing s k with
  | zero => exact ⟨s.paging, rfl, rfl, fun _ _ => rfl, rfl⟩
  | succ n ih =>
    let s₁ : KernelMemory := { s with
      paging := s.paging.storeByte (d + BitVec.ofNat 32 n) (s.paging.bytes (b + BitVec.ofNat 32 n)) }
    have hindex : k + (n + 1) - 1 - k = n := by omega
    have hbyte : KernelMemory.copyByte dest src (k + (n + 1) - 1 - k) s = some s₁ := by
      rw [KernelMemory.copyByte, hindex, hsrc n (Nat.lt_succ_self n), hdest n (Nat.lt_succ_self n)]
      rfl
    -- the byte written is in no page that a translation depends on
    have hkept : ∀ q, InUse s.paging s.currentPageDir q → s₁.paging.page q = s.paging.page q := by
      intro q hq
      refine Function.update_of_ne ?_ ..
      rintro rfl
      exact hfree n (Nat.lt_succ_self n) hq
    have hphysical : ∀ x, s₁.physical x = s.physical x := fun x => by
      rw [KernelMemory.physical, KernelMemory.physical, lookup_of_inUse hkept]
    have huse : ∀ q, InUse s₁.paging s.currentPageDir q ↔ InUse s.paging s.currentPageDir q :=
      inUse_congr (hkept _ (Or.inl rfl)) rfl
    obtain ⟨paging, hloop, hcopied⟩ := ih (s := s₁) (k + 1)
      (fun i hi => (hphysical _).trans (hsrc i (Nat.lt_succ_of_lt hi)))
      (fun i hi => (hphysical _).trans (hdest i (Nat.lt_succ_of_lt hi)))
      (fun i hi hin => hfree i (Nat.lt_succ_of_lt hi) ((huse _).mp hin))
    have hsum : k + (n + 1) = k + 1 + n := by omega
    refine ⟨paging, ?_, ?_, fun q hq => ?_, hcopied.staticPages⟩
    · rw [countedLoop, hbyte, Option.bind_some, hsum]
      exact hloop
    · rw [hcopied.bytes, bytes_storeByte]
      rfl
    · rw [hcopied.inUse q ((huse q).mpr hq), hkept q hq]

/-- `memcpy` to higher addresses. -/
theorem memcpy_higher (len : Word) (h : src ≤ dest)
    (hsrc : ∀ i < len.toNat, s.physical (src + BitVec.ofNat 32 i) = some (b + BitVec.ofNat 32 i))
    (hdest : ∀ i < len.toNat, s.physical (dest + BitVec.ofNat 32 i) = some (d + BitVec.ofNat 32 i))
    (hfree : ∀ i < len.toNat, ¬ InUse s.paging s.currentPageDir (pageOf (d + BitVec.ofNat 32 i))) :
    ∃ paging, s.memcpy dest src len = some { s with paging := paging } ∧
      CopiedTo s paging d b len.toNat := by
  rw [KernelMemory.memcpy, if_neg (BitVec.not_lt.mpr h)]
  simpa only [Nat.zero_add] using copyByte_loop 0 hsrc hdest hfree

/-- `memcpy` to higher addresses starts with the last byte, and faults where that is not mapped. -/
theorem lookup_of_memcpy {len : Word} (h : src ≤ dest) (hpos : 0 < len.toNat)
    (hcopy : s.memcpy dest src len = some s') :
    lookup s.paging s.currentPageDir (src + BitVec.ofNat 32 (len.toNat - 1)) ≠ none ∧
      lookup s.paging s.currentPageDir (dest + BitVec.ofNat 32 (len.toNat - 1)) ≠ none := by
  obtain ⟨n, hn⟩ : ∃ n, len.toNat = n + 1 := ⟨len.toNat - 1, by omega⟩
  rw [KernelMemory.memcpy, if_neg (BitVec.not_lt.mpr h), hn, countedLoop] at hcopy
  rw [hn]
  obtain ⟨_, hbyte, _⟩ := Option.bind_eq_some_iff.mp hcopy
  obtain ⟨source, hsource, htarget⟩ := Option.bind_eq_some_iff.mp hbyte
  obtain ⟨target, htarget, _⟩ := Option.map_eq_some_iff.mp htarget
  constructor
  · intro hnone
    rw [KernelMemory.physical, show n + 1 - 1 - 0 = n + 1 - 1 from rfl, hnone] at hsource
    cases hsource
  · intro hnone
    rw [KernelMemory.physical, show n + 1 - 1 - 0 = n + 1 - 1 from rfl, hnone] at htarget
    cases htarget

end Copy

section Mapped

variable {s : KernelMemory} {w base : Word}

/-- An offset within a page that is put in an address by masking. -/
theorem frame_or_offset {frame a b : Word} (hframe : frame.toNat % 4096 = 0)
    (hb : b.toNat = frame.toNat + a.toNat % 4096) : frame ||| (a &&& ~~~frameMask) = b := by
  have hoffset : (a &&& ~~~frameMask).toNat = a.toNat % 4096 := toNat_and_mask a _ 12 rfl
  have hshift : frame.toNat = 2 ^ 12 * (frame.toNat / 4096) := by omega
  apply BitVec.eq_of_toNat_eq
  rw [BitVec.toNat_or, hoffset, hshift, ← Nat.two_pow_add_eq_or_of_lt (by omega), hb]
  omega

/-- The physical address of a byte of a mapping. -/
theorem MapsTo.physical {n : ℕ}
    (h : MapsTo s.paging s.currentPageDir w base (present ||| writable ||| user) n)
    (haligned : w.toNat % 4096 = 0) (hfits : w.toNat + n * 4096 ≤ 2 ^ 32)
    (hbase : base.toNat % 4096 = 0) (hbfits : base.toNat + n * 4096 ≤ 2 ^ 32) {i : ℕ}
    (hi : i < n * 4096) : s.physical (w + BitVec.ofNat 32 i) = some (base + BitVec.ofNat 32 i) := by
  have haddr : (w + BitVec.ofNat 32 i).toNat = w.toNat + i := toNat_add_ofNat (by omega)
  have hbyte : (base + BitVec.ofNat 32 i).toNat = base.toNat + i := toNat_add_ofNat (by omega)
  have hframe : (base + BitVec.ofNat 32 (i / 4096 * 4096)).toNat = base.toNat + i / 4096 * 4096 :=
    toNat_add_ofNat (by omega)
  rw [KernelMemory.physical, h _ (by omega) (by omega), haddr, Nat.add_sub_cancel_left,
    entryPage_or (by omega) rfl (by decide), Option.map_some]
  congr 1
  apply frame_or_offset
  · omega
  · rw [hbyte, hframe, haddr]
    omega

end Mapped

end ChrisOS.Mm
