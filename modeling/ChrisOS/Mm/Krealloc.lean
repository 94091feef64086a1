import ChrisOS.Mm.KmallocSize
import ChrisOS.Utils.MemMove

/-!
# Moving a block to another size

`krealloc` takes a new block, copies as many bytes as the new block has and frees the old one. A
call that does not grow the block is three steps of a run of the heap, of which the copy reads
only the old block and writes only the new one. A call that grows it reads past the end of the old
block, whatever is there, unless there is no new block to copy to.
-/

namespace ChrisOS.Mm

open ChrisOS.Utils ChrisOS.Lib

/-- What one call of `krealloc` leaves: the pointer it returns, the bytes its copy wrote and read, and
the heap. -/
structure KreallocCall where
  result : Word
  copied : List (Word × Word)
  heap : Heap

/-- `krealloc`. -/
def krealloc (kmemAlloc : Word → Word) (heap : Heap) (ptr size : Word) : KreallocCall :=
  let call := kmalloc kmemAlloc heap size
  let newPtr := call.result
  if newPtr ≠ 0 ∧ ptr ≠ 0 then
    ⟨newPtr, memmoveBytes newPtr ptr size,
      kfree { call.heap with mem := memcpy call.heap.mem newPtr ptr size } ptr⟩
  else ⟨newPtr, [], call.heap⟩

/-- The pointer to a live block's data. -/
def LiveBlock.data (b : LiveBlock) : Word := b.block + sizeofKmallocBlock

/-- A word is one of the bytes of a live block's data. -/
def LiveBlock.InData (b : LiveBlock) (x : Word) : Prop :=
  b.data.toNat ≤ x.toNat ∧ x.toNat < b.data.toNat + b.size.toNat

instance (b : LiveBlock) (x : Word) : Decidable (b.InData x) := inferInstanceAs (Decidable (_ ∧ _))

/-- A header is written to the first eight bytes of its block only. -/
theorem writeHeader_of_ne (mem : ByteMem 32) (block blockSize size x : Word)
    (h : ∀ i < 8, x ≠ block + BitVec.ofNat 32 i) : writeHeader mem block blockSize size x = mem x := by
  rw [writeHeader, store32, storeLE_of_ne, store32, storeLE_of_ne]
  · intro i hi
    exact h i (by omega)
  · intro i hi
    have hoffset : block + 4 + BitVec.ofNat 32 i = block + BitVec.ofNat 32 (4 + i) :=
      add_add_ofNat block 4 i
    rw [hoffset]
    exact h (4 + i) (by omega)

section Live

variable {s : HeapState} {b : LiveBlock}

/-- The end points of a live block, in exact arithmetic. -/
theorem HeapInv.range_eq (h : HeapInv s) (hb : b ∈ s.live) :
    b.range.lo = b.block.toNat ∧ b.range.hi = b.block.toNat + (8 + b.size.toNat) ∧
      b.block.toNat + (8 + b.size.toNat) ≤ 2 ^ 32 ∧ 4096 ≤ b.block.toNat := by
  obtain ⟨hfits, _, hsize⟩ := h.blocks b hb
  have hvalue := sizeofKmallocBlock_add hsize
  have hhi : b.range.hi = b.block.toNat + (8 + b.size.toNat) := congrArg (b.block.toNat + ·) hvalue
  have hfits' : b.range.hi ≤ 2 ^ 32 := hfits
  have hlive : s.Live b.block.toNat :=
    ⟨b.range, List.mem_map_of_mem hb, Nat.le_refl _, by rw [hhi]; omega⟩
  obtain ⟨g, hg, hglo, _⟩ := (h.partition _).mpr (Or.inr hlive)
  obtain ⟨hdvd, _, hpos, _⟩ := h.grants g hg
  exact ⟨rfl, hhi, by omega, by omega⟩

/-- The data of a live block with a non-null pointer. -/
theorem HeapInv.data_eq (h : HeapInv s) (hb : b ∈ s.live) (hne : b.data ≠ 0) :
    b.data.toNat = b.block.toNat + 8 := by
  obtain ⟨_, _, hend, _⟩ := h.range_eq hb
  simp only [LiveBlock.data, sizeofKmallocBlock] at hne ⊢
  bv_omega

/-- A byte of the data, by its index. -/
theorem HeapInv.toNat_data_add (h : HeapInv s) (hb : b ∈ s.live) (hne : b.data ≠ 0) {i : ℕ}
    (hi : i < b.size.toNat) : (b.data + BitVec.ofNat 32 i).toNat = b.block.toNat + 8 + i := by
  obtain ⟨_, _, hend, _⟩ := h.range_eq hb
  rw [toNat_add_ofNat (by rw [h.data_eq hb hne]; omega), h.data_eq hb hne]

variable {kmemAlloc : Word → Word} {size : Word}

/-- A call for no more than a live block has is legal as soon as `kmem_alloc` keeps its promise. -/
theorem HeapInv.kmallocLegal (h : HeapInv s) (hb : b ∈ s.live) (hsize : size ≤ b.size)
    (hkmem : KmemContract s.grants (pageAlign (sizeofKmallocBlock + size))
      (kmemAlloc (pageAlign (sizeofKmallocBlock + size)))) : KmallocLegal s kmemAlloc size := by
  obtain ⟨_, _, hend, hlow⟩ := h.range_eq hb
  have hle : size.toNat ≤ b.size.toNat := hsize
  exact ⟨by omega, hkmem⟩

/-- The state after a call that returned a block. -/
theorem HeapState.afterKmalloc_of_some {size block : Word}
    (h : (kmalloc kmemAlloc s.heap size).block = some block) :
    (s.afterKmalloc kmemAlloc size).live = ⟨block, size⟩ :: s.live := by
  rw [HeapState.afterKmalloc, h]
  rfl

/-- What a call does to memory: nothing outside the header of the block it returns. -/
theorem kmalloc_mem {heap : Heap} (x : Word)
    (hx : ∀ block ∈ (kmalloc kmemAlloc heap size).block, ∀ i < 8, x ≠ block + BitVec.ofNat 32 i) :
    (kmalloc kmemAlloc heap size).heap.mem x = heap.mem x := by
  revert hx
  unfold kmalloc
  dsimp only
  split
  · exact fun hx => writeHeader_of_ne _ _ _ _ _ (hx _ rfl)
  · split
    · exact fun _ => rfl
    · split
      · exact fun hx => writeHeader_of_ne _ _ _ _ _ (hx _ rfl)
      · exact fun _ => rfl

/-- A legal call leaves the bytes of every live block as they were. -/
theorem HeapInv.kmalloc_mem_live (h : HeapInv s) (hlegal : KmallocLegal s kmemAlloc size)
    (hb : b ∈ s.live) {x : Word}
    (hlo : b.range.lo ≤ x.toNat) (hhi : x.toNat < b.range.hi) :
    (kmalloc kmemAlloc s.heap size).heap.mem x = s.heap.mem x := by
  refine kmalloc_mem x fun block hblock i hi heq => ?_
  have hafter := h.afterKmalloc hlegal
  have hlive := HeapState.afterKmalloc_of_some hblock
  have hnew : (⟨block, size⟩ : LiveBlock) ∈ (s.afterKmalloc kmemAlloc size).live := by
    rw [hlive]
    exact List.mem_cons_self
  obtain ⟨hnlo, hnhi, hnend, _⟩ := hafter.range_eq hnew
  have hdisjoint := hafter.disjoint
  rw [hlive] at hdisjoint
  have hapart := (List.pairwise_cons.mp hdisjoint).1 b hb
  rw [heq, toNat_add_ofNat (by dsimp only at hnend; omega)] at hlo hhi
  dsimp only at hnlo hnhi
  omega

/-- A block in the last eight bytes of the address space, which a call takes for none, is in no live block
with a pointer of its own: the region it was carved from has an address beside its start. -/
theorem HeapInv.not_mem_top (h : HeapInv s) (hb : b ∈ s.live) (hptr : b.data ≠ 0)
    {pool : AllocatorMap} (hdisjoint : Disjoint b.range.addresses (freeAddresses pool))
    {region : AllocatorRegion} (hregion : region ∈ pool) (hne : region.lo < region.hi)
    (hlo : region.lo ≤ 2 ^ 32 - 8) (hhi : 2 ^ 32 - 8 ≤ region.hi) {x : ℕ} (hx : x ∈ b.range.addresses) :
    x < 2 ^ 32 - 8 := by
  obtain ⟨hblo, hbhi, hend, -⟩ := h.range_eq hb
  have hdata := h.data_eq hb hptr
  have hlt := b.data.isLt
  by_contra hpast
  have hmeets : ∃ y, y ∈ b.range.addresses ∧ y ∈ region.addresses := by
    simp only [Range.mem_addresses] at hx ⊢
    by_cases hstart : region.lo < 2 ^ 32 - 8
    · exact ⟨2 ^ 32 - 9, by omega, by omega⟩
    · exact ⟨2 ^ 32 - 8, by omega, by omega⟩
  obtain ⟨y, hyb, hyr⟩ := hmeets
  exact Set.disjoint_left.mp hdisjoint hyb ⟨region, hregion, hyr⟩

/-- A call that carves such a block out of some pool leaves the live block alone. -/
theorem HeapInv.keeps_of_top (h : HeapInv s) (hb : b ∈ s.live) (hptr : b.data ≠ 0)
    {pool pool' : AllocatorMap} {block blockSize : Word} (hpool : Scattered pool)
    (hstop : StopsInside pool blockSize 0 0)
    (hdisjoint : Disjoint b.range.addresses (freeAddresses pool))
    (hne : ∀ r ∈ pool, r.lo < r.hi ∨ 4096 ∣ r.lo) (hnull : block + sizeofKmallocBlock = 0)
    (halloc : allocatorMemAlloc pool blockSize 0 0 = some (block, pool')) :
    Disjoint b.range.addresses (freeAddresses pool') ∧
      ∀ x : Word, x.toNat ∈ b.range.addresses → ∀ i < 8, x ≠ block + BitVec.ofNat 32 i := by
  have htop : block.toNat = 2 ^ 32 - 8 := by
    simp only [sizeofKmallocBlock] at hnull
    bv_omega
  obtain ⟨hsubset, region, hregion, hlo, hhi⟩ := hpool.alloc_subset hstop (by bv_omega) halloc
  refine ⟨hdisjoint.mono_right hsubset, fun x hx i hi heq => ?_⟩
  have hnonempty : region.lo < region.hi := by
    obtain hlt | hpage := hne region hregion
    · exact hlt
    · omega
  have hbelow := h.not_mem_top hb hptr hdisjoint hregion hnonempty (by omega) (by omega) hx
  rw [heq, toNat_add_ofNat (by omega)] at hbelow
  omega

/-- A call that returns null leaves every live block with a pointer of its own as it was, whatever
size it was for. -/
theorem HeapInv.kmalloc_null (h : HeapInv s) (hb : b ∈ s.live) (hptr : b.data ≠ 0)
    (hkmem : KmemContract s.grants (pageAlign (sizeofKmallocBlock + size))
      (kmemAlloc (pageAlign (sizeofKmallocBlock + size))))
    (hnull : (kmalloc kmemAlloc s.heap size).result = 0) :
    Disjoint b.range.addresses (freeAddresses (kmalloc kmemAlloc s.heap size).heap.availMem) ∧
      ∀ x : Word, x.toNat ∈ b.range.addresses →
        (kmalloc kmemAlloc s.heap size).heap.mem x = s.heap.mem x := by
  have hlive := h.disjoint_live hb
  cases hfirst : allocatorMemAlloc s.heap.availMem (sizeofKmallocBlock + size) 0 0 with
  | some found =>
    obtain ⟨block, availMem⟩ := found
    rw [kmalloc_of_some hfirst] at hnull ⊢
    obtain ⟨hkept, hheader⟩ := h.keeps_of_top hb hptr h.scattered (h.stopsInside _) hlive
      (fun r hr => Or.inl (h.tidy.lo_lt_hi hr)) hnull hfirst
    exact ⟨hkept, fun x hx => writeHeader_of_ne _ _ _ _ _ (hheader x hx)⟩
  | none =>
    by_cases hpage : kmemAlloc (pageAlign (sizeofKmallocBlock + size)) = 0
    · rw [kmalloc_of_null hfirst hpage]
      exact ⟨hlive, fun _ _ => rfl⟩
    · obtain ⟨hdvd, -, hgrants⟩ := hkmem hpage
      have hjoined := (h.freshPages hkmem).joinedBy hpage h.scattered
      generalize hanswer : kmemAlloc (pageAlign (sizeofKmallocBlock + size)) = page at *
      have hrefilled : Disjoint b.range.addresses (freeAddresses
          (allocatorMemFree s.heap.availMem page (pageAlign (sizeofKmallocBlock + size)) 0)) := by
        rw [hjoined.addresses, freeAddresses_cons, Set.disjoint_union_right]
        refine ⟨Set.disjoint_left.mpr fun x hx hnew => ?_, hlive⟩
        obtain ⟨g, hg, hglo, hghi⟩ :=
          (h.partition x).mpr (Or.inr ⟨b.range, List.mem_map_of_mem hb, hx⟩)
        have hapart := hgrants g hg
        simp only [Range.mem_addresses, Range.lo, Range.hi] at hnew hglo hghi hapart
        omega
      cases hsecond : allocatorMemAlloc
          (allocatorMemFree s.heap.availMem page (pageAlign (sizeofKmallocBlock + size)) 0)
          (sizeofKmallocBlock + size) 0 0 with
      | none =>
        simp only [kmalloc, hfirst, hanswer, if_neg hpage, hsecond, implies_true, and_true]
        exact hrefilled
      | some found =>
        obtain ⟨block, availMem⟩ := found
        rw [kmalloc_of_refill hfirst (by rwa [hanswer]) (by rw [hanswer]; exact hsecond)] at hnull ⊢
        obtain ⟨g, hglo, hghi, honly⟩ := hjoined.grown
        have hne : ∀ r ∈ allocatorMemFree s.heap.availMem page
            (pageAlign (sizeofKmallocBlock + size)) 0, r.lo < r.hi ∨ 4096 ∣ r.lo := by
          intro r hr
          obtain rfl | hold := honly r hr
          · -- an empty region is the answer to a request for no page
            by_cases hempty : r.lo < r.hi
            · exact Or.inl hempty
            · have hstart : r.lo = page.toNat := by
                simp only [Range.lo, Range.hi] at *
                omega
              exact Or.inr (hstart ▸ hdvd)
          · exact Or.inl (h.tidy.lo_lt_hi hold)
        obtain ⟨hkept, hheader⟩ := h.keeps_of_top hb hptr hjoined.scattered
          (stopsInside_refilled hdvd hjoined hfirst) hrefilled hne hnull hsecond
        exact ⟨hkept, fun x hx => writeHeader_of_ne _ _ _ _ _ (hheader x hx)⟩

end Live

section Move

variable {s : HeapState} {b : LiveBlock} {kmemAlloc : Word → Word} {size : Word}

/-- The copy of a call that moves a block writes no header. -/
theorem HeapInv.copy_headerKept (h : HeapInv s) {n : LiveBlock} (hn : n ∈ s.live) (hne : n.data ≠ 0)
    (src : Word) {c : LiveBlock} (hc : c ∈ s.live) :
    HeaderKept s.heap.mem (memcpy s.heap.mem n.data src n.size) c := by
  intro i hi
  refine memmove_of_ne _ _ _ _ _ fun j hj heq => ?_
  obtain ⟨hclo, hchi, hcend, _⟩ := h.range_eq hc
  obtain ⟨hnlo, hnhi, _, _⟩ := h.range_eq hn
  have hvalue := congrArg BitVec.toNat heq
  rw [toNat_add_ofNat (by omega), h.toNat_data_add hn hne hj] at hvalue
  by_cases hsame : c = n
  · subst hsame
    omega
  · have hsymm : Std.Symm fun a b : LiveBlock =>
        a.range.hi ≤ b.range.lo ∨ b.range.hi ≤ a.range.lo := ⟨fun _ _ hab => hab.symm⟩
    have hapart := h.disjoint.forall hc hn hsame
    omega

/-- One more step of a run. -/
theorem HeapReachable.step {s' : HeapState} (h : HeapReachable s) (hstep : HeapStep s s') :
    HeapReachable s' := by
  obtain ⟨mem, hrun⟩ := h
  exact ⟨mem, hrun.tail hstep⟩

/-- A call that does not return null has moved the block. -/
theorem krealloc_of_ne {ptr : Word} (hresult : (kmalloc kmemAlloc s.heap size).result ≠ 0)
    (hptr : ptr ≠ 0) :
    krealloc kmemAlloc s.heap ptr size =
      ⟨(kmalloc kmemAlloc s.heap size).result,
        memmoveBytes (kmalloc kmemAlloc s.heap size).result ptr size,
        kfree { (kmalloc kmemAlloc s.heap size).heap with
          mem := memcpy (kmalloc kmemAlloc s.heap size).heap.mem
            (kmalloc kmemAlloc s.heap size).result ptr size } ptr⟩ :=
  if_pos ⟨hresult, hptr⟩

/-- A call that returns null has left the heap to `kmalloc`. -/
theorem krealloc_of_null {ptr : Word} (hresult : (kmalloc kmemAlloc s.heap size).result = 0) :
    krealloc kmemAlloc s.heap ptr size =
      ⟨(kmalloc kmemAlloc s.heap size).result, [], (kmalloc kmemAlloc s.heap size).heap⟩ :=
  if_neg fun h => h.1 hresult

/-- The pointer a call returns is that of `kmalloc`. -/
theorem krealloc_result (ptr : Word) :
    (krealloc kmemAlloc s.heap ptr size).result = (kmalloc kmemAlloc s.heap size).result := by
  unfold krealloc
  dsimp only
  split <;> rfl

/-- The block a call returned is live afterwards, with the old ones. -/
theorem HeapInv.kmalloc_live (h : HeapInv s) (hlegal : KmallocLegal s kmemAlloc size)
    (hresult : (kmalloc kmemAlloc s.heap size).result ≠ 0) :
    ∃ n : LiveBlock, n.data = (kmalloc kmemAlloc s.heap size).result ∧ n.size = size ∧
      (s.afterKmalloc kmemAlloc size).live = n :: s.live ∧
      ∀ c ∈ s.live, n.range.hi ≤ c.range.lo ∨ c.range.hi ≤ n.range.lo := by
  cases hblock : (kmalloc kmemAlloc s.heap size).block with
  | none =>
    rw [KmallocCall.result, hblock] at hresult
    exact absurd rfl hresult
  | some block =>
    have hlive := HeapState.afterKmalloc_of_some hblock
    have hdisjoint := (h.afterKmalloc hlegal).disjoint
    rw [hlive] at hdisjoint
    refine ⟨⟨block, size⟩, ?_, rfl, hlive, (List.pairwise_cons.mp hdisjoint).1⟩
    rw [KmallocCall.result, hblock]
    rfl

/-- A call that succeeds is an allocation, a copy and a free: it takes the old block out of the live
ones, and its copy reads the old block's data and writes the new one's. -/
theorem krealloc_moves (hreach : HeapReachable s) (hb : b ∈ s.live) (hptr : b.data ≠ 0)
    (hsize : size ≤ b.size) (hlegal : KmallocLegal s kmemAlloc size)
    (hresult : (kmalloc kmemAlloc s.heap size).result ≠ 0) :
    ∃ (s' : HeapState) (n : LiveBlock),
      n.data = (kmalloc kmemAlloc s.heap size).result ∧ n.size = size ∧ HeapReachable s' ∧
      s'.heap = (krealloc kmemAlloc s.heap b.data size).heap ∧ s'.live = n :: s.live.erase b ∧
      (∀ i < min b.size.toNat size.toNat,
        s'.heap.mem (n.data + BitVec.ofNat 32 i) = s.heap.mem (b.data + BitVec.ofNat 32 i)) ∧
      ∀ bytes ∈ (krealloc kmemAlloc s.heap b.data size).copied,
        n.InData bytes.1 ∧ b.InData bytes.2 := by
  have hinv := hreach.inv
  obtain ⟨n, hdata, hnsize, hlive, hapart⟩ := hinv.kmalloc_live hlegal hresult
  have hreach₁ := hreach.step (HeapStep.kmalloc s kmemAlloc size hlegal)
  have hinv₁ := hreach₁.inv
  have hn : n ∈ (s.afterKmalloc kmemAlloc size).live := hlive ▸ List.mem_cons_self
  have hb₁ : b ∈ (s.afterKmalloc kmemAlloc size).live := hlive ▸ List.mem_cons_of_mem _ hb
  have hne : n.data ≠ 0 := hdata ▸ hresult
  have hle : size.toNat ≤ b.size.toNat := hsize
  obtain ⟨hblo, hbhi, _, _⟩ := hinv.range_eq hb
  obtain ⟨hnlo, hnhi, _, _⟩ := hinv₁.range_eq hn
  have hnb : n ≠ b := by
    rintro rfl
    have := hapart n hb
    omega
  have hreach₂ := hreach₁.step (HeapStep.write _
    (memcpy (s.afterKmalloc kmemAlloc size).heap.mem n.data b.data n.size)
    fun c hc => hinv₁.copy_headerKept hn hne b.data hc)
  have hreach₃ := hreach₂.step (HeapStep.kfree _ b hb₁ hptr)
  refine ⟨_, n, hdata, hnsize, hreach₃, ?_, ?_, fun i hi => ?_, fun bytes hbytes => ?_⟩
  · rw [krealloc_of_ne hresult hptr, ← hdata, hnsize]
    rfl
  · change (s.afterKmalloc kmemAlloc size).live.erase b = _
    rw [hlive, List.erase_cons_tail (by simpa using hnb)]
  · -- freeing changes no byte, and the copy reads what the allocation left alone
    have hsrc := hinv.toNat_data_add hb hptr (i := i) (by omega)
    have hcopy : memcpy (s.afterKmalloc kmemAlloc size).heap.mem n.data b.data n.size
        (n.data + BitVec.ofNat 32 i) =
          (s.afterKmalloc kmemAlloc size).heap.mem (b.data + BitVec.ofNat 32 i) := by
      refine memmove_of_disjoint _ _ _ _ (fun i hi j hj heq => ?_) (by rw [hnsize]; omega)
      have hvalue := congrArg BitVec.toNat heq
      rw [hnsize] at hi
      rw [hinv.toNat_data_add hb hptr (by omega), hinv₁.toNat_data_add hn hne hj] at hvalue
      have := hapart b hb
      rw [hnsize] at hj hnhi
      omega
    have hkept : (s.afterKmalloc kmemAlloc size).heap.mem (b.data + BitVec.ofNat 32 i) =
        s.heap.mem (b.data + BitVec.ofNat 32 i) :=
      hinv.kmalloc_mem_live hlegal hb (by omega) (by omega)
    have hfree : (kfree { (s.afterKmalloc kmemAlloc size).heap with
        mem := memcpy (s.afterKmalloc kmemAlloc size).heap.mem n.data b.data n.size }
          b.data).mem = memcpy (s.afterKmalloc kmemAlloc size).heap.mem n.data b.data n.size := by
      rw [kfree, if_neg hptr]
    exact (congrFun hfree _).trans (hcopy.trans hkept)
  · rw [krealloc_of_ne hresult hptr, ← hdata] at hbytes
    obtain ⟨i, hi, rfl⟩ := mem_memmoveBytes.mp hbytes
    have hdest := hinv₁.toNat_data_add hn hne (i := i) (by rw [hnsize]; exact hi)
    have hsrc := hinv.toNat_data_add hb hptr (i := i) (by omega)
    have hndata := hinv₁.data_eq hn hne
    have hbdata := hinv.data_eq hb hptr
    unfold LiveBlock.InData
    rw [hdest, hsrc, hndata, hbdata, hnsize]
    omega

/-- What `krealloc` should do with a live block. If it returns a pointer, that is the data of a new live
block of the size asked for, the old block is live no more, the new one starts with the old contents,
and the copy has read bytes of the old block and written bytes of the new one only. If it returns null,
no address of the old block has been freed and its contents are what they were. -/
structure MovesInside (s : HeapState) (b : LiveBlock) (size : Word) (call : KreallocCall) : Prop where
  moved : call.result ≠ 0 → ∃ (s' : HeapState) (n : LiveBlock),
    n.data = call.result ∧ n.size = size ∧ HeapReachable s' ∧ s'.heap = call.heap ∧
    s'.live = n :: s.live.erase b ∧
    (∀ i < min b.size.toNat size.toNat,
      s'.heap.mem (n.data + BitVec.ofNat 32 i) = s.heap.mem (b.data + BitVec.ofNat 32 i)) ∧
    ∀ bytes ∈ call.copied, n.InData bytes.1 ∧ b.InData bytes.2
  kept : call.result = 0 → Disjoint b.range.addresses (freeAddresses call.heap.availMem) ∧
    ∀ x : Word, x.toNat ∈ b.range.addresses → call.heap.mem x = s.heap.mem x

/-- A copy of more bytes than a live block has reads one behind it. -/
theorem HeapInv.size_le_of_copied (h : HeapInv s) (hb : b ∈ s.live) (hptr : b.data ≠ 0) {newPtr : Word}
    (hcopied : ∀ bytes ∈ memmoveBytes newPtr b.data size, b.InData bytes.2) : size ≤ b.size := by
  by_contra hgrows
  have hlt : b.size.toNat < size.toNat := by bv_omega
  have hpast := hcopied _ (mem_memmoveBytes.mpr ⟨b.size.toNat, hlt, rfl⟩)
  have hdata := h.data_eq hb hptr
  obtain ⟨-, -, hend, -⟩ := h.range_eq hb
  simp only [LiveBlock.InData, BitVec.ofNat_toNat] at hpast
  bv_omega

/-- For every live block with a pointer and every new size, `krealloc` does that exactly when the new size is
not larger than the old one or the allocation of the new block fails. -/
theorem krealloc_inside_blocks_iff (hreach : HeapReachable s) (hb : b ∈ s.live) (hptr : b.data ≠ 0)
    (hkmem : KmemContract s.grants (pageAlign (sizeofKmallocBlock + size))
      (kmemAlloc (pageAlign (sizeofKmallocBlock + size)))) :
    MovesInside s b size (krealloc kmemAlloc s.heap b.data size) ↔
      size ≤ b.size ∨ (kmalloc kmemAlloc s.heap size).result = 0 := by
  have hinv := hreach.inv
  by_cases hresult : (kmalloc kmemAlloc s.heap size).result = 0
  · refine iff_of_true ⟨fun hne => ?_, fun _ => ?_⟩ (Or.inr hresult)
    · rw [krealloc_result] at hne
      exact absurd hresult hne
    · rw [krealloc_of_null hresult]
      exact hinv.kmalloc_null hb hptr hkmem hresult
  · rw [or_iff_left hresult]
    constructor
    · intro hinside
      obtain ⟨_, _, _, _, _, _, _, _, hcopied⟩ := hinside.moved (by rwa [krealloc_result])
      rw [krealloc_of_ne hresult hptr] at hcopied
      exact hinv.size_le_of_copied hb hptr fun bytes hbytes => (hcopied bytes hbytes).2
    · intro hsize
      refine ⟨fun _ => ?_, fun hnull => ?_⟩
      · rw [krealloc_result]
        exact krealloc_moves hreach hb hptr hsize (hinv.kmallocLegal hb hsize hkmem) hresult
      · rw [krealloc_result] at hnull
        exact absurd hnull hresult

end Move

/-- The heap with one block of four bytes, at the start of its first page. -/
def fourByteBlock : HeapState :=
  (⟨kmallocInit fun _ => 0, [], []⟩ : HeapState).afterKmalloc (fun _ => 0x1000) 4

theorem fourByteBlock_reachable : HeapReachable fourByteBlock :=
  ⟨fun _ => 0, Relation.ReflTransGen.single (HeapStep.kmalloc _ _ _
    { size_lt := by decide
      kmem := fun _ => by refine ⟨by decide, by decide, by simp⟩ })⟩

/-- The block shrinks to two bytes and moves behind itself. -/
theorem krealloc_inside_blocks_iff_shrink :
    (krealloc (fun _ => 0) fourByteBlock.heap 0x1008 2).result = 0x1014 ∧
      ∃ s' : HeapState, HeapReachable s' ∧ s'.live = [⟨0x100C, 2⟩] := by
  have hresult : (krealloc (fun _ => 0) fourByteBlock.heap 0x1008 2).result = 0x1014 := by decide
  have hb : (⟨0x1000, 4⟩ : LiveBlock) ∈ fourByteBlock.live := by decide
  obtain ⟨s', n, hdata, hsize, hreach, _, hlive, _⟩ :=
    ((@krealloc_inside_blocks_iff fourByteBlock ⟨0x1000, 4⟩ (fun _ => 0) 2 fourByteBlock_reachable hb
      (by decide) (fun hne => absurd rfl hne)).mpr (Or.inl (by decide))).moved (by decide)
  have hn : n = ⟨0x100C, 2⟩ := by
    obtain ⟨block, size⟩ := n
    have hblock : block + sizeofKmallocBlock = 0x1014 := hdata.trans hresult
    rw [LiveBlock.mk.injEq]
    refine ⟨?_, hsize⟩
    rw [← BitVec.add_sub_cancel block sizeofKmallocBlock, hblock]
    decide
  have herase : fourByteBlock.live.erase ⟨0x1000, 4⟩ = [] := by decide
  exact ⟨hresult, s', hreach, by rw [hlive, hn, herase]⟩

/-- The block grows to eight bytes: the copy reads the byte behind its data, which by then is the
first byte of the new block's header. -/
theorem krealloc_grow_reads_past :
    (krealloc (fun _ => 0) fourByteBlock.heap 0x1008 8).result = 0x1014 ∧
      fourByteBlock.live = [⟨0x1000, 4⟩] ∧
      ∃ bytes ∈ (krealloc (fun _ => 0) fourByteBlock.heap 0x1008 8).copied,
        bytes.2 = 0x100C ∧ ¬ (⟨0x1000, 4⟩ : LiveBlock).InData bytes.2 := by
  decide

end ChrisOS.Mm
