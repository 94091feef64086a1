import ChrisOS.Mm.HeapContract
import ChrisOS.Mm.RegionCut
import ChrisOS.Mm.RegionMerge

/-!
# How much a call of kmalloc takes

A pointer that `kmalloc` returns is the data of a block as large as asked for, header included, exactly
when adding the header does not wrap and the first region of the pool that passes the allocator's test
reaches its next aligned address. A size of `2 ^ 32 - 8` or more wraps, and the caller gets a pointer to
a block of a few bytes.

The pool may hold its regions in any order, unmerged and with empty ones among them, as calls that wrapped
leave it: all that is asked is that no address is in it twice.
-/

namespace ChrisOS.Mm

open ChrisOS.Utils ChrisOS.Lib

section Scattered

variable {ρ : Type*} {l pre post : List (Region ρ)} {r cur region : Region ρ}

/-- The addresses of the regions of a list. -/
def freeAddresses (l : List (Region ρ)) : Set ℕ := {x | ∃ r ∈ l, x ∈ r.addresses}

/-- Regions below the end of the address space and above address zero, no two of which have an address
in common. They may stand in any order, and some may be empty. -/
structure Scattered (l : List (Region ρ)) : Prop where
  fits : ∀ r ∈ l, r.Fits
  nonnull : ∀ r ∈ l, 0 < r.lo
  disjoint : l.Pairwise fun a b => Disjoint a.addresses b.addresses

@[simp] theorem freeAddresses_nil : freeAddresses ([] : List (Region ρ)) = ∅ := by
  simp [freeAddresses]

@[simp] theorem freeAddresses_cons : freeAddresses (r :: l) = r.addresses ∪ freeAddresses l := by
  ext x
  simp [freeAddresses]

@[simp] theorem freeAddresses_append (l l' : List (Region ρ)) :
    freeAddresses (l ++ l') = freeAddresses l ∪ freeAddresses l' := by
  induction l with
  | nil => simp
  | cons r l ih => rw [List.cons_append, freeAddresses_cons, freeAddresses_cons, ih, Set.union_assoc]

/-- An emptied region has no address. -/
@[simp] theorem freeAddresses_dropEmpty (r : Region ρ) : freeAddresses (dropEmpty r) = r.addresses := by
  unfold dropEmpty
  split
  · next hzero =>
    ext x
    simp only [freeAddresses_nil, Set.mem_empty_iff_false, Range.mem_addresses, Range.lo, Range.hi, hzero,
      false_iff]
    simp
  · simp

theorem scattered_cons :
    Scattered (r :: l) ↔
      r.Fits ∧ 0 < r.lo ∧ Disjoint r.addresses (freeAddresses l) ∧ Scattered l := by
  have hdisjoint : (∀ q ∈ l, Disjoint r.addresses q.addresses) ↔
      Disjoint r.addresses (freeAddresses l) := by
    simp only [Set.disjoint_left, freeAddresses, Set.mem_ofPred_eq]
    exact ⟨fun h x hx ⟨q, hq, hxq⟩ => h q hq hx hxq, fun h q hq x hx hxq => h hx ⟨q, hq, hxq⟩⟩
  constructor
  · rintro ⟨hfits, hnonnull, hpair⟩
    obtain ⟨hr, hl⟩ := List.pairwise_cons.mp hpair
    exact ⟨hfits r List.mem_cons_self, hnonnull r List.mem_cons_self, hdisjoint.mp hr,
      fun q hq => hfits q (List.mem_cons_of_mem r hq),
      fun q hq => hnonnull q (List.mem_cons_of_mem r hq), hl⟩
  · rintro ⟨hfits, hlo, hr, hl⟩
    exact ⟨List.forall_mem_cons.mpr ⟨hfits, hl.fits⟩, List.forall_mem_cons.mpr ⟨hlo, hl.nonnull⟩,
      List.pairwise_cons.mpr ⟨hdisjoint.mpr hr, hl.disjoint⟩⟩

/-- Only the members matter. -/
theorem Scattered.perm {l' : List (Region ρ)} (h : Scattered l) (hperm : l.Perm l') : Scattered l' :=
  ⟨fun q hq => h.fits q (hperm.mem_iff.mpr hq), fun q hq => h.nonnull q (hperm.mem_iff.mpr hq),
    hperm.pairwise h.disjoint fun hab => hab.symm⟩

/-- Two of the regions span less than `2 ^ 32`. -/
theorem Scattered.spanBelow (h : Scattered (r :: cur :: l)) : cur.SpanBelow r.toRange := by
  have hr := h.fits r (by simp)
  have hcur := h.fits cur (by simp)
  have hlo := h.nonnull r (by simp)
  have hlo' := h.nonnull cur (by simp)
  unfold Range.Fits at hr hcur
  unfold Range.SpanBelow
  omega

/-- A merged region takes the place of its two parts. -/
theorem Scattered.hull (h : Scattered (r :: cur :: l)) (hmeets : cur.Meets r.toRange) :
    Scattered ({ cur with toRange := cur.hull r.toRange } :: l) ∧
      (cur.hull r.toRange).addresses = r.addresses ∪ cur.addresses ∧
      (cur.hull r.toRange).lo ≤ r.lo ∧ r.hi ≤ (cur.hull r.toRange).hi := by
  obtain ⟨hr, hrlo, hrdisjoint, hcons⟩ := scattered_cons.mp h
  obtain ⟨hcur, hcurlo, hcurdisjoint, hl⟩ := scattered_cons.mp hcons
  have hlo : (cur.hull r.toRange).lo = min cur.lo r.lo := Range.hull_lo _ _
  have hhi : (cur.hull r.toRange).hi = max cur.hi r.hi := Range.hull_hi h.spanBelow
  have hunion : (cur.hull r.toRange).addresses = r.addresses ∪ cur.addresses := by
    rw [Range.meets_iff] at hmeets
    ext x
    simp only [Set.mem_union, Range.mem_addresses, hlo, hhi]
    omega
  refine ⟨scattered_cons.mpr ⟨?_, ?_, ?_, hl⟩, hunion, by omega, by omega⟩
  · change (cur.hull r.toRange).hi ≤ 2 ^ 32
    unfold Range.Fits at hr hcur
    omega
  · change 0 < (cur.hull r.toRange).lo
    omega
  · change Disjoint (cur.hull r.toRange).addresses (freeAddresses l)
    rw [hunion, Set.disjoint_union_left]
    rw [freeAddresses_cons, Set.disjoint_union_right] at hrdisjoint
    exact ⟨hrdisjoint.2, hcurdisjoint⟩

variable (preMerge : Region ρ → Region ρ → Bool)

/-- What joins a list when a region does: one region that contains it, in the place of the regions it
was merged with. -/
structure JoinedBy (l : List (Region ρ)) (r : Region ρ) (joined : List (Region ρ)) : Prop where
  scattered : Scattered joined
  addresses : freeAddresses joined = freeAddresses (r :: l)
  grown : ∃ g : Region ρ, g.lo ≤ r.lo ∧ r.hi ≤ g.hi ∧ ∀ q ∈ joined, q = g ∨ q ∈ l

/-- A region that is not merged any further. -/
theorem JoinedBy.cons (h : Scattered (r :: l)) : JoinedBy l r (r :: l) :=
  ⟨h, rfl, r, Nat.le_refl _, Nat.le_refl _, fun _ hq => List.mem_cons.mp hq⟩

/-- The grown region is offered to its successor. -/
theorem Scattered.mergeNext (h : Scattered (cur :: l)) :
    JoinedBy l cur (mergeNext preMerge cur l) := by
  cases l with
  | nil => exact .cons h
  | cons next rest =>
    by_cases hjoin : preMerge next cur = true ∧ next.Meets cur.toRange
    · obtain ⟨hscattered, hunion, hlo, hhi⟩ := h.hull hjoin.2
      simp only [Mm.mergeNext, merge_eq_hull preMerge h.spanBelow, if_pos hjoin]
      refine ⟨hscattered, ?_, { next with toRange := next.hull cur.toRange }, hlo, hhi, fun q hq => ?_⟩
      · simp only [freeAddresses_cons, hunion, Set.union_assoc]
      · exact (List.mem_cons.mp hq).imp id (List.mem_cons_of_mem next)
    · simp only [Mm.mergeNext, merge_eq_hull preMerge h.spanBelow, if_neg hjoin]
      exact .cons h

/-- `_add` of a region that shares no address with the list. -/
theorem Scattered.add (h : Scattered (r :: l)) : JoinedBy l r (add preMerge l r) := by
  induction l with
  | nil => exact .cons h
  | cons cur rest ih =>
    by_cases hjoin : preMerge cur r = true ∧ cur.Meets r.toRange
    · obtain ⟨hscattered, hunion, hlo, hhi⟩ := h.hull hjoin.2
      obtain ⟨hmerged, haddresses, g, hglo, hghi, honly⟩ := hscattered.mergeNext preMerge
      simp only [Mm.add, merge_eq_hull preMerge h.spanBelow, if_pos hjoin]
      refine ⟨hmerged, ?_, g, Nat.le_trans hglo hlo, Nat.le_trans hhi hghi, fun q hq => ?_⟩
      · rw [haddresses]
        simp only [freeAddresses_cons, hunion, Set.union_assoc]
      · exact (honly q hq).imp id (List.mem_cons_of_mem cur)
    · simp only [Mm.add, merge_eq_hull preMerge h.spanBelow, if_neg hjoin]
      split
      · exact .cons h
      · obtain ⟨hcur, hcurlo, hdisjoint, hrest⟩ := scattered_cons.mp (h.perm (List.Perm.swap cur r rest))
        obtain ⟨hadded, haddresses, g, hglo, hghi, honly⟩ := ih hrest
        refine ⟨scattered_cons.mpr ⟨hcur, hcurlo, haddresses ▸ hdisjoint, hadded⟩, ?_, g, hglo, hghi,
          fun q hq => ?_⟩
        · rw [freeAddresses_cons, haddresses]
          simp only [freeAddresses_cons, Set.union_left_comm]
        · obtain rfl | hq := List.mem_cons.mp hq
          · exact Or.inr List.mem_cons_self
          · exact (honly q hq).imp id (List.mem_cons_of_mem cur)

theorem freeAddresses_insert (l : List (Region ρ)) (r : Region ρ) :
    freeAddresses (Mm.insert l r) = r.addresses ∪ freeAddresses l := by
  induction l with
  | nil => simp [Mm.insert]
  | cons cur rest ih =>
    rw [Mm.insert]
    split
    · simp
    · simp only [freeAddresses_cons, ih, Set.union_left_comm]

/-- Cutting a hole out of a region that contains it takes the hole's addresses from that region, wherever
the pieces are linked. -/
theorem freeAddresses_cutAndStitch {hole : Range} (hfits : region.Fits) (hlo : region.lo ≤ hole.lo)
    (hhi : hole.hi ≤ region.hi) (hstart : hole.lo < region.hi) :
    freeAddresses (cutAndStitch pre region post hole) =
      freeAddresses (pre ++ post) ∪ region.addresses \ hole.addresses := by
  obtain ⟨hcut, hleft, hright⟩ := cut_of_within hlo hhi hfits hstart
  let left : Region ρ := ⟨⟨region.address, hole.address - region.address⟩, region.attrs⟩
  let right : Region ρ := ⟨⟨hole.address + hole.size,
    region.size - (hole.address + hole.size - region.address)⟩, region.attrs⟩
  have hpieces : left.addresses ∪ right.addresses = region.addresses \ hole.addresses := by
    have hend : region.hi ≠ hole.hi → (hole.address + hole.size).toNat = hole.hi := by
      simp only [Range.Fits, Range.hi, Range.lo] at *
      bv_omega
    ext x
    simp only [left, right, Set.mem_union, Set.mem_sdiff, Range.mem_addresses]
    simp only [Range.lo, Range.hi, hleft, hright] at *
    omega
  have hparts : freeAddresses (cutAndStitch pre region post hole) =
      freeAddresses (pre ++ post) ∪ (left.addresses ∪ right.addresses) := by
    unfold cutAndStitch cutAndStitchSplit
    rw [hcut]
    dsimp only
    split
    · next hzero =>
      have hnone : right.addresses = ∅ := by
        rw [← freeAddresses_dropEmpty right, dropEmpty, if_pos hzero, freeAddresses_nil]
      simp only [freeAddresses_append, freeAddresses_dropEmpty, hnone, Set.union_empty]
      exact Set.union_right_comm ..
    · split
      · simp only [freeAddresses_append, freeAddresses_dropEmpty, freeAddresses_insert]
        ext x
        simp only [Set.mem_union]
        tauto
      · split
        · simp only [freeAddresses_append, freeAddresses_cons, freeAddresses_dropEmpty]
          ext x
          simp only [Set.mem_union]
          tauto
        · cases post with
          | nil => simp [left, right]
          | cons next rest =>
            dsimp only
            split
            · simp only [freeAddresses_append, freeAddresses_cons, freeAddresses_dropEmpty]
              ext x
              simp only [Set.mem_union, freeAddresses_nil, Set.mem_empty_iff_false]
              tauto
            · simp only [freeAddresses_append, freeAddresses_cons, freeAddresses_dropEmpty,
                freeAddresses_insert]
              ext x
              simp only [Set.mem_union]
              tauto
  rw [hparts, hpieces]

end Scattered

section Kmalloc

variable {kmemAlloc : Word → Word} {heap : Heap} {size : Word}

/-- What `kmem_alloc` may answer beside a pool: null, or a page-aligned range of the requested size that
fits in the address space and has no address in the pool. -/
def FreshPages (pool : AllocatorMap) (request answer : Word) : Prop :=
  answer ≠ 0 → 4096 ∣ answer.toNat ∧ (⟨answer, request⟩ : Range).Fits ∧
    Disjoint (⟨answer, request⟩ : Range).addresses (freeAddresses pool)

/-- What a call that returns a pointer should have taken: the pointer is that of the data of a block, and
every byte of the block, header and `size` bytes in exact arithmetic, was in the pool or in the
pages the call obtained and is not in the pool any more. -/
def TakesBlock (heap : Heap) (size : Word) (call : KmallocCall) : Prop :=
  ∃ block : Word, call.result.toNat = block.toNat + 8 ∧
    ∀ x, block.toNat ≤ x → x < block.toNat + (8 + size.toNat) →
      (x ∈ freeAddresses heap.availMem ∨ InRanges call.grant x) ∧
        x ∉ freeAddresses call.heap.availMem

variable {pool : AllocatorMap}

/-- Such pages join the pool. -/
theorem FreshPages.joinedBy {request answer : Word} (h : FreshPages pool request answer)
    (hne : answer ≠ 0) (hpool : Scattered pool) :
    JoinedBy pool ⟨⟨answer, request⟩, 0⟩ (allocatorMemFree pool answer request 0) := by
  obtain ⟨_, hfits, hdisjoint⟩ := h hne
  have hlo : 0 < answer.toNat := by bv_omega
  exact Scattered.add _ (scattered_cons.mpr ⟨hfits, hlo, hdisjoint, hpool⟩)

/-- No address at or above `2 ^ 32`, and not zero, is in such a pool. -/
theorem Scattered.bounds (h : Scattered pool) {x : ℕ} (hx : x ∈ freeAddresses pool) :
    0 < x ∧ x < 2 ^ 32 := by
  obtain ⟨r, hr, hlo, hhi⟩ := hx
  have hfits := h.fits r hr
  have hpos := h.nonnull r hr
  unfold Range.Fits at hfits
  omega

/-- A region that is passed over for a block behind it stays as it is. -/
theorem freeAddresses_cutAndStitch_of_after {pre post : AllocatorMap} {region : AllocatorRegion}
    {hole : Range} (hfits : region.Fits) (hafter : region.hi ≤ hole.lo) :
    freeAddresses (cutAndStitch pre region post hole) = freeAddresses (pre ++ region :: post) := by
  rw [cutAndStitch, cutAndStitchSplit, cut_of_after hfits hafter]
  simp

variable {pool pool' : AllocatorMap}

/-- The bytes of the block were in the pool the allocator took it from and are not any more exactly when
its size did not wrap and the region the loop stopped at reaches its next aligned address. -/
theorem Scattered.alloc_iff {block : Word} (h : Scattered pool)
    (halloc : allocatorMemAlloc pool (sizeofKmallocBlock + size) 0 0 = some (block, pool')) :
    (∀ x, block.toNat ≤ x → x < block.toNat + (8 + size.toNat) →
        x ∈ freeAddresses pool ∧ x ∉ freeAddresses pool') ↔
      8 + size.toNat < 2 ^ 32 ∧ StopsInside pool (sizeofKmallocBlock + size) 0 0 := by
  obtain ⟨passed, region, post, rfl, hfind, hoffers, hblock, rfl⟩ :=
    allocatorMemAlloc_eq_some_find halloc
  change block = alignAddress region.address 4 at hblock
  have hfits : region.Fits := h.fits region (by simp)
  constructor
  · intro htaken
    have hfirst := htaken _ (Nat.le_refl _) (by omega)
    have hsize : 8 + size.toNat < 2 ^ 32 := by
      by_contra hwraps
      have hpos := (h.bounds hfirst.1).1
      have hlast := h.bounds (htaken (2 ^ 32) (by bv_omega) (by omega)).1
      omega
    refine ⟨hsize, fun found hfound => ?_⟩
    obtain rfl := Option.some.inj (hfind.symm.trans hfound)
    change alignAddress region.address 4 - region.address ≤ region.size
    by_contra hpast
    obtain ⟨hlt, hdvd⟩ := alignAddress_pad region.address 4 2 rfl
    by_cases hwraps : (alignAddress region.address 4).toNat < region.address.toNat
    · -- past the last word of the address space the aligned address is zero
      have hzero : (alignAddress region.address 4).toNat = 0 := by
        have := region.address.isLt
        bv_omega
      have hpos := (h.bounds hfirst.1).1
      rw [hblock] at hpos
      omega
    · have hafter : region.hi ≤ Range.lo ⟨block, sizeofKmallocBlock + size⟩ := by
        rw [hblock]
        unfold Range.hi Range.lo
        bv_omega
      rw [freeAddresses_cutAndStitch_of_after hfits hafter] at hfirst
      exact hfirst.2 hfirst.1
  · rintro ⟨hsize, hstop⟩ x hx hx'
    have hvalue := sizeofKmallocBlock_add hsize
    have hlo : region.lo ≤ Range.lo ⟨block, sizeofKmallocBlock + size⟩ ∧
        Range.hi ⟨block, sizeofKmallocBlock + size⟩ ≤ region.hi := by
      rw [hblock]
      exact (hoffers.block_within 2 rfl hfits (hstop region hfind) (by omega)).2
    obtain ⟨hlo, hhi⟩ := hlo
    have hhole : x ∈ Range.addresses ⟨block, sizeofKmallocBlock + size⟩ :=
      ⟨hx, by simp only [Range.hi, hvalue]; exact hx'⟩
    have hregion : x ∈ region.addresses := ⟨Nat.le_trans hlo hx, Nat.lt_of_lt_of_le hhole.2 hhi⟩
    have hothers : x ∉ freeAddresses (passed ++ post) := by
      have hfront := scattered_cons.mp (h.perm (List.perm_middle (a := region)))
      exact Set.disjoint_left.mp hfront.2.2.1 hregion
    refine ⟨⟨region, by simp, hregion⟩, ?_⟩
    rw [freeAddresses_cutAndStitch hfits hlo hhi
      (Nat.lt_of_le_of_lt hx (Nat.lt_of_lt_of_le hhole.2 hhi))]
    rintro (hother | ⟨-, hout⟩)
    · exact hothers hother
    · exact hout hhole

/-- A block carved from a region that reaches its aligned address takes nothing but addresses of that
region out of the pool, however small it is. -/
theorem Scattered.alloc_subset {block blockSize : Word} (h : Scattered pool)
    (hstop : StopsInside pool blockSize 0 0) (hne : block ≠ 0)
    (halloc : allocatorMemAlloc pool blockSize 0 0 = some (block, pool')) :
    freeAddresses pool' ⊆ freeAddresses pool ∧
      ∃ region ∈ pool, region.lo ≤ block.toNat ∧ block.toNat ≤ region.hi := by
  obtain ⟨passed, region, post, rfl, hfind, hoffers, hblock, rfl⟩ :=
    allocatorMemAlloc_eq_some_find halloc
  change block = alignAddress region.address 4 at hblock
  have hmem : region ∈ passed ++ region :: post := by simp
  have hfits : region.Fits := h.fits region hmem
  have hreach : alignAddress region.address 4 - region.address ≤ region.size := hstop region hfind
  have htest : blockSize ≤ region.size - (alignAddress region.address 4 - region.address) := hoffers.2
  obtain ⟨hlt, hdvd⟩ := alignAddress_pad region.address 4 2 rfl
  rw [← hblock] at hreach htest hlt hdvd
  have hstart : block.toNat = region.address.toNat + (block - region.address).toNat := by
    have := region.address.isLt
    bv_omega
  have hhole : region.lo ≤ Range.lo ⟨block, blockSize⟩ ∧
      Range.hi ⟨block, blockSize⟩ ≤ region.hi := by
    simp only [Range.lo, Range.hi]
    bv_omega
  refine ⟨?_, region, hmem, hhole.1, Nat.le_trans (Nat.le_add_right _ _) hhole.2⟩
  by_cases hinside : Range.lo ⟨block, blockSize⟩ < region.hi
  · rw [freeAddresses_cutAndStitch hfits hhole.1 hhole.2 hinside, freeAddresses_append,
      freeAddresses_append, freeAddresses_cons]
    intro x hx
    simp only [Set.mem_union, Set.mem_sdiff] at hx ⊢
    tauto
  · rw [freeAddresses_cutAndStitch_of_after hfits (Nat.not_lt.mp hinside)]

/-- After a refill the loop can only stop at the region that contains the new pages, and that one reaches
their start. -/
theorem stopsInside_refilled {page request blockSize : Word} (hpage : 4096 ∣ page.toNat)
    (hjoined : JoinedBy pool ⟨⟨page, request⟩, 0⟩ pool')
    (hnone : allocatorMemAlloc pool blockSize 0 0 = none) : StopsInside pool' blockSize 0 0 := by
  intro region hfind
  obtain ⟨g, hglo, hghi, honly⟩ := hjoined.grown
  obtain rfl | hold := honly region (List.mem_of_find?_eq_some hfind)
  · have hpad := alignAddress_pad_le region.address 4 2 page.toNat rfl
      (Nat.dvd_trans (by decide) hpage) hglo
    have hin : page.toNat ≤ region.hi := Nat.le_trans (Nat.le_add_right _ _) hghi
    change alignAddress region.address 4 - region.address ≤ region.size
    unfold Range.hi at hin
    bv_omega
  · exact absurd (offers_of_find hfind) ((allocatorMemAlloc_eq_none_iff _ _ _ _).mp hnone region hold)

/-- A call whose block was carved from some pool, in terms of that pool. -/
theorem takesBlock_iff {block : Word} {call : KmallocCall} (hblock : call.block = some block)
    (hresult : call.result ≠ 0)
    (hpool : ∀ x, x ∈ freeAddresses heap.availMem ∨ InRanges call.grant x ↔ x ∈ freeAddresses pool)
    (hfits : ∀ x ∈ freeAddresses pool, x < 2 ^ 32) :
    TakesBlock heap size call ↔
      ∀ x, block.toNat ≤ x → x < block.toNat + (8 + size.toNat) →
        x ∈ freeAddresses pool ∧ x ∉ freeAddresses call.heap.availMem := by
  have hvalue : call.result = block + sizeofKmallocBlock := by rw [KmallocCall.result, hblock]
  rw [hvalue] at hresult
  simp only [TakesBlock, hpool, hvalue]
  simp only [sizeofKmallocBlock] at hresult ⊢
  constructor
  · rintro ⟨block', heq, htaken⟩
    obtain rfl : block' = block := by bv_omega
    exact htaken
  · intro htaken
    refine ⟨block, ?_, htaken⟩
    have hend := hfits _ (htaken (block.toNat + 7) (by omega) (by omega)).1
    bv_omega

end Kmalloc

/-- Whatever the pool and the size, a pointer that `kmalloc` returns is that of a block as large as asked
for exactly when adding the header does not wrap and the first region of the pool that passes the
allocator's test, if there is one, reaches its next aligned address. -/
theorem kmalloc_takes_block_iff {kmemAlloc : Word → Word} {heap : Heap} {size : Word}
    (hpool : Scattered heap.availMem)
    (hkmem : FreshPages heap.availMem (pageAlign (sizeofKmallocBlock + size))
      (kmemAlloc (pageAlign (sizeofKmallocBlock + size))))
    (hresult : (kmalloc kmemAlloc heap size).result ≠ 0) :
    TakesBlock heap size (kmalloc kmemAlloc heap size) ↔
      8 + size.toNat < 2 ^ 32 ∧ StopsInside heap.availMem (sizeofKmallocBlock + size) 0 0 := by
  cases hfirst : allocatorMemAlloc heap.availMem (sizeofKmallocBlock + size) 0 0 with
  | some found =>
    obtain ⟨block, availMem⟩ := found
    rw [kmalloc_of_some hfirst] at hresult ⊢
    rw [takesBlock_iff rfl hresult (by simp [KmallocCall.grant, InRanges])
      fun x hx => (hpool.bounds hx).2]
    exact hpool.alloc_iff hfirst
  | none =>
    have hstop := stopsInside_of_eq_none hfirst
    by_cases hnull : kmemAlloc (pageAlign (sizeofKmallocBlock + size)) = 0
    · rw [kmalloc_of_null hfirst hnull] at hresult
      exact absurd rfl hresult
    · have hpage := (hkmem hnull).1
      have hjoined := hkmem.joinedBy hnull hpool
      generalize hanswer : kmemAlloc (pageAlign (sizeofKmallocBlock + size)) = page at *
      cases hsecond : allocatorMemAlloc
          (allocatorMemFree heap.availMem page (pageAlign (sizeofKmallocBlock + size)) 0)
          (sizeofKmallocBlock + size) 0 0 with
      | none =>
        simp only [kmalloc, hfirst, hanswer, if_neg hnull, hsecond] at hresult
        exact absurd rfl hresult
      | some found =>
        obtain ⟨block, availMem⟩ := found
        rw [kmalloc_of_refill hfirst (by rwa [hanswer]) (by rw [hanswer]; exact hsecond),
          hanswer] at hresult ⊢
        have hgrant : ∀ x, x ∈ freeAddresses heap.availMem ∨
            InRanges (KmallocCall.mk (some block) (some (pageAlign (sizeofKmallocBlock + size), page))
              ⟨availMem, writeHeader heap.mem block (sizeofKmallocBlock + size) size⟩).grant x ↔
            x ∈ freeAddresses
              (allocatorMemFree heap.availMem page (pageAlign (sizeofKmallocBlock + size)) 0) := by
          intro x
          rw [hjoined.addresses, freeAddresses_cons, Set.mem_union, or_comm]
          simp only [KmallocCall.grant, if_neg hnull, InRanges, List.mem_singleton, exists_eq_left,
            Range.mem_addresses]
        rw [takesBlock_iff rfl hresult hgrant fun x hx => (hjoined.scattered.bounds hx).2,
          hjoined.scattered.alloc_iff hsecond]
        exact and_congr_right fun _ => iff_of_true (stopsInside_refilled hpage hjoined hfirst) hstop

variable {s : HeapState}

/-- In the states of a run the condition on the pool always holds. -/
theorem HeapInv.stopsInside (h : HeapInv s) (blockSize : Word) :
    StopsInside s.heap.availMem blockSize 0 0 :=
  fun _ hregion => h.reachesAligned (List.mem_of_find?_eq_some hregion)

theorem HeapInv.scattered (h : HeapInv s) : Scattered s.heap.availMem := by
  refine ⟨h.tidy.fits, fun r hr => Nat.pos_of_ne_zero fun hzero => ?_, ?_⟩
  · exact h.not_covered_zero _ (covered_of_mem hr (Nat.le_of_eq hzero) (hzero ▸ h.tidy.lo_lt_hi hr))
  · refine (List.pairwise_map.mp h.tidy.canonical.ordered).imp fun hbefore => ?_
    exact Set.disjoint_left.mpr fun x hx hx' =>
      absurd (Nat.lt_of_lt_of_le hx.2 hbefore.1) (Nat.not_lt.mpr hx'.1)

/-- No address of a live block is in the pool. -/
theorem HeapInv.disjoint_live (h : HeapInv s) {b : LiveBlock} (hb : b ∈ s.live) :
    Disjoint b.range.addresses (freeAddresses s.heap.availMem) :=
  Set.disjoint_left.mpr fun x hx ⟨r, hr, hlo, hhi⟩ => by
    have hcovered := covered_of_mem hr hlo hhi
    rw [h.flags _ _ hcovered] at hcovered
    exact h.apart x hcovered ⟨b.range, List.mem_map_of_mem hb, hx⟩

/-- Pages that are new to a run are new to its pool and apart from its live blocks. -/
theorem HeapInv.freshPages (h : HeapInv s) {request answer : Word}
    (hkmem : KmemContract s.grants request answer) : FreshPages s.heap.availMem request answer :=
  fun hne => by
    obtain ⟨hpage, hfits, hgrants⟩ := hkmem hne
    refine ⟨hpage, hfits, Set.disjoint_left.mpr fun x hx ⟨r, hr, hlo, hhi⟩ => ?_⟩
    have hcovered := covered_of_mem hr hlo hhi
    rw [h.flags _ _ hcovered] at hcovered
    obtain ⟨g, hg, hglo, hghi⟩ := (h.partition x).mpr (Or.inl hcovered)
    have hapart := hgrants g hg
    simp only [Range.mem_addresses, Range.lo, Range.hi] at hx hglo hghi hapart
    omega

/-- A pool of an empty region, as a call that wrapped leaves it: five bytes come from the page in front of
which it stands. -/
theorem kmalloc_takes_block_iff_page :
    (kmalloc (fun _ => 0x1000) ⟨[⟨⟨0x1000, 0⟩, 0⟩], fun _ => 0⟩ 5).result = 0x1008 ∧
      TakesBlock ⟨[⟨⟨0x1000, 0⟩, 0⟩], fun _ => 0⟩ 5
        (kmalloc (fun _ => 0x1000) ⟨[⟨⟨0x1000, 0⟩, 0⟩], fun _ => 0⟩ 5) := by
  have hcall : (kmalloc (fun _ => 0x1000) ⟨[⟨⟨0x1000, 0⟩, 0⟩], fun _ => 0⟩ 5).result = 0x1008 := by decide
  refine ⟨hcall, (kmalloc_takes_block_iff ⟨by decide, by decide, by simp⟩ (fun _ => ?_) ?_).mpr
    ⟨by decide, ?_⟩⟩
  · refine ⟨by decide, by decide, ?_⟩
    rw [freeAddresses_cons, freeAddresses_nil, Set.union_empty]
    exact Set.disjoint_left.mpr fun x _ hx => Nat.not_lt.mpr hx.1 hx.2
  · rw [hcall]
    decide
  · unfold StopsInside
    decide

/-- A request for all but four bytes of the address space is answered with a pointer, and four bytes
leave the pool. -/
theorem kmalloc_wrapped_takes_four :
    (kmalloc (fun _ => 0x1000) (kmallocInit fun _ => 0) 0xFFFFFFFC).result = 0x1008 ∧
      (kmalloc (fun _ => 0x1000) (kmallocInit fun _ => 0) 0xFFFFFFFC).kmemAlloc =
        some (0x1000, 0x1000) ∧
      (kmalloc (fun _ => 0x1000) (kmallocInit fun _ => 0) 0xFFFFFFFC).heap.availMem =
        [⟨⟨0x1004, 0xFFC⟩, 0⟩] := by
  decide

end ChrisOS.Mm
