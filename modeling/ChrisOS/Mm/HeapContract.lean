import ChrisOS.Mm.Malloc
import Mathlib.Logic.Relation

/-!
# What the heap guarantees over whole runs

A run starts from an empty pool and allocates, frees live blocks and lets the owners of
memory write anywhere but into the headers of live blocks. Beside the heap, a state keeps
what the caller knows: the blocks handed out and not yet freed, and the page ranges obtained.

Blocks may have any size, so the pool holds regions of any size and start. What makes the
padding computation of the allocator safe is that every region ends on a four-byte
boundary: the address after a region is either the start of a live block or the end of a
page range, since a region that could be extended has been.
-/

namespace ChrisOS.Mm

open ChrisOS.Utils ChrisOS.Lib

/-- A block handed out by `kmalloc`, with the size that was asked for. -/
structure LiveBlock where
  block : Word
  size : Word
deriving DecidableEq, Repr

/-- The bytes of a live block, header included. -/
def LiveBlock.range (b : LiveBlock) : Range := ⟨b.block, sizeofKmallocBlock + b.size⟩

/-- The heap together with the live blocks and the page ranges obtained so far. -/
structure HeapState where
  heap : Heap
  live : List LiveBlock
  grants : List Range

/-- Address `x` lies in one of the ranges. -/
def InRanges (l : List Range) (x : ℕ) : Prop := ∃ r ∈ l, r.lo ≤ x ∧ x < r.hi

/-- Address `x` is in the pool. -/
def HeapState.Free (s : HeapState) (x : ℕ) : Prop := InRanges (s.heap.availMem.map Region.toRange) x

/-- Address `x` is in a live block. -/
def HeapState.Live (s : HeapState) (x : ℕ) : Prop := InRanges (s.live.map LiveBlock.range) x

/-- Address `x` was obtained from `kmem_alloc`. -/
def HeapState.Granted (s : HeapState) (x : ℕ) : Prop := InRanges s.grants x

/-- The page range a call obtained, if any. -/
def KmallocCall.grant (call : KmallocCall) : List Range :=
  match call.kmemAlloc with
  | some (request, answer) => if answer = 0 then [] else [⟨answer, request⟩]
  | none => []

/-- The state after a call of `kmalloc`. -/
def HeapState.afterKmalloc (s : HeapState) (kmemAlloc : Word → Word) (size : Word) : HeapState :=
  let call := kmalloc kmemAlloc s.heap size
  { heap := call.heap
    live := (call.block.map fun block => ⟨block, size⟩).toList ++ s.live
    grants := call.grant ++ s.grants }

/-- The state after freeing a live block. -/
def HeapState.afterKfree (s : HeapState) (b : LiveBlock) : HeapState :=
  { s with
    heap := kfree s.heap (b.block + sizeofKmallocBlock)
    live := s.live.erase b }

/-- What `kmem_alloc` promises: null, or a page-aligned range of the requested size that fits
in the 32-bit space and is disjoint from all earlier ones. -/
def KmemContract (grants : List Range) (request answer : Word) : Prop :=
  answer ≠ 0 → 4096 ∣ answer.toNat ∧ (⟨answer, request⟩ : Range).Fits ∧
    ∀ g ∈ grants, g.hi ≤ answer.toNat ∨ answer.toNat + request.toNat ≤ g.lo

/-- A call the contract covers: the block rounded up to a page is below `2 ^ 32`, and
`kmem_alloc` answers as promised if it is asked. -/
structure KmallocLegal (s : HeapState) (kmemAlloc : Word → Word) (size : Word) : Prop where
  size_lt : (8 + size.toNat + 4095) / 4096 * 4096 < 2 ^ 32
  kmem : KmemContract s.grants (pageAlign (sizeofKmallocBlock + size))
    (kmemAlloc (pageAlign (sizeofKmallocBlock + size)))

/-- The header bytes of a live block are as they were. -/
def HeaderKept (mem mem' : ByteMem 32) (b : LiveBlock) : Prop :=
  ∀ i < 8, mem' (b.block + BitVec.ofNat 32 i) = mem (b.block + BitVec.ofNat 32 i)

/-- One step of a run. -/
inductive HeapStep : HeapState → HeapState → Prop
  | kmalloc (s : HeapState) (kmemAlloc : Word → Word) (size : Word)
      (h : KmallocLegal s kmemAlloc size) : HeapStep s (s.afterKmalloc kmemAlloc size)
  | kfree (s : HeapState) (b : LiveBlock) (hb : b ∈ s.live)
      (hne : b.block + sizeofKmallocBlock ≠ 0) : HeapStep s (s.afterKfree b)
  | kfreeNull (s : HeapState) : HeapStep s { s with heap := kfree s.heap 0 }
  | write (s : HeapState) (mem : ByteMem 32) (h : ∀ b ∈ s.live, HeaderKept s.heap.mem mem b) :
      HeapStep s { s with heap := { s.heap with mem := mem } }

/-- The states of runs that start from `kmalloc_init`. -/
def HeapReachable (s : HeapState) : Prop :=
  ∃ mem, Relation.ReflTransGen HeapStep ⟨kmallocInit mem, [], []⟩ s

/-- The guarantees that hold after every step. -/
structure HeapContract (s : HeapState) : Prop where
  live_disjoint : s.live.Pairwise fun a b =>
    a.range.hi ≤ b.range.lo ∨ b.range.hi ≤ a.range.lo
  live_aligned : ∀ b ∈ s.live, 4 ∣ b.block.toNat
  live_size : ∀ b ∈ s.live, (load32 s.heap.mem b.block).toNat = b.size.toNat + 8 ∧ b.range.Fits
  regions_nonempty : ∀ r ∈ s.heap.availMem, r.size ≠ 0
  regions_apart : s.heap.availMem.Pairwise fun a b => a.hi < b.lo
  free_not_live : ∀ x, s.Free x → ¬ s.Live x
  granted_iff : ∀ x, s.Granted x ↔ s.Free x ∨ s.Live x
  padding : ∀ r ∈ s.heap.availMem, alignAddress r.address 4 - r.address ≤ r.size

/-- The inductive invariant behind the contract. -/
structure HeapInv (s : HeapState) : Prop where
  tidy : Tidy (· = ·) s.heap.availMem
  flags : ∀ x c, Covered s.heap.availMem x c → c = 0
  blocks : ∀ b ∈ s.live, b.range.Fits ∧ 4 ∣ b.block.toNat ∧ 8 + b.size.toNat < 2 ^ 32
  headers : ∀ b ∈ s.live, load32 s.heap.mem b.block = sizeofKmallocBlock + b.size
  disjoint : s.live.Pairwise fun a b => a.range.hi ≤ b.range.lo ∨ b.range.hi ≤ a.range.lo
  grants : ∀ g ∈ s.grants, 4096 ∣ g.lo ∧ 4096 ∣ g.hi ∧ 0 < g.lo ∧ g.Fits
  apart : ∀ x, Covered s.heap.availMem x 0 → ¬ s.Live x
  partition : ∀ x, s.Granted x ↔ Covered s.heap.availMem x 0 ∨ s.Live x

variable {s : HeapState}

/-- The pool's addresses are the covered ones. -/
theorem HeapInv.free_iff (h : HeapInv s) (x : ℕ) : s.Free x ↔ Covered s.heap.availMem x 0 := by
  constructor
  · intro hfree
    obtain ⟨r, hr, hlo, hhi⟩ := hfree
    obtain ⟨q, hq, rfl⟩ := List.mem_map.mp hr
    have hcovered := covered_of_mem hq hlo hhi
    rwa [h.flags _ _ hcovered] at hcovered
  · intro hcovered
    obtain ⟨r, hr, _, hlo, hhi⟩ := (covered_iff _ _ _).mp hcovered
    exact ⟨r.toRange, List.mem_map_of_mem hr, hlo, hhi⟩

variable {r : AllocatorRegion}

/-- A region of the pool carries no flags. -/
theorem HeapInv.attrs_eq (h : HeapInv s) (hr : r ∈ s.heap.availMem) : r.attrs = 0 :=
  h.flags _ _ (covered_of_mem hr (Nat.le_refl _) (h.tidy.lo_lt_hi hr))

/-- Every region of the pool ends on a four-byte boundary. -/
theorem HeapInv.dvd_hi (h : HeapInv s) (hr : r ∈ s.heap.availMem) : 4 ∣ r.hi := by
  have hne := h.tidy.lo_lt_hi hr
  have hattrs := h.attrs_eq hr
  have hlast : Covered s.heap.availMem (r.hi - 1) 0 :=
    hattrs ▸ covered_of_mem hr (by omega) (by omega)
  by_cases hgranted : s.Granted r.hi
  · obtain hfree | ⟨q, hq, hlo, hhi⟩ := (h.partition r.hi).mp hgranted
    · rw [← hattrs] at hfree
      exact absurd hfree (h.tidy.canonical.not_coversWith_hi (List.mem_map_of_mem hr))
    · -- A live block that holds the address after the region starts there.
      obtain ⟨b, hb, rfl⟩ := List.mem_map.mp hq
      have hstart : ¬ b.range.lo < r.hi := fun hlt =>
        h.apart _ hlast ⟨b.range, hq, by omega, by omega⟩
      have heq : b.range.lo = r.hi := by omega
      rw [← heq]
      exact (h.blocks b hb).2.1
  · obtain ⟨g, hg, hlo, hhi⟩ := (h.partition _).mpr (Or.inl hlast)
    have hend : ¬ r.hi < g.hi := fun hlt => hgranted ⟨g, hg, by omega, hlt⟩
    have heq : g.hi = r.hi := by omega
    rw [← heq]
    exact Nat.dvd_trans (by decide) (h.grants g hg).2.1

/-- No region's padding exceeds its size. -/
theorem HeapInv.reachesAligned (h : HeapInv s) (hr : r ∈ s.heap.availMem) :
    ReachesAligned (effectiveAlignment 0) r.toRange :=
  reachesAligned_of_dvd_hi 2 rfl (h.tidy.lo_lt_hi hr) (h.dvd_hi hr)

/-- Address zero is never obtained, so it is in no region. -/
theorem HeapInv.not_covered_zero (h : HeapInv s) (c : AllocRegionFlags) :
    ¬ Covered s.heap.availMem 0 c := by
  intro hcovered
  rw [h.flags _ _ hcovered] at hcovered
  obtain ⟨g, hg, hlo, _⟩ := (h.partition 0).mpr (Or.inl hcovered)
  have := (h.grants g hg).2.2.1
  omega

/-- Adding a fresh page range to the pool keeps the invariant. -/
theorem HeapInv.refill (h : HeapInv s) {page size : Word} (hne : page ≠ 0) (hpage : 4096 ∣ page.toNat)
    (hsize : 4096 ∣ size.toNat) (hpos : 0 < size.toNat)
    (hfits : (⟨page, size⟩ : Range).Fits)
    (hdisjoint : ∀ g ∈ s.grants, g.hi ≤ page.toNat ∨ page.toNat + size.toNat ≤ g.lo) :
    HeapInv { s with
      heap := { s.heap with availMem := allocatorMemFree s.heap.availMem page size 0 }
      grants := ⟨page, size⟩ :: s.grants } := by
  have hoff : ∀ x, s.Granted x → ¬ (page.toNat ≤ x ∧ x < page.toNat + size.toNat) := by
    intro x hx
    obtain ⟨g, hg, hlo, hhi⟩ := hx
    have := hdisjoint g hg
    omega
  have hlow : 0 < page.toNat := by bv_omega
  obtain ⟨htidy, hcover⟩ : Tidy (· = ·) (allocatorMemFree s.heap.availMem page size 0) ∧
      ∀ x c, Covered (allocatorMemFree s.heap.availMem page size 0) x c ↔
        (0 = c ∧ page.toNat ≤ x ∧ x < page.toNat + size.toNat) ∨ Covered s.heap.availMem x c :=
    allocatorMemFree_tidy (r := ⟨page, size⟩) 0 h.tidy (by simp only [Range.lo, Range.hi]; omega)
      hfits
      (fun x c hx => by
        rw [h.flags _ _ hx] at hx
        exact hoff x ((h.partition x).mpr (Or.inl hx)))
      h.not_covered_zero fun hzero => Nat.not_le.mpr hlow hzero.1
  exact
    { tidy := htidy
      flags := fun x c hx => by
        obtain ⟨hc, _⟩ | hx := (hcover x c).mp hx
        · exact hc.symm
        · exact h.flags x c hx
      blocks := h.blocks
      headers := h.headers
      disjoint := h.disjoint
      grants := fun g hg => by
        obtain rfl | hg := List.mem_cons.mp hg
        · exact ⟨hpage, Nat.dvd_add hpage hsize, hlow, hfits⟩
        · exact h.grants g hg
      apart := fun x hx hlive => by
        obtain ⟨_, hx⟩ | hx := (hcover x 0).mp hx
        · exact hoff x ((h.partition x).mpr (Or.inr hlive)) hx
        · exact h.apart x hx hlive
      partition := fun x => by
        change InRanges (⟨page, size⟩ :: s.grants) x ↔
          Covered (allocatorMemFree s.heap.availMem page size 0) x 0 ∨ s.Live x
        have hold : InRanges s.grants x ↔ Covered s.heap.availMem x 0 ∨ s.Live x := h.partition x
        rw [hcover, or_assoc, ← hold]
        simp [InRanges, Range.lo, Range.hi] }

variable {size block : Word}

theorem sizeofKmallocBlock_add (h : 8 + size.toNat < 2 ^ 32) :
    (sizeofKmallocBlock + size).toNat = 8 + size.toNat := by
  simp only [sizeofKmallocBlock]
  bv_omega

variable {availMem : AllocatorMap}

/-- The pool allocation of a block: aligned, from free addresses, and exactly what left the pool. -/
theorem HeapInv.alloc_block (h : HeapInv s) (hsize : 8 + size.toNat < 2 ^ 32)
    (halloc : allocatorMemAlloc s.heap.availMem (sizeofKmallocBlock + size) 0 0 =
      some (block, availMem)) :
    4 ∣ block.toNat ∧ block.toNat + (8 + size.toNat) ≤ 2 ^ 32 ∧
      (∀ x, block.toNat ≤ x → x < block.toNat + (8 + size.toNat) → Covered s.heap.availMem x 0) ∧
      Tidy (· = ·) availMem ∧
      ∀ x c, Covered availMem x c ↔
        Covered s.heap.availMem x c ∧ ¬ (block.toNat ≤ x ∧ x < block.toNat + (8 + size.toNat)) := by
  have hvalue := sizeofKmallocBlock_add hsize
  obtain ⟨⟨r, hr, _, _, hlo, hhi⟩, hdvd, htidy, hcover⟩ :=
    allocatorMemAlloc_tidy 2 rfl h.tidy (fun r hr => h.reachesAligned hr) (by omega) halloc
  rw [hvalue] at hhi hcover
  have hfits : r.hi ≤ 2 ^ 32 := h.tidy.fits r hr
  refine ⟨hdvd, by omega, fun x hx hx' => ?_, htidy, hcover⟩
  exact h.attrs_eq hr ▸ covered_of_mem hr (by omega) (by omega)

/-- Carving a block out of the pool and writing its header keeps the invariant. -/
theorem HeapInv.carve (h : HeapInv s) (hsize : 8 + size.toNat < 2 ^ 32)
    (halloc : allocatorMemAlloc s.heap.availMem (sizeofKmallocBlock + size) 0 0 =
      some (block, availMem)) :
    HeapInv { s with
      heap := ⟨availMem, writeHeader s.heap.mem block (sizeofKmallocBlock + size) size⟩
      live := ⟨block, size⟩ :: s.live } := by
  obtain ⟨hdvd, hend, hfree, htidy, hcover⟩ := h.alloc_block hsize halloc
  have hvalue := sizeofKmallocBlock_add hsize
  have hlo : (LiveBlock.mk block size).range.lo = block.toNat := rfl
  have hhi : (LiveBlock.mk block size).range.hi = block.toNat + (8 + size.toNat) :=
    congrArg (block.toNat + ·) hvalue
  have hblock : ∀ b ∈ s.live, b.range.lo < b.range.hi ∧ b.range.lo + 8 ≤ b.range.hi := by
    intro b hb
    have := sizeofKmallocBlock_add (h.blocks b hb).2.2
    simp only [LiveBlock.range, Range.lo, Range.hi]
    omega
  have hnew : ∀ b ∈ s.live, (LiveBlock.mk block size).range.hi ≤ b.range.lo ∨
      b.range.hi ≤ (LiveBlock.mk block size).range.lo := by
    intro b hb
    have hoff : ∀ x, b.range.lo ≤ x → x < b.range.hi →
        ¬ (block.toNat ≤ x ∧ x < block.toNat + (8 + size.toNat)) := fun x hx hx' hin =>
      h.apart x (hfree x hin.1 hin.2) ⟨b.range, List.mem_map_of_mem hb, hx, hx'⟩
    have hfirst := hoff b.range.lo (Nat.le_refl _) (hblock b hb).1
    have hstart : ¬ (b.range.lo ≤ block.toNat ∧ block.toNat < b.range.hi) := fun hin =>
      hoff _ hin.1 hin.2 ⟨Nat.le_refl _, by omega⟩
    omega
  exact
    { tidy := htidy
      flags := fun x c hx => h.flags x c ((hcover x c).mp hx).1
      blocks := fun b hb => by
        obtain rfl | hb := List.mem_cons.mp hb
        · refine ⟨?_, hdvd, hsize⟩
          unfold Range.Fits
          omega
        · exact h.blocks b hb
      headers := fun b hb => by
        obtain rfl | hb := List.mem_cons.mp hb
        · exact (load32_writeHeader _ _ _ _).1
        · have hfits : b.range.hi ≤ 2 ^ 32 := (h.blocks b hb).1
          have hroom := (hblock b hb).2
          have happart := hnew b hb
          have hb_lo : b.range.lo = b.block.toNat := rfl
          change load32 (writeHeader _ _ _ _) b.block = _
          rw [load32_writeHeader_of_disjoint _ _ _ _ _ (by omega) (by omega)]
          exact h.headers b hb
      disjoint := List.pairwise_cons.mpr ⟨hnew, h.disjoint⟩
      grants := h.grants
      apart := fun x hx hlive => by
        obtain ⟨hx, hout⟩ := (hcover x 0).mp hx
        obtain ⟨r, hr, hin⟩ := hlive
        rw [List.map_cons, List.mem_cons] at hr
        obtain rfl | hr := hr
        · exact hout (by omega)
        · exact h.apart x hx ⟨r, hr, hin⟩
      partition := fun x => by
        change s.Granted x ↔ Covered availMem x 0 ∨
          InRanges ((LiveBlock.mk block size).range :: s.live.map LiveBlock.range) x
        have hsplit : InRanges ((LiveBlock.mk block size).range :: s.live.map LiveBlock.range) x ↔
            (block.toNat ≤ x ∧ x < block.toNat + (8 + size.toNat)) ∨ s.Live x := by
          simp [InRanges, HeapState.Live, hlo, hhi]
        rw [hcover, hsplit, h.partition]
        exact (moved_iff fun hin => hfree x hin.1 hin.2).symm }

/-- Freeing a live block keeps the invariant. -/
theorem HeapInv.release (h : HeapInv s) {b : LiveBlock} (hb : b ∈ s.live)
    (hne : b.block + sizeofKmallocBlock ≠ 0) : HeapInv (s.afterKfree b) := by
  obtain ⟨hfits, _, hsize⟩ := h.blocks b hb
  have hvalue := sizeofKmallocBlock_add hsize
  have hperm := List.perm_cons_erase hb
  obtain ⟨hothers, hdisjoint⟩ := List.pairwise_cons.mp
    (hperm.pairwise h.disjoint fun hab => hab.symm)
  have hlive : ∀ x, s.Live x ↔ (b.range.lo ≤ x ∧ x < b.range.hi) ∨
      InRanges ((s.live.erase b).map LiveBlock.range) x := by
    intro x
    simp only [HeapState.Live, InRanges, (hperm.map LiveBlock.range).mem_iff, List.map_cons,
      List.mem_cons, or_and_right, exists_or, exists_eq_left]
  have hother : ∀ x, InRanges ((s.live.erase b).map LiveBlock.range) x →
      ¬ (b.range.lo ≤ x ∧ x < b.range.hi) := by
    intro x hx
    obtain ⟨r, hr, hlo, hhi⟩ := hx
    obtain ⟨c, hc, rfl⟩ := List.mem_map.mp hr
    have := hothers c hc
    omega
  have hmem : (kfree s.heap (b.block + sizeofKmallocBlock)) = { s.heap with
      availMem := allocatorMemFree s.heap.availMem b.block (sizeofKmallocBlock + b.size) 0 } :=
    kfree_of_ne hne (h.headers b hb)
  have hne : b.range.lo < b.range.hi := by
    change b.block.toNat < b.block.toNat + (sizeofKmallocBlock + b.size).toNat
    omega
  have hlow : ¬ (b.range.lo ≤ 0 ∧ 0 < b.range.hi) := by
    intro hzero
    obtain ⟨g, hg, hlo, _⟩ := (h.partition 0).mpr (Or.inr ((hlive 0).mpr (Or.inl hzero)))
    have := (h.grants g hg).2.2.1
    omega
  obtain ⟨htidy, hcover⟩ := allocatorMemFree_tidy 0 h.tidy hne hfits
    (fun x c hx hin => by
      rw [h.flags _ _ hx] at hx
      exact h.apart x hx ((hlive x).mpr (Or.inl hin)))
    h.not_covered_zero hlow
  unfold HeapState.afterKfree
  rw [hmem]
  exact
    { tidy := htidy
      flags := fun x c hx => by
        obtain ⟨hc, _⟩ | hx := (hcover x c).mp hx
        · exact hc.symm
        · exact h.flags x c hx
      blocks := fun c hc => h.blocks c (List.mem_of_mem_erase hc)
      headers := fun c hc => h.headers c (List.mem_of_mem_erase hc)
      disjoint := hdisjoint
      grants := h.grants
      apart := fun x hx hin => by
        obtain ⟨_, hx⟩ | hx := (hcover x 0).mp hx
        · exact hother x hin hx
        · exact h.apart x hx ((hlive x).mpr (Or.inr hin))
      partition := fun x => by
        change s.Granted x ↔ Covered (allocatorMemFree _ b.range.address b.range.size _) x 0 ∨
          InRanges ((s.live.erase b).map LiveBlock.range) x
        rw [hcover, h.partition, hlive]
        simp only [true_and, or_assoc]
        exact or_left_comm }

/-- Writes that spare the headers of live blocks keep the invariant. -/
theorem HeapInv.write (h : HeapInv s) {mem : ByteMem 32}
    (hkept : ∀ b ∈ s.live, HeaderKept s.heap.mem mem b) :
    HeapInv { s with heap := { s.heap with mem := mem } } :=
  { h with
    headers := fun b hb => by
      have hload : load32 mem b.block = load32 s.heap.mem b.block :=
        load32_congr b.block fun i hi => hkept b hb i (by omega)
      exact hload.trans (h.headers b hb) }

/-- The state inside a call after the pages it obtained have joined the pool. -/
def HeapState.refilled (s : HeapState) (kmemAlloc : Word → Word) (size : Word) : HeapState :=
  let request := pageAlign (sizeofKmallocBlock + size)
  { s with
    heap := { s.heap with
      availMem := allocatorMemFree s.heap.availMem (kmemAlloc request) request 0 }
    grants := ⟨kmemAlloc request, request⟩ :: s.grants }

variable {kmemAlloc : Word → Word}

/-- The request for pages is large enough for the block and does not wrap. -/
theorem KmallocLegal.request (h : KmallocLegal s kmemAlloc size) :
    8 + size.toNat < 2 ^ 32 ∧ 4096 ∣ (pageAlign (sizeofKmallocBlock + size)).toNat ∧
      8 + size.toNat ≤ (pageAlign (sizeofKmallocBlock + size)).toNat := by
  have hlt := h.size_lt
  have hsize : 8 + size.toNat < 2 ^ 32 := by omega
  have hvalue := toNat_pageAlign (sizeofKmallocBlock + size)
  rw [sizeofKmallocBlock_add hsize] at hvalue
  omega

/-- Pages obtained during a legal call join the pool without breaking the invariant. -/
theorem HeapInv.refilled (h : HeapInv s) (hlegal : KmallocLegal s kmemAlloc size)
    (hne : kmemAlloc (pageAlign (sizeofKmallocBlock + size)) ≠ 0) :
    HeapInv (s.refilled kmemAlloc size) := by
  obtain ⟨_, hdvd, hle⟩ := hlegal.request
  obtain ⟨hpage, hfits, hdisjoint⟩ := hlegal.kmem hne
  exact h.refill hne hpage hdvd (by omega) hfits hdisjoint

/-- The refilled pool has room for the block, no later than at the start of the new pages. -/
theorem HeapInv.exists_of_refilled (h : HeapInv s) (hlegal : KmallocLegal s kmemAlloc size)
    (hne : kmemAlloc (pageAlign (sizeofKmallocBlock + size)) ≠ 0) :
    ∃ block availMem, allocatorMemAlloc (s.refilled kmemAlloc size).heap.availMem
        (sizeofKmallocBlock + size) 0 0 = some (block, availMem) ∧
      block.toNat ≤ (kmemAlloc (pageAlign (sizeofKmallocBlock + size))).toNat := by
  obtain ⟨hsize, _, hle⟩ := hlegal.request
  have hinv := h.refilled hlegal hne
  have hvalue := sizeofKmallocBlock_add hsize
  have hdvd := Nat.dvd_trans (show 2 ^ 2 ∣ 4096 by decide) (hlegal.kmem hne).1
  have hgranted : ∀ x, (kmemAlloc (pageAlign (sizeofKmallocBlock + size))).toNat ≤ x →
      x < (kmemAlloc (pageAlign (sizeofKmallocBlock + size))).toNat +
        (sizeofKmallocBlock + size).toNat →
      Covered (s.refilled kmemAlloc size).heap.availMem x 0 := by
    intro x hlo hhi
    have hin : (s.refilled kmemAlloc size).Granted x :=
      ⟨_, List.mem_cons_self, hlo, by simp only [Range.hi]; omega⟩
    obtain hcovered | hlive := (hinv.partition x).mp hin
    · exact hcovered
    · -- A live block lies in earlier pages, which the new ones do not meet.
      obtain ⟨g, hg, hglo, hghi⟩ := (h.partition x).mpr (Or.inr hlive)
      have := (hlegal.kmem hne).2.2 g hg
      omega
  have hsome : allocatorMemAlloc (s.refilled kmemAlloc size).heap.availMem
      (sizeofKmallocBlock + size) 0 0 ≠ none :=
    allocatorMemAlloc_ne_none 2 rfl hinv.tidy (by omega) (Or.inl rfl) hdvd hgranted
  obtain ⟨⟨block, availMem⟩, halloc⟩ := Option.ne_none_iff_exists'.mp hsome
  exact ⟨block, availMem, halloc, allocatorMemAlloc_least 2 rfl hinv.tidy
    (fun r hr => hinv.reachesAligned hr) (by omega) halloc (Or.inl rfl) hdvd hgranted⟩

/-- What a legal call does: carve a block out of the pool, be refused pages, or carve a block
out of the refilled pool. -/
theorem HeapInv.kmalloc_cases (h : HeapInv s) (hlegal : KmallocLegal s kmemAlloc size) :
    (∃ block availMem,
      allocatorMemAlloc s.heap.availMem (sizeofKmallocBlock + size) 0 0 = some (block, availMem) ∧
      kmalloc kmemAlloc s.heap size = ⟨some block, none, availMem,
        writeHeader s.heap.mem block (sizeofKmallocBlock + size) size⟩) ∨
    allocatorMemAlloc s.heap.availMem (sizeofKmallocBlock + size) 0 0 = none ∧
      (kmalloc kmemAlloc s.heap size =
          ⟨none, some (pageAlign (sizeofKmallocBlock + size), 0), s.heap⟩ ∨
        ∃ page block availMem, page ≠ 0 ∧ page = kmemAlloc (pageAlign (sizeofKmallocBlock + size)) ∧
          allocatorMemAlloc (s.refilled kmemAlloc size).heap.availMem
            (sizeofKmallocBlock + size) 0 0 = some (block, availMem) ∧
          block.toNat ≤ page.toNat ∧
          kmalloc kmemAlloc s.heap size =
            ⟨some block, some (pageAlign (sizeofKmallocBlock + size), page), availMem,
              writeHeader s.heap.mem block (sizeofKmallocBlock + size) size⟩) := by
  cases halloc : allocatorMemAlloc s.heap.availMem (sizeofKmallocBlock + size) 0 0 with
  | some result => exact Or.inl ⟨result.1, result.2, rfl, kmalloc_of_some halloc⟩
  | none =>
    refine Or.inr ⟨rfl, ?_⟩
    by_cases hnull : kmemAlloc (pageAlign (sizeofKmallocBlock + size)) = 0
    · exact Or.inl (kmalloc_of_null halloc hnull)
    · obtain ⟨block, availMem, hrefill, hle⟩ := h.exists_of_refilled hlegal hnull
      exact Or.inr ⟨_, block, availMem, hnull, rfl, hrefill, hle,
        kmalloc_of_refill halloc hnull hrefill⟩

/-- A legal call keeps the invariant. -/
theorem HeapInv.afterKmalloc (h : HeapInv s) (hlegal : KmallocLegal s kmemAlloc size) :
    HeapInv (s.afterKmalloc kmemAlloc size) := by
  have hsize := hlegal.request.1
  unfold HeapState.afterKmalloc
  obtain ⟨block, availMem, halloc, hcall⟩ | ⟨_, hcall | ⟨page, block, availMem, hne, rfl, hrefill,
    _, hcall⟩⟩ := h.kmalloc_cases hlegal
  · rw [hcall]
    exact h.carve hsize halloc
  · rw [hcall]
    exact h
  · rw [hcall]
    simp only [KmallocCall.grant, if_neg hne]
    exact (h.refilled hlegal hne).carve hsize hrefill

/-- Every step keeps the invariant. -/
theorem HeapInv.step {s s' : HeapState} (h : HeapInv s) (hstep : HeapStep s s') : HeapInv s' := by
  cases hstep with
  | kmalloc kmemAlloc size hlegal => exact h.afterKmalloc hlegal
  | kfree b hb hne => exact h.release hb hne
  | kfreeNull => exact h
  | write mem hkept => exact h.write hkept

/-- The empty heap meets the invariant. -/
theorem heapInv_init (mem : ByteMem 32) : HeapInv ⟨kmallocInit mem, [], []⟩ where
  tidy := ⟨Canonical.nil, by simp [kmallocInit, allocatorMapInit]⟩
  flags := by simp [kmallocInit, allocatorMapInit]
  blocks := by simp
  headers := by simp
  disjoint := List.Pairwise.nil
  grants := by simp
  apart := by simp [kmallocInit, allocatorMapInit]
  partition := by
    simp [HeapState.Granted, HeapState.Live, InRanges, kmallocInit, allocatorMapInit]

/-- Every reachable state meets the invariant. -/
theorem HeapReachable.inv (h : HeapReachable s) : HeapInv s := by
  obtain ⟨mem, hrun⟩ := h
  induction hrun with
  | refl => exact heapInv_init mem
  | tail _ hstep ih => exact ih.step hstep

/-- The invariant gives the contract. -/
theorem HeapInv.contract (h : HeapInv s) : HeapContract s where
  live_disjoint := h.disjoint
  live_aligned b hb := (h.blocks b hb).2.1
  live_size b hb := by
    rw [h.headers b hb, sizeofKmallocBlock_add (h.blocks b hb).2.2]
    exact ⟨Nat.add_comm _ _, (h.blocks b hb).1⟩
  regions_nonempty r hr := by
    have hne := h.tidy.lo_lt_hi hr
    simp only [Range.lo, Range.hi] at hne
    bv_omega
  regions_apart := by
    refine (List.pairwise_map.mp h.tidy.canonical.ordered).imp_of_mem fun ha hb hab => ?_
    exact hab.2 ((h.attrs_eq ha).trans (h.attrs_eq hb).symm)
  free_not_live x hx := h.apart x ((h.free_iff x).mp hx)
  granted_iff x := by rw [h.free_iff, h.partition]
  padding _ hr := h.reachesAligned hr

/-- Eight free bytes on a four-byte boundary: room for a block without data. -/
def HeapState.RoomAt (s : HeapState) (a : ℕ) : Prop :=
  4 ∣ a ∧ ∀ x, a ≤ x → x < a + 8 → s.Free x

/-- The last eight bytes of the 32-bit space are the only room in the pool. -/
def HeapState.OnlyTopRoom (s : HeapState) : Prop :=
  s.RoomAt (2 ^ 32 - 8) ∧ ∀ a, s.RoomAt a → a = 2 ^ 32 - 8

/-- Where the pool refuses a block, it has no room even for one without data. -/
theorem HeapInv.not_roomAt_of_none (h : HeapInv s)
    (hnone : allocatorMemAlloc s.heap.availMem (sizeofKmallocBlock + 0) 0 0 = none) (a : ℕ) :
    ¬ s.RoomAt a := by
  intro hroom
  have hfree : ∀ x, a ≤ x → x < a + (sizeofKmallocBlock + 0).toNat →
      Covered s.heap.availMem x 0 := fun x hlo hhi => (h.free_iff x).mp (hroom.2 x hlo hhi)
  exact allocatorMemAlloc_ne_none 2 rfl h.tidy (by decide) (Or.inl rfl) hroom.1 hfree hnone

/-- The pool stays below the end of the 32-bit space, and so does every room in it. -/
theorem HeapInv.roomAt_le (h : HeapInv s) {a : ℕ} (hroom : s.RoomAt a) : a ≤ 2 ^ 32 - 8 := by
  obtain ⟨q, hq, hlo, hhi⟩ := hroom.2 (a + 7) (by omega) (by omega)
  obtain ⟨r, hr, rfl⟩ := List.mem_map.mp hq
  have hfits : r.hi ≤ 2 ^ 32 := h.tidy.fits r hr
  omega

/-- A block from the pool has a null data pointer exactly when it has no data and the top of
the 32-bit space is the only room. -/
theorem HeapInv.block_add_eq_zero_iff (h : HeapInv s) (hsize : 8 + size.toNat < 2 ^ 32)
    (halloc : allocatorMemAlloc s.heap.availMem (sizeofKmallocBlock + size) 0 0 =
      some (block, availMem)) :
    block + sizeofKmallocBlock = 0 ↔ size = 0 ∧ s.OnlyTopRoom := by
  obtain ⟨hdvd, hend, hfree, _, _⟩ := h.alloc_block hsize halloc
  have hroom : s.RoomAt block.toNat :=
    ⟨hdvd, fun x hlo hhi => (h.free_iff x).mpr (hfree x hlo (by omega))⟩
  have hnull : block + sizeofKmallocBlock = 0 ↔ block.toNat = 2 ^ 32 - 8 := by
    simp only [sizeofKmallocBlock]
    bv_omega
  rw [hnull]
  constructor
  · intro htop
    have hzero : size = 0 := by bv_omega
    subst hzero
    refine ⟨rfl, htop ▸ hroom, fun a ha => ?_⟩
    have hle := allocatorMemAlloc_least 2 rfl h.tidy (fun r hr => h.reachesAligned hr) (by decide)
      halloc (Or.inl rfl) ha.1 fun x hlo hhi => (h.free_iff x).mp (ha.2 x hlo hhi)
    have := h.roomAt_le ha
    omega
  · intro htop
    exact htop.2.2 _ hroom

/-- When `kmalloc` answers null although it was not refused pages. -/
theorem HeapInv.kmalloc_null_iff (h : HeapInv s) (hlegal : KmallocLegal s kmemAlloc size) :
    ((kmalloc kmemAlloc s.heap size).result = 0 →
        ∃ request, (kmalloc kmemAlloc s.heap size).kmemAlloc = some (request, 0)) ↔
      ¬ (size = 0 ∧ s.OnlyTopRoom) := by
  have hsize := hlegal.request.1
  obtain ⟨block, availMem, halloc, hcall⟩ | ⟨hnone, hcall⟩ := h.kmalloc_cases hlegal
  · rw [hcall, ← h.block_add_eq_zero_iff hsize halloc]
    simp [KmallocCall.result]
  · have hnot : ¬ (size = 0 ∧ s.OnlyTopRoom) := by
      intro htop
      rw [htop.1] at hnone
      exact h.not_roomAt_of_none hnone _ htop.2.1
    refine iff_of_true ?_ hnot
    obtain hcall | ⟨page, block, availMem, hne, rfl, _, hle, hcall⟩ := hcall
    · rw [hcall]
      exact fun _ => ⟨_, rfl⟩
    · rw [hcall]
      intro hzero
      have hpage := (hlegal.kmem hne).1
      simp only [KmallocCall.result, sizeofKmallocBlock] at hzero
      bv_omega

/-- In every reachable state the live blocks and the pool partition the memory obtained, and a
legal call answers null only when it was refused pages, except for a call that asks for no
data while the last eight bytes of the address space are the only room. -/
theorem heap_contract_of_reachable (s : HeapState) (hreach : HeapReachable s) :
    HeapContract s ∧ ∀ kmemAlloc size, KmallocLegal s kmemAlloc size →
      (kmemAlloc (pageAlign (sizeofKmallocBlock + size)) ≠ 0 →
        HeapContract (s.refilled kmemAlloc size)) ∧
      (((kmalloc kmemAlloc s.heap size).result = 0 →
          ∃ request, (kmalloc kmemAlloc s.heap size).kmemAlloc = some (request, 0)) ↔
        ¬ (size = 0 ∧ s.OnlyTopRoom)) := by
  have hinv := hreach.inv
  refine ⟨hinv.contract, fun kmemAlloc size hlegal => ⟨fun hne => ?_, ?_⟩⟩
  · exact (hinv.refilled hlegal hne).contract
  · exact hinv.kmalloc_null_iff hlegal

/-- The heap after one page at the top of the address space was obtained and all but its last
eight bytes were handed out. -/
def topPageState : HeapState :=
  (⟨kmallocInit fun _ => 0, [], []⟩ : HeapState).afterKmalloc (fun _ => 0xFFFFF000) 4080

theorem topPageState_reachable : HeapReachable topPageState :=
  ⟨fun _ => 0, Relation.ReflTransGen.single (HeapStep.kmalloc _ _ _
    { size_lt := by decide
      kmem := fun _ => by refine ⟨by decide, by decide, by simp⟩ })⟩

theorem topPageState_legal (size : Word) (h : (8 + size.toNat + 4095) / 4096 * 4096 < 2 ^ 32) :
    KmallocLegal topPageState (fun _ => 0) size where
  size_lt := h
  kmem := fun hne => absurd rfl hne

/-- With only the top eight bytes free, a call for four bytes that answers null was refused. -/
theorem heap_contract_topPageState :
    HeapContract topPageState ∧
      ((kmalloc (fun _ => 0) topPageState.heap 4).result = 0 →
        ∃ request, (kmalloc (fun _ => 0) topPageState.heap 4).kmemAlloc = some (request, 0)) := by
  obtain ⟨hcontract, hcall⟩ := heap_contract_of_reachable topPageState topPageState_reachable
  refine ⟨hcontract, (hcall (fun _ => 0) 4 (topPageState_legal 4 (by decide))).2.mpr ?_⟩
  exact fun h => absurd h.1 (by decide)

/-- A call for zero bytes returns null without having asked for pages. -/
theorem kmalloc_zero_null :
    HeapReachable topPageState ∧ KmallocLegal topPageState (fun _ => 0) 0 ∧
      (kmalloc (fun _ => 0) topPageState.heap 0).result = 0 ∧
      (kmalloc (fun _ => 0) topPageState.heap 0).kmemAlloc = none :=
  ⟨topPageState_reachable, topPageState_legal 0 (by decide), by decide, by decide⟩

end ChrisOS.Mm
