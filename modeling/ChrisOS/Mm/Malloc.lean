import ChrisOS.Mm.Allocator
import ChrisOS.Lib.ByteMem

/-!
# The kernel heap

`mm/malloc.c`: blocks with a header inside the memory they describe, carved out of a pool of
free regions that is refilled with whole pages. `kmem_alloc` is a parameter of a call, since
all the heap sees of it is the address it answers. The heap's spinlock is held for a whole
call, so a call is one step. Pages are never given back, as in the source.
-/

namespace ChrisOS.Mm

open ChrisOS.Utils ChrisOS.Lib

/-- The pool `_malloc_avail_mem`, and the memory that holds the block headers. -/
structure Heap where
  availMem : AllocatorMap
  mem : ByteMem 32

/-- An empty pool over any memory contents. -/
def kmallocInit (mem : ByteMem 32) : Heap := ⟨allocatorMapInit, mem⟩

/-- `sizeof(struct kmalloc_block)`, which is also the offset of `data`. -/
def sizeofKmallocBlock : Word := 8

/-- What one call of `kmalloc` leaves: the block it carved out, the size it asked `kmem_alloc`
for and the answer if it had to ask, and the heap. -/
structure KmallocCall where
  block : Option Word
  kmemAlloc : Option (Word × Word)
  heap : Heap

/-- The pointer the call returns: the block's data area, or null. -/
def KmallocCall.result (call : KmallocCall) : Word :=
  match call.block with
  | some block => block + sizeofKmallocBlock
  | none => 0

/-- Fill in `block_size` and `data_size`. -/
def writeHeader (mem : ByteMem 32) (block blockSize size : Word) : ByteMem 32 :=
  store32 (store32 mem block blockSize) (block + 4) size

/-- `kmalloc`, where `kmemAlloc` is what `kmem_alloc` answers during this call. -/
def kmalloc (kmemAlloc : Word → Word) (heap : Heap) (size : Word) : KmallocCall :=
  let blockSize := sizeofKmallocBlock + size
  match allocatorMemAlloc heap.availMem blockSize 0 0 with
  | some (block, availMem) =>
    ⟨some block, none, availMem, writeHeader heap.mem block blockSize size⟩
  | none =>
    let pageAlignedSize := pageAlign blockSize
    let pagePtr := kmemAlloc pageAlignedSize
    if pagePtr = 0 then ⟨none, some (pageAlignedSize, pagePtr), heap⟩
    else
      let availMem := allocatorMemFree heap.availMem pagePtr pageAlignedSize 0
      match allocatorMemAlloc availMem blockSize 0 0 with
      | some (block, availMem) =>
        ⟨some block, some (pageAlignedSize, pagePtr), availMem,
          writeHeader heap.mem block blockSize size⟩
      | none => ⟨none, some (pageAlignedSize, pagePtr), availMem, heap.mem⟩

/-- `kfree`: the size comes from the header in front of the pointer. -/
def kfree (heap : Heap) (mem : Word) : Heap :=
  if mem = 0 then heap
  else
    let block := mem - sizeofKmallocBlock
    { heap with availMem := allocatorMemFree heap.availMem block (load32 heap.mem block) 0 }

variable {kmemAlloc : Word → Word} {heap : Heap}

/-- A call that finds room in the pool. -/
theorem kmalloc_of_some {size block : Word} {availMem : AllocatorMap}
    (h : allocatorMemAlloc heap.availMem (sizeofKmallocBlock + size) 0 0 = some (block, availMem)) :
    kmalloc kmemAlloc heap size =
      ⟨some block, none, availMem,
        writeHeader heap.mem block (sizeofKmallocBlock + size) size⟩ := by
  simp only [kmalloc, h]

/-- A call that has to ask for pages and gets none. -/
theorem kmalloc_of_null {size : Word}
    (h : allocatorMemAlloc heap.availMem (sizeofKmallocBlock + size) 0 0 = none)
    (hnull : kmemAlloc (pageAlign (sizeofKmallocBlock + size)) = 0) :
    kmalloc kmemAlloc heap size =
      ⟨none, some (pageAlign (sizeofKmallocBlock + size), 0), heap⟩ := by
  simp only [kmalloc, h, hnull, if_true]

/-- A call that asks for pages, adds them to the pool and then finds room. -/
theorem kmalloc_of_refill {size block : Word} {availMem : AllocatorMap}
    (h : allocatorMemAlloc heap.availMem (sizeofKmallocBlock + size) 0 0 = none)
    (hpage : kmemAlloc (pageAlign (sizeofKmallocBlock + size)) ≠ 0)
    (hrefill : allocatorMemAlloc (allocatorMemFree heap.availMem
      (kmemAlloc (pageAlign (sizeofKmallocBlock + size)))
      (pageAlign (sizeofKmallocBlock + size)) 0) (sizeofKmallocBlock + size) 0 0 =
        some (block, availMem)) :
    kmalloc kmemAlloc heap size =
      ⟨some block, some (pageAlign (sizeofKmallocBlock + size),
          kmemAlloc (pageAlign (sizeofKmallocBlock + size))), availMem,
        writeHeader heap.mem block (sizeofKmallocBlock + size) size⟩ := by
  simp only [kmalloc, h, if_neg hpage, hrefill]

/-- Freeing a non-null pointer returns the block its header describes. -/
theorem kfree_of_ne {block size : Word} (hne : block + sizeofKmallocBlock ≠ 0)
    (hheader : load32 heap.mem block = size) :
    kfree heap (block + sizeofKmallocBlock) =
      { heap with availMem := allocatorMemFree heap.availMem block size 0 } := by
  have hblock : block + sizeofKmallocBlock - sizeofKmallocBlock = block :=
    BitVec.add_sub_cancel block sizeofKmallocBlock
  simp only [kfree, if_neg hne, hblock, hheader]

/-- Both fields of a header just written can be read back. -/
theorem load32_writeHeader (mem : ByteMem 32) (block blockSize size : Word) :
    load32 (writeHeader mem block blockSize size) block = blockSize ∧
      load32 (writeHeader mem block blockSize size) (block + 4) = size := by
  have hkept : load32 (writeHeader mem block blockSize size) block =
      load32 (store32 mem block blockSize) block := by
    apply load32_congr
    intro i hi
    apply storeLE_of_ne
    intro j hj
    bv_omega
  exact ⟨hkept.trans (load32_store32 _ _ _), load32_store32 _ _ _⟩

/-- A header is not disturbed by one written more than seven bytes away on either side. -/
theorem load32_writeHeader_of_disjoint (mem : ByteMem 32) (block blockSize size a : Word)
    (hblock : block.toNat + 8 ≤ 2 ^ 32)
    (ha : a.toNat + 4 ≤ block.toNat ∨ (block.toNat + 8 ≤ a.toNat ∧ a.toNat + 4 ≤ 2 ^ 32)) :
    load32 (writeHeader mem block blockSize size) a = load32 mem a := by
  apply load32_congr
  intro i hi
  rw [writeHeader, store32, storeLE_of_ne, store32, storeLE_of_ne]
  · intro j hj
    bv_omega
  · intro j hj
    bv_omega

end ChrisOS.Mm
