import ChrisOS.Ia32.Paging
import ChrisOS.Lib.ByteMem
import ChrisOS.Mm.Kmem

/-!
# Pages wired into the kernel's address space

The part of `mm/kmem.c` that maps physical frames at virtual addresses of the kernel's:
`kmem_alloc`, which takes a frame for every page, and `kmem_frames_clone`, which copies frames through
two mappings. Memory is that of the page directories and tables: a byte is a part of a word of its page. An
access to it goes through the lookup of the current page directory, and `none` is also a page fault.

The flushing of the processor's translation cache is left out: mappings are made, and the cache flushed,
before they are used. The flags that are handed down to the page functions are left out as well, since
none reads them.
-/

namespace ChrisOS.Mm

open ChrisOS.Utils ChrisOS.Lib ChrisOS.Ia32

/-- The kernel's memory management as a whole. -/
structure KernelMemory where
  paging : PagingMemory
  currentPageDir : Word
  kernVmSpace : VmSpace
  kernPmAllocMap : AllocatorMap

/-- The physical address the processor accesses. -/
def KernelMemory.physical (s : KernelMemory) (vaddr : Word) : Option Word :=
  (lookup s.paging s.currentPageDir vaddr).map fun (frame, _) => frame ||| (vaddr &&& ~~~frameMask)

/-- Copy one byte between virtual addresses. -/
def KernelMemory.copyByte (dest src : Word) (i : ℕ) (s : KernelMemory) : Option KernelMemory :=
  (s.physical (src + BitVec.ofNat 32 i)).bind fun source =>
    (s.physical (dest + BitVec.ofNat 32 i)).map fun target =>
      { s with paging := s.paging.storeByte target (s.paging.bytes source) }

/-- `memcpy`, which is `memmove`, between virtual addresses: forwards or backwards. -/
def KernelMemory.memcpy (s : KernelMemory) (dest src len : Word) : Option KernelMemory :=
  if dest < src then countedLoop (KernelMemory.copyByte dest src) 0 len.toNat s
  else countedLoop (fun k => KernelMemory.copyByte dest src (len.toNat - 1 - k)) 0 len.toNat s

/-- `kmem_pages_map`: the address of the mapping, or zero. -/
def kmemPagesMap (s : KernelMemory) (pAddr numPages : Word) : Option (Word × KernelMemory) :=
  let size := numPages * pageSize
  let (vmAddr, space) := kmemVmAlloc s.kernVmSpace size
  let s := { s with kernVmSpace := space }
  if vmAddr = 0 then some (0, s)
  else
    (pagingMap s.paging s.currentPageDir pAddr size vmAddr (present ||| writable ||| user)).map
      fun paging => (vmAddr, { s with paging := paging })

/-- `kmem_pages_unmap`. -/
def kmemPagesUnmap (s : KernelMemory) (vmAddr : Word) : Option (Bool × KernelMemory) :=
  match kmemVmGetSize s.kernVmSpace vmAddr with
  | some size =>
    (pagingUnmap s.paging s.currentPageDir vmAddr size).bind fun paging =>
      (kmemVmFree s.kernVmSpace vmAddr).map fun space =>
        (true, { s with paging := paging, kernVmSpace := space })
  | none => some (false, s)

/-- `kmem_page_alloc`: wire a frame to a page. -/
def kmemPageAlloc (s : KernelMemory) (vmAddr : Word) : Option (Bool × KernelMemory) :=
  let (pAddr, pm) := kmemFramesAlloc s.kernPmAllocMap 1
  let s := { s with kernPmAllocMap := pm }
  if pAddr = 0 then some (false, s)
  else
    (pagingMap s.paging s.currentPageDir pAddr pageSize vmAddr (present ||| writable ||| user)).map
      fun paging => (true, { s with paging := paging })

/-- `kmem_page_free`, which unmaps the page and keeps the frame. -/
def kmemPageFree (s : KernelMemory) (vmAddr : Word) : Option KernelMemory :=
  (pagingUnmap s.paging s.currentPageDir vmAddr pageSize).map fun paging => { s with paging := paging }

/-- `kmem_pages_free`. -/
def kmemPagesFree : ℕ → KernelMemory → Word → Option KernelMemory
  | 0, s, _ => some s
  | numPages + 1, s, vmAddr =>
    (kmemPageFree s vmAddr).bind fun s => kmemPagesFree numPages s (vmAddr + pageSize)

/-- The loop of `kmem_pages_alloc` with its error exit: `i` pages are wired, the next is at `vmAddr`. -/
def kmemPagesAllocFrom (vmBaseAddr : Word) (i : ℕ) :
    ℕ → KernelMemory → Word → Option (Bool × KernelMemory)
  | 0, s, _ => some (true, s)
  | numPages + 1, s, vmAddr =>
    (kmemPageAlloc s vmAddr).bind fun (ok, s) =>
      if ok then kmemPagesAllocFrom vmBaseAddr (i + 1) numPages s (vmAddr + pageSize)
      else (kmemPagesFree i s vmBaseAddr).map fun s => (false, s)

/-- `kmem_pages_alloc`. -/
def kmemPagesAlloc (s : KernelMemory) (vmBaseAddr numPages : Word) : Option (Bool × KernelMemory) :=
  kmemPagesAllocFrom vmBaseAddr 0 numPages.toNat s vmBaseAddr

/-- `kmem_alloc`. -/
def kmemAlloc (s : KernelMemory) (size : Word) : Option (Word × KernelMemory) :=
  let alignedSize := pageAlign size
  let (addr, space) := kmemVmAlloc s.kernVmSpace alignedSize
  let numPages := alignedSize / pageSize
  let s := { s with kernVmSpace := space }
  if addr = 0 then some (addr, s)
  else
    (kmemPagesAlloc s addr numPages).bind fun (ok, s) =>
      if ok then some (addr, s)
      else (kmemVmFree s.kernVmSpace addr).map fun space => (0, { s with kernVmSpace := space })

/-- The end of `kmem_frames_clone`, from the label `cleanup` on. -/
def framesCloneCleanup (s : KernelMemory) (destPmAddr srcVmAddr destVmAddr : Word) :
    Option (Word × KernelMemory) :=
  (if srcVmAddr ≠ 0 then (kmemPagesUnmap s srcVmAddr).map Prod.snd else some s).bind fun s =>
    (if destVmAddr ≠ 0 then (kmemPagesUnmap s destVmAddr).map Prod.snd else some s).map fun s =>
      (destPmAddr, s)

/-- The end of `kmem_frames_clone`, from the label `err_cleanup` on. -/
def framesCloneErrCleanup (s : KernelMemory) (numFrames destPmAddr srcVmAddr destVmAddr : Word) :
    Option (Word × KernelMemory) :=
  let s := if destPmAddr ≠ 0 then
      { s with kernPmAllocMap := kmemFramesFree s.kernPmAllocMap destPmAddr numFrames }
    else s
  framesCloneCleanup s 0 srcVmAddr destVmAddr

/-- `kmem_frames_clone`. Where the frames cannot be allocated the two locals for virtual addresses have
not been initialised yet; `locals` is what they contain. -/
def kmemFramesClone (locals : Word × Word) (s : KernelMemory) (srcPmAddr numFrames : Word) :
    Option (Word × KernelMemory) :=
  let (destPmAddr, pm) := kmemFramesAlloc s.kernPmAllocMap numFrames
  let s := { s with kernPmAllocMap := pm }
  if destPmAddr = 0 then framesCloneErrCleanup s numFrames destPmAddr locals.1 locals.2
  else
    (kmemPagesMap s srcPmAddr numFrames).bind fun (srcVmAddr, s) =>
      if srcVmAddr = 0 then framesCloneErrCleanup s numFrames destPmAddr srcVmAddr 0
      else
        (kmemPagesMap s destPmAddr numFrames).bind fun (destVmAddr, s) =>
          if destVmAddr = 0 then framesCloneErrCleanup s numFrames destPmAddr srcVmAddr destVmAddr
          else
            (s.memcpy destVmAddr srcVmAddr (pageSize * numFrames)).bind fun s =>
              framesCloneCleanup s destPmAddr srcVmAddr destVmAddr

/-- `kmem_frame_clone`. -/
def kmemFrameClone (locals : Word × Word) (s : KernelMemory) (addr : Word) :
    Option (Word × KernelMemory) :=
  kmemFramesClone locals s addr 1

end ChrisOS.Mm
