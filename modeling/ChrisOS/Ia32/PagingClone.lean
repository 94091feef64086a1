import ChrisOS.Mm.LargeBlocks

/-!
# Cloning a page directory

`paging_pd_clone` and the functions it uses. Directories and tables are read and written at virtual
addresses. The entries are cloned without a look at whether they are present. The table of a directory
entry is read at its physical address, without `KERNEL_VMA`: there is a fault unless something is mapped
there. And `paging_pt_entry_clone` has no return statement: what its caller stores is arbitrary, here
`unreturned` for every table and index.

So only directories whose user entries are all pages of 4 MB are cloned as they should be.
-/

namespace ChrisOS.Ia32

open ChrisOS.Utils ChrisOS.Lib ChrisOS.Mm

/-- `PDT_KERNEL_START`. -/
def pdtKernelStart : ℕ := 768

/-- What a clone depends on besides the state: the uninitialised locals of `kmem_frames_clone`, and what
`paging_pt_entry_clone` leaves as its result. -/
structure Undefined where
  locals : Word × Word
  unreturned : Word → ℕ → Word

/-- The state of memory management, and the blocks `kmalloc` will return, of memory the heap has. -/
structure CloneState where
  memory : KernelMemory
  blocks : List Word

/-- `kmalloc` for a directory or a table: the null pointer when there is no block. -/
def kmallocTable (s : CloneState) : Word × CloneState :=
  (s.blocks.headD 0, { s with blocks := s.blocks.tail })

/-- A byte of a table at a virtual address. -/
def loadByte (s : KernelMemory) (table : Word) (j : ℕ) : Option (BitVec 8) :=
  (s.physical (table + BitVec.ofNat 32 j)).map s.paging.bytes

/-- Write a byte of a table at a virtual address. -/
def storeByte (s : KernelMemory) (table : Word) (j : ℕ) (value : BitVec 8) : Option KernelMemory :=
  (s.physical (table + BitVec.ofNat 32 j)).map fun addr =>
    { s with paging := s.paging.storeByte addr value }

/-- Read an entry of a table at a virtual address. -/
def loadEntry (s : KernelMemory) (table : Word) (i : ℕ) : Option Word :=
  (loadByte s table (4 * i)).bind fun b₀ => (loadByte s table (4 * i + 1)).bind fun b₁ =>
    (loadByte s table (4 * i + 2)).bind fun b₂ => (loadByte s table (4 * i + 3)).map fun b₃ =>
      b₃ ++ b₂ ++ b₁ ++ b₀

/-- Write an entry of a table at a virtual address. -/
def storeEntry (s : KernelMemory) (table : Word) (i : ℕ) (e : Word) : Option KernelMemory :=
  countedLoop (fun j s => storeByte s table j (byteOfWord e (j - 4 * i))) (4 * i) 4 s

/-- `paging_page_clone_4mb`. -/
def pagingPageClone4mb (undefined : Undefined) (s : CloneState) (frame : Word) :
    Option (Word × CloneState) :=
  (kmemFramesClone undefined.locals s.memory frame 1024).map fun (frame, memory) =>
    (frame, { s with memory := memory })

/-- `paging_page_clone_4k`. -/
def pagingPageClone4k (undefined : Undefined) (s : CloneState) (frame : Word) :
    Option (Word × CloneState) :=
  (kmemFrameClone undefined.locals s.memory frame).map fun (frame, memory) =>
    (frame, { s with memory := memory })

/-- `paging_pt_entry_clone`, with the value its caller gets. -/
def pagingPtEntryClone (undefined : Undefined) (s : CloneState) (result : Word) (i : ℕ) (e : Word) :
    Option (Word × CloneState) :=
  (pagingPageClone4k undefined s (e &&& frameMask)).bind fun (resultFrame, s) =>
    if resultFrame &&& ~~~frameMask ≠ 0 then none else some (undefined.unreturned result i, s)

/-- Write an entry of a new table or directory. -/
def storeResult (result : Word) (i : ℕ) : Word × CloneState → Option CloneState
  | (e, s) => (storeEntry s.memory result i e).map fun memory => { s with memory := memory }

/-- One round of `paging_pt_clone`. -/
def pagingPtCloneEntry (undefined : Undefined) (pt result : Word) (i : ℕ) (s : CloneState) :
    Option CloneState :=
  (loadEntry s.memory pt i).bind fun e =>
    (pagingPtEntryClone undefined s result i e).bind (storeResult result i)

/-- `paging_pt_clone`. -/
def pagingPtClone (undefined : Undefined) (s : CloneState) (pt : Word) : Option (Word × CloneState) :=
  let (result, s) := kmallocTable s
  (countedLoop (pagingPtCloneEntry undefined pt result) 0 ptEntries s).map fun s => (result, s)

/-- `paging_pd_entry_clone`. -/
def pagingPdEntryClone (undefined : Undefined) (s : CloneState) (e : Word) :
    Option (Word × CloneState) :=
  let frame := pagingPdEntryGetFrame e
  (if e &&& large ≠ 0 then pagingPageClone4mb undefined s frame
    else pagingPtClone undefined s frame).bind fun (frame, s) =>
      (pagingPdEntrySetFrame e frame).map fun e => (e, s)

/-- One round of the first loop of `paging_pd_clone`, over the user entries. -/
def pagingPdCloneUser (undefined : Undefined) (pd result : Word) (i : ℕ) (s : CloneState) :
    Option CloneState :=
  (loadEntry s.memory pd i).bind fun e =>
    (pagingPdEntryClone undefined s e).bind (storeResult result i)

/-- One round of the second loop, over the kernel entries. -/
def pagingPdCloneKernel (pd result : Word) (i : ℕ) (s : CloneState) : Option CloneState :=
  (loadEntry s.memory pd i).bind fun e => storeResult result i (e, s)

/-- `paging_pd_clone`. -/
def pagingPdClone (undefined : Undefined) (s : CloneState) (pd : Word) : Option (Word × CloneState) :=
  let (result, s) := kmallocTable s
  (countedLoop (pagingPdCloneUser undefined pd result) 0 pdtKernelStart s).bind fun s =>
    (countedLoop (pagingPdCloneKernel pd result) pdtKernelStart (ptEntries - pdtKernelStart) s).map
      fun s => (result, s)

variable {s t : KernelMemory} {table : Word}

/-- An entry is read from its bytes. -/
theorem loadEntry_congr {i : ℕ}
    (h : ∀ j, 4 * i ≤ j → j < 4 * i + 4 → loadByte t table j = loadByte s table j) :
    loadEntry t table i = loadEntry s table i := by
  simp only [loadEntry, h (4 * i) (by omega) (by omega), h (4 * i + 1) (by omega) (by omega),
    h (4 * i + 2) (by omega) (by omega), h (4 * i + 3) (by omega) (by omega)]

theorem loadEntry_of_bytes {e : Word} {i : ℕ}
    (h : ∀ k < 4, loadByte s table (4 * i + k) = some (byteOfWord e k)) : loadEntry s table i = some e := by
  have hword : (byteOfWord e 3 ++ byteOfWord e 2 ++ byteOfWord e 1 ++ byteOfWord e 0 : Word) = e := by
    apply BitVec.eq_of_getLsbD_eq
    intro i hi
    simp only [byteOfWord, BitVec.getLsbD_append, BitVec.getLsbD_setWidth, BitVec.getLsbD_ushiftRight]
    grind
  have hfirst : loadByte s table (4 * i) = some (byteOfWord e 0) := h 0 (by decide)
  rw [loadEntry, hfirst, h 1 (by decide), h 2 (by decide), h 3 (by decide)]
  exact congrArg some hword

/-- The physical addresses of the block for a directory. -/
def InBlock (s : KernelMemory) (result a : Word) : Prop :=
  ∃ j < 4096, s.physical (result + BitVec.ofNat 32 j) = some a

/-- A block for a directory: it is mapped one to one, to memory that is neither free nor in use for page
tables. -/
structure OwnBlock (s : KernelMemory) (result : Word) : Prop where
  mapped : ∀ j < 4096, ∃ a, s.physical (result + BitVec.ofNat 32 j) = some a
  apart : ∀ j < 4096, ∀ k < 4096, s.physical (result + BitVec.ofNat 32 j) =
    s.physical (result + BitVec.ofNat 32 k) → j = k
  unused : ∀ a, InBlock s result a → ¬ InUse s.paging s.currentPageDir (pageOf a) ∧
    ¬ Covered s.kernPmAllocMap a.toNat allocPmNormal

/-- A byte that is neither free nor in the block for the new directory, nor kept for new tables. -/
def Kept (s : KernelMemory) (result a : Word) : Prop :=
  ¬ InBlock s result a ∧ pageOf a ∉ s.paging.staticPages ∧
    ¬ Covered s.kernPmAllocMap a.toNat allocPmNormal

/-- A present page of 4 MB: its frame is on a 4 MB boundary, and none of it is free or in use for page
tables, or in the block for the new directory. -/
structure LargePage (s : KernelMemory) (result e : Word) : Prop where
  isPresent : pagingPdEntryIsPresent e
  isLarge : e &&& large ≠ 0
  aligned : 4194304 ∣ (pagingPdEntryGetFrame e).toNat
  kept : ∀ k < 4194304, Kept s result (pagingPdEntryGetFrame e + BitVec.ofNat 32 k) ∧
    ¬ InUse s.paging s.currentPageDir (pageOf (pagingPdEntryGetFrame e + BitVec.ofNat 32 k))

/-- The entry `e'` is for a copy of the page of `e`: the flags are the same, the frame was free in `s` and
is not in `t`, and its bytes are those the page had. -/
structure EntryCopied (s t : KernelMemory) (e e' : Word) : Prop where
  flags : e' &&& ~~~frameMask = e &&& ~~~frameMask
  aligned : 4194304 ∣ (pagingPdEntryGetFrame e').toNat
  fresh : ∀ k < 4194304,
    Covered s.kernPmAllocMap (pagingPdEntryGetFrame e' + BitVec.ofNat 32 k).toNat allocPmNormal ∧
      ¬ Covered t.kernPmAllocMap (pagingPdEntryGetFrame e' + BitVec.ofNat 32 k).toNat allocPmNormal
  bytes : ∀ k < 4194304, t.paging.bytes (pagingPdEntryGetFrame e' + BitVec.ofNat 32 k) =
    s.paging.bytes (pagingPdEntryGetFrame e + BitVec.ofNat 32 k)

/-- The first `n` entries of the new directory have been written: those for users are copies with
frames of their own, those of the kernel the same. -/
structure ClonedUpTo (s t : KernelMemory) (result : Word) (old new : ℕ → Word) (n : ℕ) : Prop where
  written : ∀ i < n, loadEntry t result i = some (new i)
  user : ∀ i < n, i < pdtKernelStart → EntryCopied s t (old i) (new i)
  apart : ∀ i < n, ∀ j < n, i < pdtKernelStart → j < pdtKernelStart → i ≠ j →
    pagingPdEntryGetFrame (new i) ≠ pagingPdEntryGetFrame (new j)
  kernel : ∀ i < n, pdtKernelStart ≤ i → new i = old i

/-- What a clone does not change: translations, and all bytes that are kept. -/
structure Steady (s t : KernelMemory) (result : Word) : Prop where
  currentPageDir : t.currentPageDir = s.currentPageDir
  kernVmSpace : t.kernVmSpace = s.kernVmSpace
  staticPages : t.paging.staticPages = s.paging.staticPages
  starts : Starts 4096 allocPmNormal t.kernPmAllocMap
  shrinks : ∀ x c, Covered t.kernPmAllocMap x c → Covered s.kernPmAllocMap x c
  bytes : ∀ a, Kept s result a → t.paging.bytes a = s.paging.bytes a

/-- An address of a block on a 4 MB boundary. -/
theorem toNat_add_of_aligned {a : Word} (h : 4194304 ∣ a.toNat) {k : ℕ} (hk : k < 4194304) :
    (a + BitVec.ofNat 32 k).toNat = a.toNat + k := by
  have := a.isLt
  exact toNat_add_ofNat (by omega)

/-- An entry that has been given another frame has that frame and its old flags. -/
theorem setFrame_parts (e : Word) {frame : Word} (h : frame.toNat % 4096 = 0) :
    pagingPdEntryGetFrame ((e &&& ~~~frameMask) ||| frame) = frame ∧
      ((e &&& ~~~frameMask) ||| frame) &&& ~~~frameMask = e &&& ~~~frameMask := by
  rw [pagingPdEntryGetFrame, BitVec.or_comm]
  refine ⟨frame_or_and_frameMask h (flags_and_frameMask e), ?_⟩
  rw [frame_or_and h (BitVec.and_not_self frameMask), BitVec.and_assoc, BitVec.and_self]

section Clone

variable {result : Word} {old new : ℕ → Word} {n k : ℕ}

/-- A copy stays one as long as its frame is not written to. -/
theorem EntryCopied.later {t' : KernelMemory} {e e' : Word} (h : EntryCopied s t e e')
    (hshrinks : ∀ x c, Covered t'.kernPmAllocMap x c → Covered t.kernPmAllocMap x c)
    (hbytes : ∀ a : Word, Covered s.kernPmAllocMap a.toNat allocPmNormal →
      ¬ Covered t.kernPmAllocMap a.toNat allocPmNormal → t'.paging.bytes a = t.paging.bytes a) :
    EntryCopied s t' e e' :=
  ⟨h.flags, h.aligned, fun k hk => ⟨(h.fresh k hk).1, fun hfree => (h.fresh k hk).2 (hshrinks _ _ hfree)⟩,
    fun k hk => (hbytes _ (h.fresh k hk).1 (h.fresh k hk).2).trans (h.bytes k hk)⟩

variable (hready : LargeReady s) (hblock : OwnBlock s result)

include hready

theorem Steady.refl : Steady s s result :=
  ⟨rfl, rfl, rfl, hready.frames, fun _ _ hx => hx, fun _ _ => rfl⟩

include hblock

/-- The directory and its tables are what they were. -/
theorem Steady.page_eq (h : Steady s t result) :
    t.paging.page s.currentPageDir = s.paging.page s.currentPageDir ∧
      ∀ x, ForTable (s.paging.page s.currentPageDir (pagingPdEntryIdForAddr x)) →
        t.paging.page (walkedTable s.paging s.currentPageDir x) =
          s.paging.page (walkedTable s.paging s.currentPageDir x) := by
  have hpage : ∀ q, InUse s.paging s.currentPageDir q → q ∉ s.paging.staticPages →
      q.toNat % 4096 = 0 → t.paging.page q = s.paging.page q := fun q hin hstatic hq =>
    page_of_bytes hq fun a ha => h.bytes a ⟨fun hblocked => (hblock.unused a hblocked).1 (ha ▸ hin),
      ha ▸ hstatic, fun hfree => hready.apart a hfree (ha ▸ hin)⟩
  refine ⟨hpage _ (Or.inl rfl) (fun hin => (hready.paging.fresh _ hin).apart rfl)
    hready.paging.own.aligned, fun x hfor => hpage _ (Or.inr (Or.inl ⟨_, hfor, rfl⟩)) (fun hin =>
      (hready.paging.fresh _ hin).unnamed _ hfor.1 rfl) ?_⟩
  have hframe := toNat_and_frameMask (s.paging.page s.currentPageDir (pagingPdEntryIdForAddr x))
  rw [walkedTable, pagingPdEntryGetFrame, kernelVma]
  bv_omega

theorem Steady.lookup_eq (h : Steady s t result) (x : Word) :
    lookup t.paging s.currentPageDir x = lookup s.paging s.currentPageDir x :=
  have ⟨hdirectory, htable⟩ := h.page_eq hready hblock
  lookup_congr (congrFun hdirectory _) fun hfor => congrFun (htable x hfor) _

theorem Steady.inUse_iff (h : Steady s t result) (q : Word) :
    InUse t.paging t.currentPageDir q ↔ InUse s.paging s.currentPageDir q := by
  rw [h.currentPageDir]
  exact inUse_congr (h.page_eq hready hblock).1 h.staticPages q

theorem Steady.loadByte_eq (h : Steady s t result) (table : Word) (j : ℕ) :
    loadByte t table j = (s.physical (table + BitVec.ofNat 32 j)).map t.paging.bytes := by
  rw [loadByte, KernelMemory.physical, h.currentPageDir, h.lookup_eq hready hblock]
  rfl

/-- What is read at a virtual address is the same in two states if the byte is. -/
theorem Steady.loadByte_congr {t' : KernelMemory} (h : Steady s t result) (h' : Steady s t' result)
    {j : ℕ} (hbytes : ∀ a, s.physical (table + BitVec.ofNat 32 j) = some a →
      t'.paging.bytes a = t.paging.bytes a) : loadByte t' table j = loadByte t table j := by
  rw [h.loadByte_eq hready hblock, h'.loadByte_eq hready hblock]
  cases haddr : s.physical (table + BitVec.ofNat 32 j) with
  | none => rfl
  | some a => exact congrArg some (hbytes a haddr)

/-- The next page can be copied. -/
theorem Steady.ready (h : Steady s t result) : LargeReady t := by
  obtain ⟨hdirectory, htable⟩ := h.page_eq hready hblock
  have hlookup := h.lookup_eq hready hblock
  have hin := h.inUse_iff hready hblock
  obtain ⟨paging, dir, space, pm⟩ := t
  obtain ⟨rfl, rfl, hstatic, hstarts, hshrinks, -⟩ := h
  refine ⟨⟨⟨hready.vm, hstarts, hready.paging.congr hdirectory hstatic, fun x hx =>
    (hlookup x).trans (hready.untranslated x hx)⟩, fun x hx huse =>
      hready.apart x (hshrinks _ _ hx) ((hin _).mp huse)⟩, fun x hx => ?_, hready.room, hready.fit⟩
  obtain ⟨hfor, hzero⟩ := hready.empty x hx
  dsimp only at hdirectory htable ⊢
  rw [walkedTable, hdirectory, ← walkedTable, htable x hfor]
  exact ⟨hfor, hzero⟩

/-- The bytes of an entry before `j` have been written to the block. -/
structure StoredUpTo (s t r : KernelMemory) (result : Word) (i : ℕ) (e : Word) (j : ℕ) : Prop
    extends Steady s r result where
  frames : r.kernPmAllocMap = t.kernPmAllocMap
  block : ∀ m < 4096, loadByte r result m =
    if 4 * i ≤ m ∧ m < j then some (byteOfWord e (m - 4 * i)) else loadByte t result m
  others : ∀ a, ¬ InBlock s result a → r.paging.bytes a = t.paging.bytes a

theorem StoredUpTo.step {r : KernelMemory} {i j : ℕ} {e : Word} (h : StoredUpTo s t r result i e j)
    (hi : 4 * i ≤ j) (hj : j < 4096) :
    ∃ r', storeByte r result j (byteOfWord e (j - 4 * i)) = some r' ∧
      StoredUpTo s t r' result i e (j + 1) := by
  obtain ⟨a, ha⟩ := hblock.mapped j hj
  have hbytes := bytes_storeByte r.paging a (byteOfWord e (j - 4 * i))
  have hother : ∀ x, ¬ InBlock s result x → x ≠ a := by
    rintro x hx rfl
    exact hx ⟨j, hj, ha⟩
  have hsteady : Steady s { r with paging := r.paging.storeByte a (byteOfWord e (j - 4 * i)) } result :=
    ⟨h.currentPageDir, h.kernVmSpace, h.staticPages, h.starts, h.shrinks, fun x hx => by
      rw [hbytes, Function.update_of_ne (hother x hx.1), h.bytes x hx]⟩
  refine ⟨_, ?_, hsteady, h.frames, fun m hm => ?_, fun x hx => ?_⟩
  · rw [storeByte, KernelMemory.physical, h.currentPageDir, h.lookup_eq hready hblock]
    exact congrArg (Option.map _) ha
  · obtain ⟨b, hb⟩ := hblock.mapped m hm
    have hold := h.block m hm
    rw [h.toSteady.loadByte_eq hready hblock, hb] at hold
    rw [hsteady.loadByte_eq hready hblock, hb, Option.map_some, hbytes]
    by_cases hmj : m = j
    · obtain rfl : a = b := Option.some.inj (ha.symm.trans (hmj ▸ hb))
      rw [Function.update_self, if_pos (by omega), hmj]
    · have hne : b ≠ a := fun heq => hmj (hblock.apart m hm j hj (by rw [hb, ha, heq]))
      have hsame : (4 * i ≤ m ∧ m < j + 1) ↔ 4 * i ≤ m ∧ m < j := by omega
      rw [Function.update_of_ne hne, if_congr hsame rfl rfl]
      exact hold
  · rw [hbytes, Function.update_of_ne (hother x hx), h.others x hx]

/-- The loops of `paging_pd_clone` after `n` entries, with free frames for `k` pages. -/
structure CloneLoop (s t : KernelMemory) (result : Word) (old new : ℕ → Word) (n k : ℕ) : Prop
    extends Steady s t result, ClonedUpTo s t result old new n where
  free : LargeFree t.kernPmAllocMap k

/-- The next entry is written. -/
theorem CloneLoop.store (h : CloneLoop s t result old new n k) (hn : n < ptEntries) {e : Word}
    (huser : n < pdtKernelStart → EntryCopied s t (old n) e)
    (hapart : ∀ i < n, i < pdtKernelStart → n < pdtKernelStart →
      pagingPdEntryGetFrame (new i) ≠ pagingPdEntryGetFrame e)
    (hkernel : pdtKernelStart ≤ n → e = old n) :
    ∃ t', storeEntry t result n e = some t' ∧
      CloneLoop s t' result old (Function.update new n e) (n + 1) k := by
  have hentries : ptEntries = 1024 := rfl
  have hstart : StoredUpTo s t t result n e (4 * n) :=
    ⟨h.toSteady, rfl, fun m _ => (if_neg (by omega)).symm, fun _ _ => rfl⟩
  have hstep : ∀ j r, 4 * n ≤ j → j < 4 * n + 4 → StoredUpTo s t r result n e j → _ :=
    fun j r hj hj' hr => hr.step hready hblock hj (by omega)
  obtain ⟨t', hstore, hstored⟩ := countedLoop_inv (fun j r => StoredUpTo s t r result n e j) hstart hstep
  have hcopied : ∀ {e e'}, EntryCopied s t e e' → EntryCopied s t' e e' := fun hcopy =>
    hcopy.later (fun x c hx => hstored.frames ▸ hx) fun a hfree _ =>
      hstored.others a fun hin => (hblock.unused a hin).2 hfree
  have hold : ∀ i < n, Function.update new n e i = new i := fun i hi =>
    Function.update_of_ne (Nat.ne_of_lt hi) ..
  have hnew : Function.update new n e n = e := Function.update_self ..
  refine ⟨t', hstore, hstored.toSteady, ⟨fun i hi => ?_, fun i hi => ?_, fun i hi j hj hiu hju hij => ?_,
    fun i hi => ?_⟩, hstored.frames ▸ h.free⟩
  · obtain hi | rfl := Nat.lt_succ_iff_lt_or_eq.mp hi
    · rw [hold i hi, ← h.written i hi]
      refine loadEntry_congr fun j hj hj' => ?_
      rw [hstored.block j (by omega), if_neg (by omega)]
    · rw [hnew]
      refine loadEntry_of_bytes fun k hk => ?_
      rw [hstored.block _ (by omega), if_pos (by omega), Nat.add_sub_cancel_left]
  · obtain hi | rfl := Nat.lt_succ_iff_lt_or_eq.mp hi
    · rw [hold i hi]
      exact fun hlt => hcopied (h.user i hi hlt)
    · rw [hnew]
      exact fun hlt => hcopied (huser hlt)
  · obtain hi | rfl := Nat.lt_succ_iff_lt_or_eq.mp hi <;> obtain hj | rfl := Nat.lt_succ_iff_lt_or_eq.mp hj
    · rw [hold i hi, hold j hj]
      exact h.apart i hi j hj hiu hju hij
    · rw [hold i hi, hnew]
      exact hapart i hi hiu hju
    · rw [hold j hj, hnew]
      exact (hapart j hj hju hiu).symm
    · exact absurd rfl hij
  · obtain hi | rfl := Nat.lt_succ_iff_lt_or_eq.mp hi
    · rw [hold i hi]
      exact h.kernel i hi
    · rw [hnew]
      exact hkernel

/-- `paging_pd_entry_clone` of a page of 4 MB. -/
theorem CloneLoop.copy (h : CloneLoop s t result old new n (k + 1)) (hn : n < ptEntries)
    {e : Word} (hpage : LargePage s result e) (undefined : Undefined) (blocks : List Word) :
    ∃ e' t', pagingPdEntryClone undefined ⟨t, blocks⟩ e = some (e', ⟨t', blocks⟩) ∧
      CloneLoop s t' result old new n k ∧ EntryCopied s t' e e' ∧
      ∀ i < n, i < pdtKernelStart → pagingPdEntryGetFrame (new i) ≠ pagingPdEntryGetFrame e' := by
  have hzero : pagingPdEntryGetFrame e + BitVec.ofNat 32 0 = pagingPdEntryGetFrame e := BitVec.add_zero _
  have hfirst := (hpage.kept 0 (by decide)).1.2.2
  rw [hzero] at hfirst
  obtain ⟨dest, pm, paging, hclone, htaken, hcopied⟩ :=
    (h.toSteady.ready hready hblock).kmemFramesClone_large h.free hpage.aligned
      (fun i hi hin => (hpage.kept i hi).2 ((h.toSteady.inUse_iff hready hblock _).mp hin))
      (fun hfree => hfirst (h.shrinks _ _ hfree)) undefined.locals
  obtain ⟨hdest, hfree⟩ := h.free.taken htaken
  have haligned : dest.toNat % 4096 = 0 := by omega
  obtain ⟨hframe, hflags⟩ := setFrame_parts e haligned
  have hinside : ∀ i < 4194304, Covered t.kernPmAllocMap (dest + BitVec.ofNat 32 i).toNat allocPmNormal ∧
      ¬ Covered pm (dest + BitVec.ofNat 32 i).toNat allocPmNormal := by
    intro i hi
    rw [toNat_add_of_aligned hdest hi]
    exact ⟨htaken.free _ (by omega) (by omega), fun hin => ((htaken.covered _ _).mp hin).2 (by omega)⟩
  have hshrinks : ∀ x c, Covered pm x c → Covered t.kernPmAllocMap x c := fun x c hx =>
    ((htaken.covered x c).mp hx).1
  -- only free bytes are written to
  have hsame : ∀ a, pageOf a ∉ s.paging.staticPages → ¬ Covered t.kernPmAllocMap a.toNat allocPmNormal →
      paging.bytes a = t.paging.bytes a := fun a hstatic ha =>
    hcopied.others a (h.staticPages ▸ hstatic) fun i hi heq => ha (heq ▸ (hinside i hi).1)
  have hunused : ∀ a, ¬ InUse s.paging s.currentPageDir (pageOf a) → pageOf a ∉ s.paging.staticPages :=
    fun a ha hstatic => ha (Or.inr (Or.inr hstatic))
  have hsteady : Steady s { t with kernPmAllocMap := pm, paging := paging } result :=
    ⟨h.currentPageDir, h.kernVmSpace, hcopied.staticPages.trans h.staticPages, htaken.rest,
      fun x c hx => h.shrinks x c (hshrinks x c hx), fun a ha =>
        (hsame a ha.2.1 fun hfree => ha.2.2 (h.shrinks _ _ hfree)).trans (h.bytes a ha)⟩
  refine ⟨(e &&& ~~~frameMask) ||| dest, _, ?_, ⟨hsteady, ⟨fun i hi => ?_, fun i hi hu => ?_, h.apart,
    h.kernel⟩, hfree⟩, ⟨hflags, ?_, ?_, ?_⟩, fun i hi hu heq => ?_⟩
  · rw [pagingPdEntryClone]
    dsimp only
    rw [if_pos hpage.isLarge, pagingPageClone4mb, hclone, Option.map_some, Option.bind_some]
    dsimp only
    rw [pagingPdEntrySetFrame_eq e haligned, Option.map_some]
  · rw [← h.written i hi]
    refine loadEntry_congr fun j _ hj => h.toSteady.loadByte_congr hready hblock hsteady fun a ha => ?_
    have hentries : ptEntries = 1024 := rfl
    obtain ⟨hin, hused⟩ := hblock.unused a ⟨j, by omega, ha⟩
    exact hsame a (hunused a hin) fun hfree => hused (h.shrinks _ _ hfree)
  · exact (h.user i hi hu).later hshrinks fun a hfree hused =>
      hsame a (hunused a (hready.apart a hfree)) hused
  · rw [hframe]
    exact hdest
  · rw [hframe]
    exact fun i hi => ⟨h.shrinks _ _ (hinside i hi).1, (hinside i hi).2⟩
  · rw [hframe]
    exact fun i hi => (hcopied.copied i hi).trans (h.bytes _ (hpage.kept i hi).1)
  · have hused := ((h.user i hi hu).fresh 0 (by decide)).2
    rw [heq, hframe] at hused
    exact hused (hinside 0 (by decide)).1

variable {pd : Word} (hold : ∀ i < ptEntries, loadEntry s pd i = some (old i))
  (hkept : ∀ a, InBlock s pd a → Kept s result a)

include hold hkept

/-- The original directory reads as before. -/
theorem Steady.original (h : Steady s t result) : ∀ i < ptEntries, loadEntry t pd i = some (old i) := by
  intro i hi
  have hentries : ptEntries = 1024 := rfl
  rw [← hold i hi]
  exact loadEntry_congr fun j _ hj => (Steady.refl hready).loadByte_congr hready hblock h
    fun a ha => h.bytes a (hkept a ⟨j, by omega, ha⟩)

/-- One round of the loop over the user entries. -/
theorem CloneLoop.userRound (h : CloneLoop s t result old new n (k + 1)) (hn : n < pdtKernelStart)
    (hpage : LargePage s result (old n)) (undefined : Undefined) (blocks : List Word) :
    ∃ t' new', pagingPdCloneUser undefined pd result n ⟨t, blocks⟩ = some ⟨t', blocks⟩ ∧
      CloneLoop s t' result old new' (n + 1) k := by
  have hlt : n < ptEntries := Nat.lt_trans hn (by decide)
  obtain ⟨e, t₁, hclone, h₁, hcopied, hapart⟩ := h.copy hready hblock hlt hpage undefined blocks
  obtain ⟨t₂, hstore, h₂⟩ := h₁.store hready hblock hlt (fun _ => hcopied)
    (fun i hi hu _ => hapart i hi hu) fun hle => absurd hn (Nat.not_lt.mpr hle)
  refine ⟨t₂, _, ?_, h₂⟩
  rw [pagingPdCloneUser, h.toSteady.original hready hblock hold hkept n hlt, Option.bind_some, hclone,
    Option.bind_some, storeResult, hstore, Option.map_some]

/-- One round of the loop over the kernel entries. -/
theorem CloneLoop.kernelRound (h : CloneLoop s t result old new n k) (hn : pdtKernelStart ≤ n)
    (hlt : n < ptEntries) (blocks : List Word) :
    ∃ t' new', pagingPdCloneKernel pd result n ⟨t, blocks⟩ = some ⟨t', blocks⟩ ∧
      CloneLoop s t' result old new' (n + 1) k := by
  have hkernel : ¬ n < pdtKernelStart := Nat.not_lt.mpr hn
  obtain ⟨t₁, hstore, h₁⟩ := h.store hready hblock hlt (fun hu => absurd hu hkernel)
    (fun _ _ _ hu => absurd hu hkernel) fun _ => rfl
  refine ⟨t₁, _, ?_, h₁⟩
  rw [pagingPdCloneKernel, h.toSteady.original hready hblock hold hkept n hlt, Option.bind_some,
    storeResult, hstore, Option.map_some]

end Clone

/-- A fault: the first entry is not for a page of 4 MB, and nothing is mapped at the physical address of its
frame. -/
theorem pagingPdClone_faults {s : CloneState} {pd e : Word} (undefined : Undefined)
    (hentry : loadEntry s.memory pd 0 = some e) (hsmall : e &&& large = 0)
    (hunmapped : s.memory.physical (pagingPdEntryGetFrame e) = none) :
    pagingPdClone undefined s pd = none := by
  have hload : loadEntry s.memory (pagingPdEntryGetFrame e) 0 = none := by
    have hzero : pagingPdEntryGetFrame e + BitVec.ofNat 32 (4 * 0) = pagingPdEntryGetFrame e :=
      BitVec.add_zero _
    rw [loadEntry, loadByte, hzero, hunmapped]
    rfl
  have hentryClone : ∀ blocks, pagingPdEntryClone undefined ⟨s.memory, blocks⟩ e = none := by
    intro blocks
    rw [pagingPdEntryClone]
    dsimp only
    rw [if_neg (not_not.mpr hsmall), pagingPtClone, kmallocTable, show ptEntries = 1023 + 1 from rfl]
    dsimp only
    rw [countedLoop, pagingPtCloneEntry, hload]
    rfl
  rw [pagingPdClone, kmallocTable, show pdtKernelStart = 767 + 1 from rfl]
  dsimp only
  rw [countedLoop, pagingPdCloneUser, hentry, Option.bind_some, hentryClone]
  rfl

section Example

/-- The machine with a directory to clone, and two blocks of the heap. -/
def cloneState (entry : Word) : CloneState := ⟨threeGigabytes entry, [0xC0105008, 0xC0106010]⟩

/-- Undefined values that happen to be zero. -/
def zeroUndefined : Undefined := ⟨(0, 0), fun _ _ => 0⟩

variable {a x : Word}

theorem largePages_physical (h : x.toNat / 4194304 = 768) :
    largePages.physical x = some (x - kernelVma) := by
  have hid : pagingPdEntryIdForAddr x = ⟨768, by decide⟩ :=
    Fin.ext ((val_pagingPdEntryIdForAddr x).trans h)
  have hentry : largePages.paging.page 0xC0101000 (pagingPdEntryIdForAddr x) = 0x83 := by
    rw [hid]
    rfl
  have hoffset : (x &&& 0x003FFFFF).toNat = x.toNat % 4194304 := toNat_and_mask x _ 22 rfl
  have haddr : (0x83 &&& 0xFFC00000 ||| x &&& 0x003FF000) ||| x &&& ~~~frameMask = x &&& 0x003FFFFF := by
    rw [show (0x83 : Word) &&& 0xFFC00000 = 0#32 by decide, BitVec.zero_or, ← BitVec.and_or_distrib_left]
    rfl
  change (lookup _ 0xC0101000 x).map _ = _
  rw [lookup, hentry, if_neg (by decide), if_pos (by decide), Option.map_some, kernelVma]
  refine congrArg some (haddr.trans ?_)
  bv_omega

theorem largePages_ready : LargeReady largePages :=
  ⟨largePages_sound, fun x hx => ⟨(largePages_table hx).1, (largePages_table hx).2 _⟩,
    ⟨0xC0800000, 0xC0C00000, fun x hx hx' => (largePages_space x).mpr (by omega), fun x hx hx' =>
      (largePages_space x).mpr (by omega), by omega⟩, largePages_windowsFit (by decide) (Or.inr rfl)⟩

theorem largePages_largeFree :
    LargeFree largePages.kernPmAllocMap pdtKernelStart := by
  refine ⟨fun b hb => ⟨0x800000, by decide, ?_, fun x hx hx' => (largePages_frames x).mpr ?_⟩,
    (List.range 768).map fun i => (i + 2) * 4194304, ?_, ?_, ?_⟩
  · exact ((largePages_frames b).mp (hb b (by omega) (by omega))).1
  · have := (largePages_frames _).mp (hb (b + 4194303) (by omega) (by omega))
    omega
  · exact List.nodup_range.map fun i j h => by omega
  · rw [List.length_map, List.length_range]
    rfl
  · intro c hc
    obtain ⟨i, hi, rfl⟩ := List.mem_map.mp hc
    have := List.mem_range.mp hi
    exact ⟨Nat.dvd_mul_left _ _, fun x hx hx' => (largePages_frames x).mpr (by omega)⟩

/-- The physical addresses of a directory in the first 4 MB. -/
theorem largePages_inBlock (hlo : 0xC0000000 ≤ table.toNat) (hhi : table.toNat < 0xC0300000)
    (h : InBlock largePages table a) :
    table.toNat ≤ a.toNat + 0xC0000000 ∧ a.toNat + 0xC0000000 < table.toNat + 4096 := by
  obtain ⟨j, hj, ha⟩ := h
  have haddr : (table + BitVec.ofNat 32 j).toNat = table.toNat + j := toNat_add_ofNat (by omega)
  rw [largePages_physical (by omega), kernelVma] at ha
  have := congrArg BitVec.toNat (Option.some.inj ha)
  bv_omega

theorem largePages_ownBlock : OwnBlock largePages 0xC0105008 := by
  have haddr : ∀ j < 4096, ((0xC0105008 : Word) + BitVec.ofNat 32 j).toNat = 0xC0105008 + j := fun j hj =>
    toNat_add_ofNat (by change 0xC0105008 + j < _; omega)
  refine ⟨fun j hj => ⟨_, largePages_physical (by have := haddr j hj; omega)⟩, fun j hj k hk h => ?_,
    fun a ha => ?_⟩
  · have hj' := haddr j hj
    have hk' := haddr k hk
    rw [largePages_physical (by omega), largePages_physical (by omega)] at h
    have := Option.some.inj h
    bv_omega
  · have := largePages_inBlock (by decide) (by decide) ha
    change 0xC0105008 ≤ _ ∧ _ < 0xC0106008 at this
    refine ⟨fun huse => ?_, fun hfree => ?_⟩
    · have := largePages_inUse huse
      omega
    · have := (largePages_frames _).mp hfree
      omega

theorem largePages_loadEntry {i : ℕ} (hi : i < ptEntries) :
    loadEntry largePages 0xC0101000 i = some (directoryEntry 0x400087 i) := by
  have hlt : i < 1024 := hi
  refine loadEntry_of_bytes fun k hk => ?_
  have haddr : ((0xC0101000 : Word) + BitVec.ofNat 32 (4 * i + k)).toNat = 0xC0101000 + (4 * i + k) :=
    toNat_add_ofNat (by change 0xC0101000 + (4 * i + k) < _; omega)
  rw [loadByte, largePages_physical (by omega), Option.map_some, PagingMemory.bytes]
  generalize (0xC0101000 : Word) + BitVec.ofNat 32 (4 * i + k) = x at haddr
  have hframe : (x - kernelVma).toNat = 0x101000 + (4 * i + k) := by
    rw [kernelVma]
    bv_omega
  have hpage : pageOf (x - kernelVma) = 0xC0101000 := by
    apply BitVec.eq_of_toNat_eq
    rw [pageOf, BitVec.sub_add_cancel, toNat_and_frameMask, haddr]
    change _ = 0xC0101000
    omega
  have hword : wordOf (x - kernelVma) = ⟨i, hi⟩ := Fin.ext (by rw [wordOf]; dsimp only; omega)
  rw [hpage, hword, largePages_page, hframe, show (0x101000 + (4 * i + k)) % 4 = k by omega]

end Example

end ChrisOS.Ia32
