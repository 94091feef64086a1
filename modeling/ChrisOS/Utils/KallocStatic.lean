import ChrisOS.Lib.CallRun
import ChrisOS.Utils.MemMove

/-!
# Static allocation

`kalloc_static` of `utils/mem.c` hands out memory from behind the kernel's image and never takes it
back: it rounds `memory_start` up, moves it behind the block and panics if it is then past
`memory_end`. The rounding and the addition are done in 32 bits before that one check, so a block that
is too large by a whole address space passes it, and `memory_start` moves down over blocks that are in
use. `none` is a panic.
-/

namespace ChrisOS.Utils

open ChrisOS.Lib

/-- `struct layout`. -/
structure Layout where
  segmentStart : Word
  memoryStart : Word
  memoryEnd : Word
deriving DecidableEq, Repr

/-- `kalloc_static`. -/
def kallocStatic (layout : Layout) (size align : Word) : Option (Word × Layout) :=
  let addr := alignAddress layout.memoryStart (effectiveAlignment align)
  let layout := { layout with memoryStart := addr + size }
  if layout.memoryStart > layout.memoryEnd then none else some (addr, layout)

/-- `kalloc_dup_static`. -/
def kallocDupStatic (layout : Layout) (mem : ByteMem 32) (src size align : Word) :
    Option (Word × Layout × ByteMem 32) :=
  (kallocStatic layout size align).map fun (dest, layout) =>
    (dest, layout, memcpy mem dest src size)

/-- `multiboot_relocate_mem` of `boot/multiboot.c`. -/
def multibootRelocateMem (layout : Layout) (mem : ByteMem 32) (physaddr size : Word) :
    Option (Word × Layout × ByteMem 32) :=
  kallocDupStatic layout mem (physaddr + layout.segmentStart) size 4

/-- The arguments of a call. -/
structure StaticCall where
  size : Word
  align : Word
deriving DecidableEq, Repr

/-- An alignment that is a power of two or zero. -/
def StaticCall.PowerOfTwo (c : StaticCall) : Prop := c.align = 0 ∨ ∃ k, c.align.toNat = 2 ^ k

/-- A call as a step of the layout. -/
def kallocStaticCall (layout : Layout) (c : StaticCall) : Option (Word × Layout) :=
  kallocStatic layout c.size c.align

/-- In exact arithmetic the block ends inside the address space. -/
def StaticFits (layout : Layout) (c : StaticCall) : Prop :=
  layout.memoryStart.toNat +
    (alignAddress layout.memoryStart (effectiveAlignment c.align) - layout.memoryStart).toNat +
    c.size.toNat < 2 ^ 32

/-- Blocks that lie inside a range, aligned as requested, each behind those before it. -/
structure StaticBlocks (lo hi : ℕ) (blocks : List (StaticCall × Word)) : Prop where
  inside : ∀ b ∈ blocks, lo ≤ b.2.toNat ∧ b.2.toNat + b.1.size.toNat ≤ hi
  aligned : ∀ b ∈ blocks, (effectiveAlignment b.1.align).toNat ∣ b.2.toNat
  disjoint : blocks.Pairwise fun a b => a.2.toNat + a.1.size.toNat ≤ b.2.toNat

section Step

variable {layout layout' : Layout} {c : StaticCall} {addr : Word}

/-- What is used as alignment is a power of two. -/
theorem StaticCall.PowerOfTwo.effectiveAlignment (h : c.PowerOfTwo) :
    ∃ k, (effectiveAlignment c.align).toNat = 2 ^ k := by
  unfold Utils.effectiveAlignment
  obtain hzero | ⟨k, hk⟩ := h
  · exact ⟨2, by rw [if_pos hzero]; rfl⟩
  · have hne : c.align ≠ 0 := by
      intro hzero
      rw [hzero] at hk
      exact absurd hk (Nat.ne_of_lt (Nat.two_pow_pos k))
    exact ⟨k, by rw [if_neg hne, hk]⟩

/-- What a call returns and leaves. -/
theorem kallocStaticCall_eq_some (h : kallocStaticCall layout c = some (addr, layout')) :
    addr = alignAddress layout.memoryStart (effectiveAlignment c.align) ∧
      layout' = { layout with memoryStart := addr + c.size } ∧
      layout'.memoryStart ≤ layout.memoryEnd := by
  unfold kallocStaticCall kallocStatic at h
  dsimp only at h
  split at h
  · cases h
  · rename_i hle
    cases h
    exact ⟨rfl, rfl, BitVec.not_lt.mp hle⟩

/-- A block that ends inside the address space is in front of the new start of free memory. -/
theorem StaticFits.bump (hfits : StaticFits layout c)
    (h : kallocStaticCall layout c = some (addr, layout')) :
    layout.memoryStart.toNat ≤ addr.toNat ∧
      layout'.memoryStart.toNat = addr.toNat + c.size.toNat ∧
      layout'.memoryStart.toNat ≤ layout.memoryEnd.toNat ∧
      layout'.memoryEnd = layout.memoryEnd := by
  obtain ⟨rfl, rfl, hle⟩ := kallocStaticCall_eq_some h
  unfold StaticFits at hfits
  dsimp only at hle ⊢
  refine ⟨?_, ?_, hle, rfl⟩
  · bv_omega
  · bv_omega

/-- The block is aligned as requested. -/
theorem kallocStaticCall_aligned (halign : c.PowerOfTwo)
    (h : kallocStaticCall layout c = some (addr, layout')) :
    (effectiveAlignment c.align).toNat ∣ addr.toNat := by
  obtain ⟨k, hk⟩ := halign.effectiveAlignment
  obtain ⟨rfl, _, _⟩ := kallocStaticCall_eq_some h
  rw [toNat_alignAddress _ _ k hk, hk]
  exact Nat.dvd_mul_left _ _

/-- A call returns a block inside what is left exactly if the block ends inside the address space. -/
theorem kallocStaticCall_inside_iff (h : kallocStaticCall layout c = some (addr, layout')) :
    layout.memoryStart.toNat ≤ addr.toNat ∧ addr.toNat + c.size.toNat ≤ layout.memoryEnd.toNat ↔
      StaticFits layout c := by
  constructor
  · rintro ⟨hstart, hend⟩
    obtain ⟨rfl, _, _⟩ := kallocStaticCall_eq_some h
    have hlt := layout.memoryEnd.isLt
    unfold StaticFits
    bv_omega
  · intro hfits
    obtain ⟨hstart, hnext, hend, _⟩ := hfits.bump h
    exact ⟨hstart, by omega⟩

end Step

/-- Blocks behind a later start are behind an earlier one. -/
theorem StaticBlocks.cons {lo next hi : ℕ} {blocks : List (StaticCall × Word)} {c : StaticCall}
    {addr : Word} (h : StaticBlocks next hi blocks) (hlo : lo ≤ addr.toNat)
    (hnext : next = addr.toNat + c.size.toNat) (hhi : next ≤ hi)
    (haligned : (effectiveAlignment c.align).toNat ∣ addr.toNat) :
    StaticBlocks lo hi ((c, addr) :: blocks) where
  inside := by
    refine List.forall_mem_cons.mpr ⟨⟨hlo, hnext ▸ hhi⟩, fun b hb => ?_⟩
    have := h.inside b hb
    omega
  aligned := List.forall_mem_cons.mpr ⟨haligned, h.aligned⟩
  disjoint := by
    refine List.pairwise_cons.mpr ⟨fun b hb => ?_, h.disjoint⟩
    have := (h.inside b hb).1
    dsimp only
    omega

/-- In every sequence of calls of `kalloc_static` whose blocks end inside the address space in exact
arithmetic, the calls that return give blocks between the initial `memory_start` and `memory_end`,
aligned as requested and each behind those before it. -/
theorem kallocStatic_bump {layout layout' : Layout} {calls : List StaticCall} {addrs : List Word}
    (haligned : ∀ c ∈ calls, c.PowerOfTwo)
    (hfits : Along kallocStaticCall StaticFits layout calls)
    (hrun : runCalls kallocStaticCall layout calls = some (addrs, layout')) :
    StaticBlocks layout.memoryStart.toNat layout.memoryEnd.toNat (calls.zip addrs) := by
  induction calls generalizing layout addrs with
  | nil =>
    rw [List.zip_nil_left]
    exact ⟨List.forall_mem_nil _, List.forall_mem_nil _, .nil⟩
  | cons c rest ih =>
    rw [List.forall_mem_cons] at haligned
    obtain ⟨addr, addrs', next, hcall, hrest, rfl⟩ := runCalls_cons_eq_some hrun
    obtain ⟨hfits, hlater⟩ := hfits
    rw [hcall] at hlater
    obtain ⟨hlo, hnext, hhi, hend⟩ := hfits.bump hcall
    have hblocks := ih haligned.2 hlater hrest
    rw [hend] at hblocks
    exact hblocks.cons hlo hnext hhi (kallocStaticCall_aligned haligned.1 hcall)

/-- A page and eight bytes behind it. -/
theorem kallocStatic_bump_two :
    ∃ addrs layout',
      runCalls kallocStaticCall ⟨0xc0000000, 0xc0101010, 0xc0400000⟩ [⟨4096, 4096⟩, ⟨8, 0⟩] =
        some (addrs, layout') ∧
      StaticBlocks 0xc0101010 0xc0400000 ([⟨4096, 4096⟩, ⟨8, 0⟩].zip addrs) := by
  have hrun : runCalls kallocStaticCall ⟨0xc0000000, 0xc0101010, 0xc0400000⟩ [⟨4096, 4096⟩, ⟨8, 0⟩] =
      some ([0xc0102000, 0xc0103000], ⟨0xc0000000, 0xc0103008, 0xc0400000⟩) := by decide
  refine ⟨_, _, hrun, kallocStatic_bump ?_ ?_ hrun⟩
  · intro c hc
    obtain rfl | rfl : c = ⟨4096, 4096⟩ ∨ c = ⟨8, 0⟩ := by simpa using hc
    · exact Or.inr ⟨12, rfl⟩
    · exact Or.inl rfl
  · exact ⟨by unfold StaticFits; decide, by unfold StaticFits; decide, trivial⟩

/-- A size that wraps: the third block is the first one again. -/
theorem kallocStatic_wraps :
    ∃ layout', runCalls kallocStaticCall ⟨0xc0000000, 0xc0101000, 0xc0400000⟩
        [⟨256, 4⟩, ⟨0xffffff00, 4⟩, ⟨256, 4⟩] =
          some ([0xc0101000, 0xc0101100, 0xc0101000], layout') ∧
      ¬ StaticBlocks 0xc0101000 0xc0400000 ([⟨256, 4⟩, ⟨0xffffff00, 4⟩, ⟨256, 4⟩].zip
        [0xc0101000, 0xc0101100, 0xc0101000]) :=
  ⟨⟨0xc0000000, 0xc0101100, 0xc0400000⟩, by decide, fun h => absurd h.disjoint (by decide)⟩

end ChrisOS.Utils
