import Mathlib.Algebra.Group.Nat.Defs
import Mathlib.Data.Nat.Bits

/-!
# Address alignment

The alignment helpers of `utils/mem.c` on 32-bit words, with the exact-arithmetic reading
of each one at a power of two. `uintptr_t`, `size_t` and `unsigned long` are all 32 bits
wide on the target, so one word type stands for addresses and sizes.

Rounding up may wrap: an address in the last partial block of the 32-bit space rounds to
zero. The readings below keep that reduction, and their users decide whether it happens.
-/

namespace ChrisOS.Utils

/-- The target's `uintptr_t` and `size_t`. -/
abbrev Word := BitVec 32

/-- Round an address up; `align` is meant to be a power of two. -/
def alignAddress (address align : Word) : Word := (address + align - 1) &&& ~~~(align - 1)

/-- An alignment of zero asks for `sizeof(uintptr_t)`, of `kalloc_static` and of the allocator. -/
def effectiveAlignment (align : Word) : Word := if align = 0 then 4 else align

/-- The bytes from an address up to the next aligned one. -/
def alignPadding (address align : Word) : Word := -address &&& (align - 1)

/-- Round an address down. -/
def alignAddressDown (address align : Word) : Word := address &&& ~~~(align - 1)

/-- The bytes from the last aligned address down to this one. -/
def alignPaddingDown (address align : Word) : Word := address &&& (align - 1)

/-- `PAGE_SIZE`, which `KMEM_PAGE_SIZE` abbreviates. -/
def pageSize : Word := 4096

/-- Round up to a whole page; `KMEM_PAGE_ALIGN` abbreviates it. -/
def pageAlign (addr : Word) : Word := alignAddress addr pageSize

/-- An offset that does not leave the space. -/
theorem toNat_add_ofNat {a : Word} {n : ℕ} (h : a.toNat + n < 2 ^ 32) :
    (a + BitVec.ofNat 32 n).toNat = a.toNat + n := by
  rw [BitVec.toNat_add, BitVec.toNat_ofNat, Nat.mod_eq_of_lt (by omega : n < 2 ^ 32), Nat.mod_eq_of_lt h]

/-- The `n` bytes from an address on, by their distance from it. -/
theorem exists_offset_iff (a x : Word) {n : ℕ} (hn : n ≤ 2 ^ 32) :
    (∃ k < n, x = a + BitVec.ofNat 32 k) ↔ (x - a).toNat < n := by
  constructor
  · rintro ⟨k, hk, rfl⟩
    bv_omega
  · intro h
    exact ⟨(x - a).toNat, h, by bv_omega⟩

/-- Masking off the low `k` bits rounds down to a multiple of `2 ^ k`. -/
theorem toNat_and_not_mask (x m : Word) (k : ℕ) (hm : m.toNat = 2 ^ k - 1) :
    (x &&& ~~~m).toNat = x.toNat / 2 ^ k * 2 ^ k := by
  have hbits : x &&& ~~~m = (x >>> k) <<< k := by
    apply BitVec.eq_of_getLsbD_eq
    intro i hi
    have hmask : m.getLsbD i = decide (i < k) := by
      rw [← BitVec.testBit_toNat, hm, Nat.testBit_two_pow_sub_one]
    rw [BitVec.getLsbD_and, BitVec.getLsbD_not, hmask, BitVec.getLsbD_shiftLeft,
      BitVec.getLsbD_ushiftRight]
    by_cases hik : i < k
    · simp [hik]
    · simp [hi, hik, Nat.add_sub_cancel' (Nat.le_of_not_lt hik)]
  rw [hbits, BitVec.toNat_shiftLeft, BitVec.toNat_ushiftRight, Nat.shiftRight_eq_div_pow,
    Nat.shiftLeft_eq, Nat.mod_eq_of_lt]
  exact Nat.lt_of_le_of_lt (Nat.div_mul_le_self _ _) x.isLt

/-- Keeping the low `k` bits is the remainder by `2 ^ k`. -/
theorem toNat_and_mask (x m : Word) (k : ℕ) (hm : m.toNat = 2 ^ k - 1) :
    (x &&& m).toNat = x.toNat % 2 ^ k := by
  rw [BitVec.toNat_and, hm, Nat.and_two_pow_sub_one_eq_mod]

/-- The mask of a power of two. -/
theorem toNat_sub_one_of_two_pow {align : Word} {k : ℕ} (halign : align.toNat = 2 ^ k) :
    (align - 1).toNat = 2 ^ k - 1 := by
  have hpos : 0 < 2 ^ k := Nat.two_pow_pos k
  bv_omega

/-- A power of two that is a word divides the size of the space. -/
theorem two_pow_dvd_of_toNat_eq {align : Word} {k : ℕ} (halign : align.toNat = 2 ^ k) :
    2 ^ k ∣ 2 ^ 32 := by
  have hlt : 2 ^ k < 2 ^ 32 := halign ▸ align.isLt
  exact Nat.pow_dvd_pow 2 (Nat.le_of_lt ((Nat.pow_lt_pow_iff_right (by decide)).mp hlt))

/-- Rounding up at a power of two, with the sum reduced to 32 bits. -/
theorem toNat_alignAddress (address align : Word) (k : ℕ) (halign : align.toNat = 2 ^ k) :
    (alignAddress address align).toNat =
      (address.toNat + (2 ^ k - 1)) % 2 ^ 32 / 2 ^ k * 2 ^ k := by
  have hpos : 0 < 2 ^ k := Nat.two_pow_pos k
  have hsum : (address + align - 1).toNat = (address.toNat + (2 ^ k - 1)) % 2 ^ 32 := by bv_omega
  rw [alignAddress, toNat_and_not_mask _ _ k (toNat_sub_one_of_two_pow halign), hsum]

/-- The distance from an address to its rounded-up value, in 32-bit arithmetic: less than the
alignment, and the exact sum of the two is aligned even where the rounded value wraps to zero. -/
theorem alignAddress_pad (address align : Word) (k : ℕ) (halign : align.toNat = 2 ^ k) :
    (alignAddress address align - address).toNat < 2 ^ k ∧
      2 ^ k ∣ address.toNat + (alignAddress address align - address).toNat := by
  have hvalue := toNat_alignAddress address align k halign
  have hpos : 0 < 2 ^ k := Nat.two_pow_pos k
  have hlt : 2 ^ k < 2 ^ 32 := halign ▸ align.isLt
  have hdvd : 2 ^ k ∣ 2 ^ 32 := two_pow_dvd_of_toNat_eq halign
  have haddress := address.isLt
  generalize halignment : 2 ^ k = m at *
  have hdiv := Nat.div_add_mod' ((address.toNat + (m - 1)) % 2 ^ 32) m
  have hmod := Nat.mod_lt ((address.toNat + (m - 1)) % 2 ^ 32) hpos
  by_cases hwrap : address.toNat + (m - 1) < 2 ^ 32
  · rw [Nat.mod_eq_of_lt hwrap] at hvalue hdiv hmod
    have hsub : (alignAddress address align - address).toNat =
        (alignAddress address align).toNat - address.toNat := by
      bv_omega
    refine ⟨by omega, ?_⟩
    rw [hsub, Nat.add_sub_cancel' (by omega), hvalue]
    exact Nat.dvd_mul_left _ _
  · have hsmall : (address.toNat + (m - 1)) % 2 ^ 32 < m := by omega
    rw [Nat.div_eq_of_lt hsmall, Nat.zero_mul] at hvalue
    have hsub : (alignAddress address align - address).toNat = 2 ^ 32 - address.toNat := by
      bv_omega
    refine ⟨by omega, ?_⟩
    rw [hsub, Nat.add_sub_cancel' (by omega)]
    exact hdvd

/-- The exact rounded-up value is the least aligned one from the address on. -/
theorem alignAddress_pad_le (address align : Word) (k a : ℕ) (halign : align.toNat = 2 ^ k)
    (hdvd : 2 ^ k ∣ a) (hle : address.toNat ≤ a) :
    address.toNat + (alignAddress address align - address).toNat ≤ a := by
  obtain ⟨hlt, hpad⟩ := alignAddress_pad address align k halign
  apply Nat.le_of_not_lt
  intro hgt
  have hdiff := Nat.le_of_dvd (Nat.sub_pos_of_lt hgt) (Nat.dvd_sub hpad hdvd)
  omega

/-- Rounding up to a page. -/
theorem toNat_pageAlign (address : Word) :
    (pageAlign address).toNat = (address.toNat + 4095) % 2 ^ 32 / 4096 * 4096 :=
  toNat_alignAddress address pageSize 12 rfl

end ChrisOS.Utils
