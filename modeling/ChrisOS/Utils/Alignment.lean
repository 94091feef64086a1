import ChrisOS.Utils.Mem
import Mathlib.Data.Nat.ModEq
import Mathlib.Order.Bounds.Basic

/-!
# How the alignment helpers agree

The helpers of `utils/mem.c` at a power of two, up to the last block of the address space. Rounding
down gives the greatest multiple not above the address, and the padding below is the rest. The
padding above leads to a multiple, in exact arithmetic, and less than one alignment further on: that
multiple is the least one not below the address, and rounding up gives it modulo `2 ^ 32`.
-/

namespace ChrisOS.Utils

variable {align : Word} {k : ℕ}

/-- Rounding down. -/
theorem toNat_alignAddressDown (halign : align.toNat = 2 ^ k) (a : Word) :
    (alignAddressDown a align).toNat = a.toNat / 2 ^ k * 2 ^ k :=
  toNat_and_not_mask a (align - 1) k (toNat_sub_one_of_two_pow halign)

theorem toNat_alignPaddingDown (halign : align.toNat = 2 ^ k) (a : Word) :
    (alignPaddingDown a align).toNat = a.toNat % 2 ^ k :=
  toNat_and_mask a (align - 1) k (toNat_sub_one_of_two_pow halign)

theorem toNat_alignPadding (halign : align.toNat = 2 ^ k) (a : Word) :
    (alignPadding a align).toNat = (-a).toNat % 2 ^ k :=
  toNat_and_mask (-a) (align - 1) k (toNat_sub_one_of_two_pow halign)

theorem isGreatest_alignAddressDown (halign : align.toNat = 2 ^ k) (a : Word) :
    IsGreatest {x | 2 ^ k ∣ x ∧ x ≤ a.toNat} (alignAddressDown a align).toNat := by
  rw [toNat_alignAddressDown halign]
  constructor
  · exact ⟨Nat.dvd_mul_left _ _, Nat.div_mul_le_self _ _⟩
  · rintro x ⟨⟨q, rfl⟩, hle⟩
    rw [Nat.mul_comm] at hle ⊢
    exact Nat.mul_le_mul_right _ ((Nat.le_div_iff_mul_le (Nat.two_pow_pos k)).mpr hle)

/-- The two parts of an address. -/
theorem toNat_alignAddressDown_add (halign : align.toNat = 2 ^ k) (a : Word) :
    (alignAddressDown a align).toNat + (alignPaddingDown a align).toNat = a.toNat := by
  rw [toNat_alignAddressDown halign, toNat_alignPaddingDown halign, Nat.div_add_mod']

theorem alignPadding_lt (halign : align.toNat = 2 ^ k) (a : Word) :
    alignPadding a align < align := by
  rw [BitVec.lt_def, toNat_alignPadding halign, halign]
  exact Nat.mod_lt _ (Nat.two_pow_pos k)

/-- The padding above leads to the rounded address: both are less than one alignment on, and both
lead to a multiple. -/
theorem add_alignPadding (halign : align.toNat = 2 ^ k) (a : Word) :
    a + alignPadding a align = alignAddress a align := by
  obtain ⟨hlt, hdvd⟩ := alignAddress_pad a align k halign
  have hneg : 2 ^ k ∣ a.toNat + (-a).toNat := by
    by_cases hzero : a = 0
    · rw [hzero]
      exact Nat.dvd_zero _
    · have hsum : a.toNat + (-a).toNat = 2 ^ 32 := by bv_omega
      rw [hsum]
      exact two_pow_dvd_of_toNat_eq halign
  have hmod : (alignAddress a align - a).toNat ≡ (-a).toNat [MOD 2 ^ k] :=
    Nat.ModEq.add_left_cancel' a.toNat
      ((Nat.modEq_zero_iff_dvd.mpr hdvd).trans (Nat.modEq_zero_iff_dvd.mpr hneg).symm)
  have hpad : alignPadding a align = alignAddress a align - a := by
    apply BitVec.eq_of_toNat_eq
    rw [toNat_alignPadding halign, ← hmod, Nat.mod_eq_of_lt hlt]
  rw [hpad]
  bv_omega

/-- The least multiple of the alignment that is not below an address, which may be `2 ^ 32`. -/
def alignedAbove (a align : Word) : ℕ := a.toNat + (alignAddress a align - a).toNat

theorem isLeast_alignedAbove (halign : align.toNat = 2 ^ k) (a : Word) :
    IsLeast {x | 2 ^ k ∣ x ∧ a.toNat ≤ x} (alignedAbove a align) := by
  refine ⟨⟨(alignAddress_pad a align k halign).2, Nat.le_add_right _ _⟩, ?_⟩
  rintro x ⟨hdvd, hle⟩
  exact alignAddress_pad_le a align k x halign hdvd hle

/-- Below the wrapping point, rounding up gives that multiple. -/
theorem toNat_alignAddress_of_lt {a : Word} (h : alignedAbove a align < 2 ^ 32) :
    (alignAddress a align).toNat = alignedAbove a align := by
  unfold alignedAbove at h ⊢
  bv_omega

/-- It gives zero for zero, and where it wraps. -/
theorem alignAddress_eq_zero_iff (halign : align.toNat = 2 ^ k) (a : Word) :
    alignAddress a align = 0 ↔ a = 0 ∨ alignedAbove a align = 2 ^ 32 := by
  constructor
  · intro hzero
    unfold alignedAbove
    rw [hzero]
    by_cases ha : a = 0
    · exact Or.inl ha
    · right
      bv_omega
  · rintro (rfl | htop)
    · have hle := (isLeast_alignedAbove halign 0).2 ⟨Nat.dvd_zero _, Nat.le_refl _⟩
      unfold alignedAbove at hle
      bv_omega
    · unfold alignedAbove at htop
      bv_omega

/-- A multiple is rounded to itself. -/
theorem alignAddress_of_dvd (halign : align.toNat = 2 ^ k) {a : Word} (hdvd : 2 ^ k ∣ a.toNat) :
    alignAddress a align = a := by
  have hle := (isLeast_alignedAbove halign a).2 ⟨hdvd, Nat.le_refl _⟩
  unfold alignedAbove at hle
  bv_omega

theorem alignAddress_alignAddress (halign : align.toNat = 2 ^ k) (a : Word) :
    alignAddress (alignAddress a align) align = alignAddress a align := by
  apply alignAddress_of_dvd halign
  rw [toNat_alignAddress a align k halign]
  exact Nat.dvd_mul_left _ _

theorem alignAddress_mono (halign : align.toNat = 2 ^ k) {a b : Word} (hab : a ≤ b) {up : ℕ}
    (hup : IsLeast {x | 2 ^ k ∣ x ∧ b.toNat ≤ x} up) (hlt : up < 2 ^ 32) :
    alignAddress a align ≤ alignAddress b align := by
  have hb : alignedAbove b align = up := (isLeast_alignedAbove halign b).unique hup
  have hle : alignedAbove a align ≤ up :=
    (isLeast_alignedAbove halign a).2 ⟨hup.1.1, Nat.le_trans (BitVec.le_def.mp hab) hup.1.2⟩
  rw [BitVec.le_def, toNat_alignAddress_of_lt (Nat.lt_of_le_of_lt hle hlt),
    toNat_alignAddress_of_lt (hb ▸ hlt), hb]
  exact hle

/-- The alignment helpers at a power of two. -/
theorem alignment_helpers_agree {align : Word} {k : ℕ} (halign : align.toNat = 2 ^ k) (a : Word) :
    IsGreatest {x | align.toNat ∣ x ∧ x ≤ a.toNat} (alignAddressDown a align).toNat ∧
    (alignAddressDown a align).toNat + (alignPaddingDown a align).toNat = a.toNat ∧
    alignPadding a align < align ∧
    a + alignPadding a align = alignAddress a align ∧
    (∃ up, IsLeast {x | align.toNat ∣ x ∧ a.toNat ≤ x} up ∧
      (up < 2 ^ 32 → (alignAddress a align).toNat = up) ∧
      (alignAddress a align = 0 ↔ a = 0 ∨ up = 2 ^ 32)) ∧
    alignAddress (alignAddress a align) align = alignAddress a align ∧
    pageAlign (pageAlign a) = pageAlign a ∧
    (∀ b up, a ≤ b → IsLeast {x | align.toNat ∣ x ∧ b.toNat ≤ x} up → up < 2 ^ 32 →
      alignAddress a align ≤ alignAddress b align) ∧
    ∀ b up, a ≤ b → IsLeast {x | pageSize.toNat ∣ x ∧ b.toNat ≤ x} up → up < 2 ^ 32 →
      pageAlign a ≤ pageAlign b := by
  rw [halign]
  have hpage : pageSize.toNat = 2 ^ 12 := rfl
  refine ⟨isGreatest_alignAddressDown halign a, toNat_alignAddressDown_add halign a,
    alignPadding_lt halign a, add_alignPadding halign a, ?_, alignAddress_alignAddress halign a,
    alignAddress_alignAddress hpage a, ?_, ?_⟩
  · exact ⟨alignedAbove a align, isLeast_alignedAbove halign a, toNat_alignAddress_of_lt,
      alignAddress_eq_zero_iff halign a⟩
  · intro b up hab hup hlt
    exact alignAddress_mono halign hab hup hlt
  · intro b up hab hup hlt
    exact alignAddress_mono hpage hab hup hlt

/-- An address in the last page, which rounds up to zero. -/
theorem alignment_helpers_agree_last_page :
    alignAddressDown 0xfffff123#32 0x1000#32 = 0xfffff000#32 ∧
      ∃ up, IsLeast {x | 4096 ∣ x ∧ 0xfffff123 ≤ x} up ∧
        (alignAddress 0xfffff123#32 0x1000#32 = 0 ↔ 0xfffff123#32 = 0 ∨ up = 2 ^ 32) := by
  obtain ⟨_, _, _, _, ⟨up, hup, _, hzero⟩, _⟩ :=
    alignment_helpers_agree (show (0x1000#32).toNat = 2 ^ 12 by decide) 0xfffff123#32
  exact ⟨by decide, up, hup, hzero⟩

end ChrisOS.Utils
