import ChrisOS.Sys.Param
import ChrisOS.Utils.InsertionSort

/-!
# The local APIC

From `ia32/apic.c`: where the base address of the local APIC is kept in its model-specific register,
and how the frequency of the bus is taken from three measurements.

The register is two words. What a measurement finds is the count that the timer has come down to
when the interval timer has run out; the accesses to the device that make it run are left out.
-/

namespace ChrisOS.Ia32

open ChrisOS.Utils ChrisOS.Sys

/-- `struct apic_base_msr`. -/
structure ApicBaseMsr where
  low : Word
  high : Word
deriving DecidableEq, Repr

/-- `APIC_MSR_LOW_GET_BASE`. -/
def apicMsrLowGetBase (msr : Word) : Word := withbits 0 0 19 (getbits msr 12 31)

/-- `APIC_MSR_HIGH_GET_BASE`. -/
def apicMsrHighGetBase (msr : Word) : Word := withbits 0 20 23 (getbits msr 0 3)

/-- `APIC_MSR_LOW_SET_BASE`. -/
def apicMsrLowSetBase (msr value : Word) : Word := withbits msr 12 31 (getbits value 0 19)

/-- `APIC_MSR_HIGH_SET_BASE`. -/
def apicMsrHighSetBase (msr value : Word) : Word := withbits msr 0 3 (getbits value 20 23)

/-- `apic_get_base`, what it stores in `*low` and `*high`. -/
def apicGetBase (msr : ApicBaseMsr) : Word × Word :=
  (apicMsrLowGetBase msr.low <<< 12, apicMsrHighGetBase msr.high)

/-- `apic_set_base`. -/
def apicSetBase (msr : ApicBaseMsr) (low high : Word) : ApicBaseMsr where
  low := apicMsrLowSetBase msr.low (low >>> 12)
  high := apicMsrHighSetBase msr.high high

/-- `apic_measure_timer_freq`, with the timer at `curcount` when the wait is over. -/
def apicMeasureTimerFreq (curcount : Word) : Word :=
  let timerDiv : Word := 16
  let testSleepFreq : Word := 10
  let startCount : Word := -1
  let ticks := startCount - curcount
  ticks * timerDiv * testSleepFreq

/-- `apic_timer_init`, what it leaves in `_apic_bus_freq`. The measurements find the timer at
`curcount 0`, `curcount 1` and `curcount 2`. -/
def apicTimerInit (curcount : ℕ → Word) : Word :=
  let freqs := insertionSort compUint (fun i => apicMeasureTimerFreq (curcount i)) 3
  freqs 1

/-- A number of a list with at most half of them below it and at most half of them above it. -/
def IsMedian (m : ℕ) (numbers : List ℕ) : Prop :=
  m ∈ numbers ∧ 2 * numbers.countP (· < m) ≤ numbers.length ∧
    2 * numbers.countP (m < ·) ≤ numbers.length

instance (m : ℕ) (numbers : List ℕ) : Decidable (IsMedian m numbers) :=
  inferInstanceAs (Decidable (_ ∧ _ ∧ _))

section Base

/-- The bits of the address that go through the low word. -/
theorem apicGetBase_low (msr low : Word) :
    apicMsrLowGetBase (apicMsrLowSetBase msr (low >>> 12)) <<< 12 = low &&& ~~~0xfff#32 := by
  rw [show ~~~0xfff#32 = bitmask 12 31 by decide]
  apply BitVec.eq_of_getLsbD_eq
  intro k hk
  rw [BitVec.getLsbD_and, getLsbD_bitmask (by decide) (by decide), BitVec.getLsbD_shiftLeft,
    apicMsrLowGetBase, apicMsrLowSetBase, getLsbD_withbits _ _ (by decide) (by decide),
    getLsbD_getbits _ (by decide) (by decide), getLsbD_withbits _ _ (by decide) (by decide),
    getLsbD_getbits _ (by decide) (by decide), BitVec.getLsbD_ushiftRight]
  by_cases hlow : k < 12
  · have hout : ¬ 12 ≤ k := by omega
    simp [hlow, hout]
  · have hsub : 12 + (k - 12) = k := by omega
    have hfield : k - 12 ≤ 19 := by omega
    have htop : 12 ≤ k ∧ k ≤ 31 := by omega
    simp [hlow, hsub, hk, hfield, htop]

/-- The bits of the address that go through the high word. -/
theorem apicGetBase_high (msr high : Word) :
    apicMsrHighGetBase (apicMsrHighSetBase msr high) = high &&& 0x00f00000#32 := by
  rw [show 0x00f00000#32 = bitmask 20 23 by decide]
  apply BitVec.eq_of_getLsbD_eq
  intro k _
  rw [BitVec.getLsbD_and, getLsbD_bitmask (by decide) (by decide), apicMsrHighGetBase,
    apicMsrHighSetBase, getLsbD_withbits _ _ (by decide) (by decide),
    getLsbD_getbits _ (by decide) (by decide), getLsbD_withbits _ _ (by decide) (by decide),
    getLsbD_getbits _ (by decide) (by decide)]
  by_cases hfield : 20 ≤ k ∧ k ≤ 23
  · have hsub : 20 + (k - 20) = k := by omega
    have hnibble : k - 20 ≤ 3 := by omega
    simp [hfield, hsub, hnibble]
  · simp [hfield]

/-- The bit-field accessors are lawful, and so what `apic_set_base` stores is what `apic_get_base`
finds. -/
theorem bit_fields_lawful (a v w : Word) {i j : ℕ} (hij : i ≤ j) (hj : j ≤ 31) :
    (getbits (withbits a i j v) i j).toNat = v.toNat % 2 ^ (j - i + 1) ∧
    withbits a i j (getbits a i j) = a ∧
    withbits (withbits a i j v) i j w = withbits a i j w ∧
    (∀ k, k < i ∨ j < k → (withbits a i j v).getLsbD k = a.getLsbD k) ∧
    (∀ i' j', i' ≤ j' → j' ≤ 31 → j < i' ∨ j' < i →
      withbits (withbits a i j v) i' j' w = withbits (withbits a i' j' w) i j v) ∧
    ∀ (msr : ApicBaseMsr) (low high : Word),
      apicGetBase (apicSetBase msr low high) = (low &&& ~~~0xfff#32, high &&& 0x00f00000#32) ∧
      (∀ k < 12, (apicSetBase msr low high).low.getLsbD k = msr.low.getLsbD k) ∧
      ∀ k, 4 ≤ k → (apicSetBase msr low high).high.getLsbD k = msr.high.getLsbD k := by
  have hi : i < 32 := by omega
  have hj' : j < 32 := by omega
  refine ⟨toNat_getbits_withbits a v hij hj', withbits_getbits a hi hj',
    withbits_withbits a v w hi hj', ?_, ?_, ?_⟩
  · intro k hk
    rw [getLsbD_withbits a v hi hj', if_neg (by omega)]
  · intro i' j' hij' hj'' hdisjoint
    exact withbits_comm a v w hi hj' (by omega) (by omega) hdisjoint
  · intro msr low high
    refine ⟨Prod.ext (apicGetBase_low msr.low low) (apicGetBase_high msr.high high), ?_, ?_⟩
    · intro k hk
      exact (getLsbD_withbits _ _ (by decide) (by decide) k).trans (if_neg (by omega))
    · intro k hk
      exact (getLsbD_withbits _ _ (by decide) (by decide) k).trans (if_neg (by omega))

/-- A byte written to bits 8 to 11 leaves its low half there. -/
theorem bit_fields_lawful_nibble :
    (getbits (withbits 0xffffffff#32 8 11 0xa5#32) 8 11).toNat = 5 ∧
      apicGetBase (apicSetBase ⟨0x900#32, 0#32⟩ 0xfee00fff#32 0xffffffff#32) =
        (0xfee00000#32, 0x00f00000#32) := by
  obtain ⟨hread, _, _, _, _, hbase⟩ :=
    bit_fields_lawful 0xffffffff#32 0xa5#32 0 (show 8 ≤ 11 by decide) (show 11 ≤ 31 by decide)
  exact ⟨hread, (hbase ⟨0x900#32, 0#32⟩ 0xfee00fff#32 0xffffffff#32).1⟩

end Base

section BusFrequency

/-- A measured frequency, as a number. -/
def measuredFreq (curcount : ℕ → Word) (i : ℕ) : ℕ := (apicMeasureTimerFreq (curcount i)).toNat

/-- The frequency that is chosen: the smaller of the first two, unless the third is not below the
larger of them. -/
theorem toNat_apicTimerInit (curcount : ℕ → Word) :
    (apicTimerInit curcount).toNat =
      if measuredFreq curcount 2 < max (measuredFreq curcount 0) (measuredFreq curcount 1) then
        min (measuredFreq curcount 0) (measuredFreq curcount 1)
      else max (measuredFreq curcount 0) (measuredFreq curcount 1) := by
  unfold apicTimerInit measuredFreq
  simp only [insertionSort_three_one, compUint_pos_iff]
  split_ifs <;> omega

/-- That is the median if the third is at one of the two ends. -/
theorem isMedian_chosen_iff (x y z : ℕ) :
    IsMedian (if z < max x y then min x y else max x y) [x, y, z] ↔
      (x ≤ z ∧ y ≤ z) ∨ (z ≤ x ∧ z ≤ y) := by
  simp only [IsMedian, List.countP_cons, List.countP_nil, List.mem_cons, List.not_mem_nil,
    decide_eq_true_eq, List.length_cons, List.length_nil]
  split_ifs <;> omega

/-- `insertion_sort` leaves a permutation of the array. It sorts exactly if every item is not below
any item before it or not above any item before it, and `apic_timer_init` finds the median exactly
if that is so of the third measurement. -/
theorem insertion_sort_sorts_iff {α : Type*} (comp : α → α → ℤ) (items : ℕ → α) (length : ℕ)
    (curcount : ℕ → Word) :
    (cells (insertionSort comp items length) length).Perm (cells items length) ∧
    (∀ k, length ≤ k → insertionSort comp items length k = items k) ∧
    (TotalPreorder comp →
      ((cells (insertionSort comp items length) length).Pairwise (fun a b => comp a b ≤ 0) ↔
        ∀ i < length, (∀ j < i, comp (items j) (items i) ≤ 0) ∨
          ∀ j < i, comp (items i) (items j) ≤ 0)) ∧
    (IsMedian (apicTimerInit curcount).toNat
        [measuredFreq curcount 0, measuredFreq curcount 1, measuredFreq curcount 2] ↔
      (measuredFreq curcount 0 ≤ measuredFreq curcount 2 ∧
        measuredFreq curcount 1 ≤ measuredFreq curcount 2) ∨
      (measuredFreq curcount 2 ≤ measuredFreq curcount 0 ∧
        measuredFreq curcount 2 ≤ measuredFreq curcount 1)) := by
  refine ⟨cells_insertionSort_perm comp items length, ?_, ?_, ?_⟩
  · intro k hk
    exact insertionSort_of_le comp items hk
  · intro hcomp
    exact cells_insertionSort_pairwise_iff hcomp items length
  · rw [toNat_apicTimerInit, isMedian_chosen_iff]

/-- Where the timer stands after 1, 3 and 2 ticks. -/
def curcountOneThreeTwo (i : ℕ) : Word := [0xfffffffe, 0xfffffffc, 0xfffffffd].getD i 0

/-- The third measurement is moved in front of the first, which is then in the middle. -/
theorem apicTimerInit_not_median :
    TotalPreorder compUint ∧
    cells (fun i => apicMeasureTimerFreq (curcountOneThreeTwo i)) 3 = [160, 480, 320] ∧
    cells (insertionSort compUint (fun i => apicMeasureTimerFreq (curcountOneThreeTwo i)) 3) 3 =
      [320, 160, 480] ∧
    ¬ (cells (insertionSort compUint (fun i => apicMeasureTimerFreq (curcountOneThreeTwo i)) 3)
      3).Pairwise (fun a b => compUint a b ≤ 0) ∧
    ¬ IsMedian (apicTimerInit curcountOneThreeTwo).toNat [measuredFreq curcountOneThreeTwo 0,
      measuredFreq curcountOneThreeTwo 1, measuredFreq curcountOneThreeTwo 2] := by
  refine ⟨comparators_totalPreorder.2.1, ?_, ?_, ?_, ?_⟩ <;> decide

end BusFrequency

end ChrisOS.Ia32
