import ChrisOS.Utils.Mem
import Mathlib.Algebra.Group.Int.Defs

/-!
# Times

`kern/time.c`: a time is a count of seconds and a count of microseconds, and neither
`time_add` nor `time_cmp` leaves or compares a normalised one. Both normalise a copy that
they then do not use, so `time_cmp` orders times correctly only if their microseconds are
below a second.
-/

namespace ChrisOS.Kern

open ChrisOS.Utils

/-- `struct timeval`, with a `time_t` of 64 bits and a signed `suseconds_t` of 32. -/
structure Timeval where
  tvSec : BitVec 64
  tvUsec : Word
deriving DecidableEq, Repr

/-- `time_normalise`; division truncates and the remainder has the sign of the dividend. -/
def timeNormalise (tv : Timeval) : Timeval :=
  let s := tv.tvUsec.toInt.tdiv 1000000
  let us := tv.tvUsec.toInt.tmod 1000000
  let tv : Timeval := ⟨tv.tvSec + BitVec.ofInt 64 s, BitVec.ofInt 32 us⟩
  if tv.tvUsec.toInt < 0 then ⟨tv.tvSec - 1, tv.tvUsec + 1000000⟩ else tv

/-- `time_add`, which adds `diff` as it is. -/
def timeAdd (dest diff : Timeval) : Timeval :=
  let dest := timeNormalise dest
  ⟨dest.tvSec + diff.tvSec, dest.tvUsec + diff.tvUsec⟩

/-- `time_cmp`, which compares the times as they are. -/
def timeCmp (a b : Timeval) : ℤ :=
  if a.tvSec < b.tvSec then -1
  else if a.tvSec > b.tvSec then 1
  else (a.tvUsec - b.tvUsec).toInt

/-- The difference of two times in microseconds, as `timers_convert_far_to_near` computes it. -/
def usecsUntil (time now : Timeval) : Word :=
  ((time.tvSec - now.tvSec) * 1000000).setWidth 32 + (time.tvUsec - now.tvUsec)

/-- The microseconds a time stands for. -/
def Timeval.usecs (tv : Timeval) : ℤ := tv.tvSec.toNat * 1000000 + tv.tvUsec.toInt

/-- The microseconds field is less than a second. -/
def Timeval.Normal (tv : Timeval) : Prop := 0 ≤ tv.tvUsec.toInt ∧ tv.tvUsec.toInt < 1000000

/-- A normalised time has its microseconds within a second and is the same time, as far as 64 bits
of seconds go. -/
theorem timeNormalise_spec (tv : Timeval) :
    (timeNormalise tv).Normal ∧ (timeNormalise tv).usecs = tv.usecs % (2 ^ 64 * 1000000) := by
  have hlt := tv.tvUsec.toInt_lt
  have hle := tv.tvUsec.le_toInt
  have hdiv := Int.mul_tdiv_add_tmod tv.tvUsec.toInt 1000000
  have hbound := Int.tmod_lt_of_pos tv.tvUsec.toInt (b := 1000000) (by decide)
  have hneg := Int.lt_tmod_of_pos tv.tvUsec.toInt (b := 1000000) (by decide)
  unfold timeNormalise Timeval.usecs Timeval.Normal
  generalize tv.tvUsec.toInt.tdiv 1000000 = s at *
  generalize tv.tvUsec.toInt.tmod 1000000 = us at *
  have hus : (BitVec.ofInt 32 us).toInt = us := by
    rw [BitVec.toInt_ofInt]
    exact Int.bmod_eq_of_le_mul_two (by omega) (by omega)
  have hs : (BitVec.ofInt 64 s).toNat = (s % 2 ^ 64).toNat := BitVec.toNat_ofInt ..
  dsimp only
  split
  · next hborrow =>
    have husec : (BitVec.ofInt 32 us + 1000000).toInt = us + 1000000 := by
      rw [BitVec.toInt_add, hus]
      have hsecond : (1000000 : Word).toInt = 1000000 := by decide
      rw [hsecond]
      exact Int.bmod_eq_of_le_mul_two (by omega) (by omega)
    have hone : (1 : BitVec 64).toNat = 1 := rfl
    rw [husec, BitVec.toNat_sub, BitVec.toNat_add, hs, hone]
    omega
  · rw [hus, BitVec.toNat_add, hs]
    omega

variable {tv : Timeval}

/-- Normalising a time with microseconds in range changes it only if the seconds overflow. -/
theorem timeNormalise_of_nonneg (h : 0 ≤ tv.tvUsec.toInt) :
    (timeNormalise tv).Normal ∧ (timeNormalise tv).usecs ≤ tv.usecs := by
  obtain ⟨hnormal, husecs⟩ := timeNormalise_spec tv
  have hnonneg : 0 ≤ tv.usecs := by
    unfold Timeval.usecs
    omega
  refine ⟨hnormal, ?_⟩
  omega

/-- Whole seconds on, as far as 64 bits of seconds go. -/
theorem timeAdd_secs_spec (tv : Timeval) (secs : BitVec 64) :
    (timeAdd tv ⟨secs, 0⟩).Normal ∧
      (timeAdd tv ⟨secs, 0⟩).usecs = (tv.usecs + secs.toNat * 1000000) % (2 ^ 64 * 1000000) := by
  obtain ⟨hnormal, husecs⟩ := timeNormalise_spec tv
  have hadd : timeAdd tv ⟨secs, 0⟩ = ⟨(timeNormalise tv).tvSec + secs, (timeNormalise tv).tvUsec⟩ :=
    congrArg (Timeval.mk _) (BitVec.add_zero _)
  rw [hadd]
  refine ⟨hnormal, ?_⟩
  unfold Timeval.Normal at hnormal
  unfold Timeval.usecs at *
  dsimp only
  rw [BitVec.toNat_add]
  omega

/-- Whole seconds on; the seconds may only overflow to an earlier time. -/
theorem timeAdd_secs (h : 0 ≤ tv.tvUsec.toInt) (secs : BitVec 64) :
    (timeAdd tv ⟨secs, 0⟩).Normal ∧ (timeAdd tv ⟨secs, 0⟩).usecs ≤ tv.usecs + secs.toNat * 1000000 := by
  obtain ⟨hnormal, husecs⟩ := timeAdd_secs_spec tv secs
  have hnonneg : 0 ≤ tv.usecs := by
    unfold Timeval.usecs
    omega
  refine ⟨hnormal, ?_⟩
  omega

/-- A tick that comes out right leaves the microseconds in range. -/
theorem timeAdd_usecs_nonneg (h : 0 ≤ tv.tvUsec.toInt) {usecs : Word}
    (hclock : (timeAdd tv ⟨0, usecs⟩).usecs = tv.usecs + usecs.toNat) :
    0 ≤ (timeAdd tv ⟨0, usecs⟩).tvUsec.toInt := by
  obtain ⟨hnormal, hle⟩ := timeNormalise_of_nonneg h
  have hadd : timeAdd tv ⟨0, usecs⟩ =
      ⟨(timeNormalise tv).tvSec, (timeNormalise tv).tvUsec + usecs⟩ :=
    congrArg (Timeval.mk · _) (BitVec.add_zero _)
  rw [hadd] at hclock ⊢
  generalize timeNormalise tv = n at *
  unfold Timeval.Normal Timeval.usecs at *
  dsimp only at *
  have hfield := BitVec.toInt_eq_toNat_cond n.tvUsec
  have hsum := BitVec.toInt_eq_toNat_cond (n.tvUsec + usecs)
  rw [BitVec.toNat_add] at hsum
  split at hfield <;> split at hsum <;> omega

/-- `time_cmp` has the sign of the difference of two times whose microseconds are less than a second
apart. -/
theorem timeCmp_sign {a b : Timeval} (hlow : -1000000 < a.tvUsec.toInt - b.tvUsec.toInt)
    (hhigh : a.tvUsec.toInt - b.tvUsec.toInt < 1000000) :
    (timeCmp a b).sign = (a.usecs - b.usecs).sign := by
  unfold timeCmp Timeval.usecs
  by_cases hlt : a.tvSec < b.tvSec
  · rw [if_pos hlt]
    exact (Int.sign_eq_neg_one_of_neg (by bv_omega)).symm
  · by_cases hgt : a.tvSec > b.tvSec
    · rw [if_neg hlt, if_pos hgt]
      exact (Int.sign_eq_one_of_pos (by bv_omega)).symm
    · have hsec : a.tvSec = b.tvSec := by bv_omega
      rw [if_neg hlt, if_neg hgt, BitVec.toInt_sub,
        Int.bmod_eq_of_le_mul_two (by omega) (by omega), hsec]
      congr 1
      omega

/-- On times within their second `time_cmp` is the order of times. -/
theorem timeCmp_le_zero {a b : Timeval} (ha : a.Normal) (hb : b.Normal) :
    timeCmp a b ≤ 0 ↔ a.usecs ≤ b.usecs := by
  unfold Timeval.Normal at ha hb
  rw [← Int.sign_nonpos_iff, timeCmp_sign (by omega) (by omega), Int.sign_nonpos_iff]
  omega

/-- Conversion to 32 bits respects differences. -/
theorem ofInt_sub (x y : ℤ) : BitVec.ofInt 32 (x - y) = BitVec.ofInt 32 x - BitVec.ofInt 32 y := by
  have hadd := BitVec.ofInt_add (n := 32) (x - y) y
  rw [Int.sub_add_cancel] at hadd
  rw [hadd, BitVec.add_sub_cancel]

/-- The difference of two times is computed modulo 32 bits. -/
theorem usecsUntil_eq (time now : Timeval) :
    usecsUntil time now = BitVec.ofInt 32 (time.usecs - now.usecs) := by
  have hsecs : time.tvSec.setWidth 32 =
      (time.tvSec - now.tvSec).setWidth 32 + now.tvSec.setWidth 32 := by
    rw [← BitVec.setWidth_add _ _ (by decide), BitVec.sub_add_cancel]
  have hfactor : (1000000 : BitVec 64).setWidth 32 = BitVec.ofInt 32 1000000 := by decide
  have hsplit : ∀ tv : Timeval, BitVec.ofInt 32 tv.usecs =
      tv.tvSec.setWidth 32 * BitVec.ofInt 32 1000000 + tv.tvUsec := by
    intro tv
    rw [Timeval.usecs, BitVec.ofInt_add, BitVec.ofInt_mul, BitVec.ofInt_natCast, BitVec.ofNat_toNat,
      BitVec.ofInt_toInt]
  rw [ofInt_sub, hsplit, hsplit, hsecs, usecsUntil, BitVec.setWidth_mul _ _ (by decide), hfactor]
  grind

/-- The difference is exact when it fits. -/
theorem usecsUntil_toInt {time now : Timeval} (hlow : -2 ^ 31 ≤ time.usecs - now.usecs)
    (hhigh : time.usecs - now.usecs < 2 ^ 31) :
    (usecsUntil time now).toInt = time.usecs - now.usecs := by
  rw [usecsUntil_eq, BitVec.toInt_ofInt]
  exact Int.bmod_eq_of_le_mul_two (by omega) (by omega)

end ChrisOS.Kern
