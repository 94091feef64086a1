import ChrisOS.Kern.TimerOrder

/-!
# Comparing times

`time_cmp` normalises copies of its arguments and then compares the arguments, seconds first. That is
the order of two times exactly if the difference of their microseconds does not overflow when their
seconds are the same, and does not outweigh the difference of their seconds otherwise. It is so for all
times whose microseconds lie within one second, as those of normalised times do. Otherwise a time with
more than a second's worth of microseconds comes before an earlier one, and there are even times that
come before each other in a circle.
-/

namespace ChrisOS.Kern

open ChrisOS.Utils

/-- In the same second the difference of the microseconds does not overflow; in different ones it is
less than the difference of the seconds. -/
structure Timeval.Comparable (a b : Timeval) : Prop where
  same : a.tvSec = b.tvSec → -2 ^ 31 ≤ a.tvUsec.toInt - b.tvUsec.toInt ∧
    a.tvUsec.toInt - b.tvUsec.toInt < 2 ^ 31
  before : a.tvSec < b.tvSec →
    a.tvUsec.toInt - b.tvUsec.toInt < ((b.tvSec.toNat : ℤ) - a.tvSec.toNat) * 1000000
  behind : b.tvSec < a.tvSec →
    b.tvUsec.toInt - a.tvUsec.toInt < ((a.tvSec.toNat : ℤ) - b.tvSec.toNat) * 1000000

variable {a b c : Timeval}

/-- An overflow turns the sign of a difference around. -/
theorem sign_bmod_iff {x : ℤ} (hlow : -2 ^ 32 < x) (hhigh : x < 2 ^ 32) :
    (x.bmod (2 ^ 32)).sign = x.sign ↔ -2 ^ 31 ≤ x ∧ x < 2 ^ 31 := by
  constructor
  · intro hsign
    by_contra hout
    rw [Int.bmod_def] at hsign
    have hneg := Int.sign_eq_neg_one_iff_neg (a := x)
    have hpos := Int.sign_eq_one_iff_pos (a := x)
    split at hsign
    · have hleft := Int.sign_nonneg_iff (x := x % ((2 ^ 32 : ℕ) : ℤ))
      omega
    · have hleft := Int.sign_eq_neg_one_iff_neg (a := x % ((2 ^ 32 : ℕ) : ℤ) - ((2 ^ 32 : ℕ) : ℤ))
      omega
  · rintro ⟨hle, hlt⟩
    rw [Int.bmod_eq_of_le_mul_two (by omega) (by omega)]

/-- The sign of `time_cmp` is that of the difference of two times exactly if they are comparable. -/
theorem timeCmp_sign_iff (a b : Timeval) :
    (timeCmp a b).sign = (a.usecs - b.usecs).sign ↔ a.Comparable b := by
  have halow := a.tvUsec.le_toInt
  have hahigh := a.tvUsec.toInt_lt
  have hblow := b.tvUsec.le_toInt
  have hbhigh := b.tvUsec.toInt_lt
  unfold timeCmp Timeval.usecs
  by_cases hlt : a.tvSec < b.tvSec
  · rw [if_pos hlt, show (-1 : ℤ).sign = -1 from rfl, eq_comm, Int.sign_eq_neg_one_iff_neg]
    constructor
    · intro hneg
      exact ⟨fun h => by bv_omega, fun _ => by omega, fun h => by bv_omega⟩
    · intro h
      have := h.before hlt
      omega
  by_cases hgt : b.tvSec < a.tvSec
  · rw [if_neg hlt, if_pos hgt, show (1 : ℤ).sign = 1 from rfl, eq_comm, Int.sign_eq_one_iff_pos]
    constructor
    · intro hpos
      exact ⟨fun h => by bv_omega, fun h => absurd h hlt, fun _ => by omega⟩
    · intro h
      have := h.behind hgt
      omega
  have hsec : a.tvSec = b.tvSec := by bv_omega
  have hdiff : (a.tvSec.toNat * 1000000 + a.tvUsec.toInt : ℤ) -
      (b.tvSec.toNat * 1000000 + b.tvUsec.toInt) = a.tvUsec.toInt - b.tvUsec.toInt := by
    rw [hsec]
    omega
  rw [if_neg hlt, if_neg hgt, hdiff, BitVec.toInt_sub, sign_bmod_iff (by omega) (by omega)]
  exact ⟨fun h => ⟨fun _ => h, fun h => absurd h hlt, fun h => absurd h hgt⟩, fun h => h.same hsec⟩

/-- Not being later. -/
theorem Timeval.Comparable.cmp_le_zero (h : a.Comparable b) :
    timeCmp a b ≤ 0 ↔ a.usecs ≤ b.usecs := by
  rw [← Int.sign_nonpos_iff, (timeCmp_sign_iff a b).mpr h, Int.sign_nonpos_iff]
  omega

/-- The microseconds field is in the second that begins at `w`. -/
def Timeval.Within (tv : Timeval) (w : ℤ) : Prop :=
  w ≤ tv.tvUsec.toInt ∧ tv.tvUsec.toInt < w + 1000000

/-- Times whose microseconds lie within one second are comparable. -/
theorem Timeval.Within.comparable {w : ℤ} (ha : a.Within w) (hb : b.Within w) : a.Comparable b := by
  obtain ⟨halow, hahigh⟩ := ha
  obtain ⟨hblow, hbhigh⟩ := hb
  exact (timeCmp_sign_iff a b).mp (timeCmp_sign (by omega) (by omega))

/-- On a set of times `time_cmp` has the sign of their differences exactly if they are comparable. It is
then a total preorder, and sorting far timers with it puts them in the order of their times. Times whose
microseconds lie within one second are comparable. -/
theorem timeCmp_chronological {κ : Type*} (S : Set Timeval) :
    ((∀ a ∈ S, ∀ b ∈ S, (timeCmp a b).sign = (a.usecs - b.usecs).sign) ↔
      ∀ a ∈ S, ∀ b ∈ S, a.Comparable b) ∧
    ((∀ a ∈ S, ∀ b ∈ S, a.Comparable b) →
      (∀ a ∈ S, ∀ b ∈ S, timeCmp a b ≤ 0 ∨ timeCmp b a ≤ 0) ∧
      (∀ a ∈ S, ∀ b ∈ S, ∀ c ∈ S, timeCmp a b ≤ 0 → timeCmp b c ≤ 0 → timeCmp a c ≤ 0) ∧
      ∀ l : List (FarTimer κ), (∀ ft ∈ l, ft.time ∈ S) →
        (l.insertionSort (timerFarTimersCmp · · ≤ 0)).Pairwise
          fun a b => a.time.usecs ≤ b.time.usecs) ∧
    ∀ w : ℤ, (∀ a ∈ S, a.Within w) → ∀ a ∈ S, ∀ b ∈ S, a.Comparable b := by
  refine ⟨by simp only [timeCmp_sign_iff], fun hS => ⟨fun a ha b hb => ?_, fun a ha b hb c hc => ?_,
    fun l hl => ?_⟩, fun w hw a ha b hb => (hw a ha).comparable (hw b hb)⟩
  · rw [(hS a ha b hb).cmp_le_zero, (hS b hb a ha).cmp_le_zero]
    exact Int.le_total _ _
  · rw [(hS a ha b hb).cmp_le_zero, (hS b hb c hc).cmp_le_zero, (hS a ha c hc).cmp_le_zero]
    exact Int.le_trans
  · exact pairwise_insertionSort_key _ (fun ft : FarTimer κ => ft.time.usecs) l
      fun a ha b hb => (hS _ (hl a ha) _ (hl b hb)).cmp_le_zero

/-- A time with more than a second's worth of microseconds and one long after it. -/
theorem timeCmp_chronological_apart :
    ([⟨2, ⟨5, 0⟩, none⟩, ⟨1, ⟨0, 1500000⟩, none⟩].insertionSort
      (timerFarTimersCmp · · ≤ 0) : List (FarTimer Unit)).Pairwise
        fun a b => a.time.usecs ≤ b.time.usecs := by
  have hcomparable : ∀ a ∈ ({⟨5, 0⟩, ⟨0, 1500000⟩} : Set Timeval),
      ∀ b ∈ ({⟨5, 0⟩, ⟨0, 1500000⟩} : Set Timeval), a.Comparable b := by
    simp only [Set.mem_insert_iff, Set.mem_singleton_iff, forall_eq_or_imp, forall_eq]
    exact ⟨⟨⟨by decide, by decide, by decide⟩, ⟨by decide, by decide, by decide⟩⟩,
      ⟨by decide, by decide, by decide⟩, ⟨by decide, by decide, by decide⟩⟩
  refine ((timeCmp_chronological {⟨5, 0⟩, ⟨0, 1500000⟩}).2.1 hcomparable).2.2 _ ?_
  simp

/-- A second and a half of microseconds come before one second; and of three times in the same second
the first is before the second, the second before the third and the third before the first. -/
theorem timeCmp_not_chronological :
    (timeCmp ⟨0, 1500000⟩ ⟨1, 0⟩ < 0 ∧ Timeval.usecs ⟨1, 0⟩ < Timeval.usecs ⟨0, 1500000⟩) ∧
    timeCmp ⟨0, 0x80000000⟩ ⟨0, 0⟩ < 0 ∧ timeCmp ⟨0, 0⟩ ⟨0, 0x7fffffff⟩ < 0 ∧
      timeCmp ⟨0, 0x7fffffff⟩ ⟨0, 0x80000000⟩ < 0 := by
  decide

end ChrisOS.Kern
