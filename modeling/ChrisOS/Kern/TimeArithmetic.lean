import ChrisOS.Kern.Time
import Mathlib.Data.Nat.Init
import Mathlib.Logic.Function.Iterate

/-!
# Time arithmetic

`time_normalise` keeps the time and settles at once. `time_add` adds the microseconds of `diff` as
they are to normalised ones, so the sum fits if they leave room for those of one second. The clock
that is moved on by a quantum again and again therefore counts every one of them: its microseconds
are brought below a second at each call, before the next quantum is added.

`ticks_irq_handler` makes one such call every fifty interrupts.
-/

namespace ChrisOS.Kern

open ChrisOS.Utils

/-- There is nothing to do on a normalised time. -/
theorem timeNormalise_of_normal {tv : Timeval} (h : tv.Normal) : timeNormalise tv = tv := by
  obtain ⟨hnonneg, hlt⟩ := h
  have hdiv : tv.tvUsec.toInt.tdiv 1000000 = 0 := Int.tdiv_eq_zero_of_lt hnonneg hlt
  have hmod : tv.tvUsec.toInt.tmod 1000000 = tv.tvUsec.toInt := Int.tmod_eq_of_lt hnonneg hlt
  unfold timeNormalise
  dsimp only
  rw [hdiv, hmod, BitVec.ofInt_toInt, if_neg (by omega)]
  exact congrArg (Timeval.mk · _) (BitVec.add_zero _)

/-- The microseconds after `time_add`, if they fit. -/
theorem timeAdd_tvUsec (dest : Timeval) {diff : Timeval}
    (h : diff.tvUsec.toInt ≤ 2 ^ 31 - 1 - 999999) :
    (timeAdd dest diff).tvUsec.toInt = (timeNormalise dest).tvUsec.toInt + diff.tvUsec.toInt := by
  obtain ⟨hnonneg, hlt⟩ := (timeNormalise_spec dest).1
  have hle := diff.tvUsec.le_toInt
  change ((timeNormalise dest).tvUsec + diff.tvUsec).toInt = _
  rw [BitVec.toInt_add]
  exact Int.bmod_eq_of_le_mul_two (by omega) (by omega)

/-- `time_add` adds, as far as 64 bits of seconds go. -/
theorem timeAdd_usecs_emod (dest : Timeval) {diff : Timeval}
    (h : diff.tvUsec.toInt ≤ 2 ^ 31 - 1 - 999999) :
    (timeAdd dest diff).usecs % (2 ^ 64 * 1000000) =
      (dest.usecs + diff.usecs) % (2 ^ 64 * 1000000) := by
  have hnormalised := (timeNormalise_spec dest).2
  have husec := timeAdd_tvUsec dest h
  have hsec : (timeAdd dest diff).tvSec.toNat =
      ((timeNormalise dest).tvSec.toNat + diff.tvSec.toNat) % 2 ^ 64 := BitVec.toNat_add _ _
  unfold Timeval.usecs at *
  rw [husec, hsec]
  omega

/-- A clock moved on by a quantum. -/
theorem timeAdd_quantum {now : Timeval} {q : Word} (hnonneg : 0 ≤ now.usecs)
    (hlt : now.usecs < 2 ^ 64 * 1000000) (hq : q.toNat ≤ 1000000) :
    (timeAdd now ⟨0, q⟩).usecs = now.usecs + q.toNat ∧
      0 ≤ (timeAdd now ⟨0, q⟩).tvUsec.toInt ∧
      (timeAdd now ⟨0, q⟩).tvUsec.toInt < 1000000 + q.toNat := by
  have hsigned : q.toInt = q.toNat := BitVec.toInt_eq_toNat_of_lt (by omega)
  have husec : (timeAdd now ⟨0, q⟩).tvUsec.toInt = (timeNormalise now).tvUsec.toInt + q.toInt :=
    timeAdd_tvUsec now (by change q.toInt ≤ _; omega)
  have hsec : (timeAdd now ⟨0, q⟩).tvSec = (timeNormalise now).tvSec := BitVec.add_zero _
  obtain ⟨⟨hlow, hhigh⟩, hsame⟩ := timeNormalise_spec now
  rw [Int.emod_eq_of_lt hnonneg hlt] at hsame
  refine ⟨?_, by omega, by omega⟩
  unfold Timeval.usecs at hsame ⊢
  rw [hsec, husec]
  omega

/-- The clock after `n` calls of `time_add` with a quantum, from zero on. -/
def clockAfter (q : Word) (n : ℕ) : Timeval := (timeAdd · ⟨0, q⟩)^[n] ⟨0, 0⟩

theorem clockAfter_succ (q : Word) (n : ℕ) :
    clockAfter q (n + 1) = timeAdd (clockAfter q n) ⟨0, q⟩ :=
  Function.iterate_succ_apply' _ n _

/-- The clock counts every quantum. -/
theorem clockAfter_spec {q : Word} (hq : q.toNat ≤ 1000000) {n : ℕ}
    (hn : n * q.toNat < 2 ^ 64 * 1000000) :
    (clockAfter q n).usecs = (n * q.toNat : ℕ) ∧ 0 ≤ (clockAfter q n).tvUsec.toInt ∧
      (clockAfter q n).tvUsec.toInt < 1000000 + q.toNat := by
  induction n with
  | zero =>
    have hzero : clockAfter q 0 = ⟨0, 0⟩ := rfl
    have husecs : (⟨0, 0⟩ : Timeval).usecs = 0 := by decide
    have husec : (0 : Word).toInt = 0 := by decide
    rw [hzero, husecs, husec]
    omega
  | succ n ih =>
    rw [Nat.succ_mul] at hn ⊢
    obtain ⟨husecs, _, _⟩ := ih (by omega)
    rw [clockAfter_succ, Int.natCast_add, ← husecs]
    exact timeAdd_quantum (by omega) (by omega) hq

/-- Time arithmetic is exact. -/
theorem time_arithmetic_exact :
    (∀ tv : Timeval, 0 ≤ (timeNormalise tv).tvUsec.toInt ∧
      (timeNormalise tv).tvUsec.toInt < 1000000 ∧
      (timeNormalise tv).usecs % (2 ^ 64 * 1000000) = tv.usecs % (2 ^ 64 * 1000000) ∧
      timeNormalise (timeNormalise tv) = timeNormalise tv) ∧
    (∀ dest diff : Timeval, diff.tvUsec.toInt ≤ 2 ^ 31 - 1 - 999999 →
      (timeAdd dest diff).usecs % (2 ^ 64 * 1000000) =
        (dest.usecs + diff.usecs) % (2 ^ 64 * 1000000)) ∧
    ∀ (q : Word) (n : ℕ), q.toNat ≤ 1000000 → n * q.toNat < 2 ^ 64 * 1000000 →
      (clockAfter q n).usecs = (n * q.toNat : ℕ) ∧
      ∀ m ≤ n, (clockAfter q m).tvUsec.toInt < 1000000 + q.toNat := by
  refine ⟨?_, ?_, ?_⟩
  · intro tv
    obtain ⟨hnormal, husecs⟩ := timeNormalise_spec tv
    refine ⟨hnormal.1, hnormal.2, ?_, timeNormalise_of_normal hnormal⟩
    rw [husecs, Int.emod_emod_of_dvd _ (Int.dvd_refl _)]
  · intro dest diff h
    exact timeAdd_usecs_emod dest h
  · intro q n hq hn
    refine ⟨(clockAfter_spec hq hn).1, ?_⟩
    intro m hm
    exact (clockAfter_spec hq (Nat.lt_of_le_of_lt (Nat.mul_le_mul_right _ hm) hn)).2.2

/-- A quantum of ten milliseconds, for an hour. -/
theorem time_arithmetic_exact_hour :
    (clockAfter 10000 360000).usecs = 3600000000 ∧
      ∀ m ≤ 360000, (clockAfter 10000 m).tvUsec.toInt < 1010000 :=
  time_arithmetic_exact.2.2 10000 360000 (by decide) (by decide)

section Ticks

/-- What `ticks_irq_handler` counts in: `_ticks_since_boot` and `_time_now_utc`. -/
structure TickClock where
  ticksSinceBoot : Word
  timeNowUtc : Timeval

/-- `ticks_irq_handler`, without the timers. -/
def TickClock.irqHandler (quantum : Word) (c : TickClock) : TickClock :=
  let ticks := c.ticksSinceBoot + 1
  if ticks % 50 ≠ 0 then { c with ticksSinceBoot := ticks }
  else ⟨ticks, timeAdd c.timeNowUtc ⟨0, quantum⟩⟩

/-- The clock goes on once every fifty interrupts, until their count wraps. -/
theorem tickClock_iterate (quantum : Word) {n : ℕ} (hn : n < 2 ^ 32) :
    (TickClock.irqHandler quantum)^[n] ⟨0, ⟨0, 0⟩⟩ =
      ⟨BitVec.ofNat 32 n, clockAfter quantum (n / 50)⟩ := by
  induction n with
  | zero => rfl
  | succ n ih =>
    rw [Function.iterate_succ_apply', ih (by omega), TickClock.irqHandler]
    have hticks : BitVec.ofNat 32 n + 1 = BitVec.ofNat 32 (n + 1) := (BitVec.ofNat_add n 1).symm
    have hmod : (BitVec.ofNat 32 (n + 1) % 50 : Word) = 0 ↔ (n + 1) % 50 = 0 := by
      rw [← BitVec.toNat_inj, BitVec.toNat_umod, BitVec.toNat_ofNat, Nat.mod_eq_of_lt hn]
      rfl
    dsimp only
    rw [hticks]
    by_cases hfifty : (n + 1) % 50 = 0
    · have hdiv : (n + 1) / 50 = n / 50 + 1 := by omega
      rw [if_neg (not_not.mpr (hmod.mpr hfifty)), hdiv, clockAfter_succ]
    · have hdiv : (n + 1) / 50 = n / 50 := by omega
      rw [if_pos (fun hzero => hfifty (hmod.mp hzero)), hdiv]

/-- The time it shows is a fiftieth of the quanta that have gone by. -/
theorem tickClock_usecs {quantum : Word} (hq : quantum.toNat ≤ 1000000) {n : ℕ} (hn : n < 2 ^ 32) :
    ((TickClock.irqHandler quantum)^[n] ⟨0, ⟨0, 0⟩⟩).timeNowUtc.usecs =
      (n / 50 * quantum.toNat : ℕ) := by
  rw [tickClock_iterate quantum hn]
  have hle : n / 50 * quantum.toNat ≤ n / 50 * 1000000 := Nat.mul_le_mul_left _ hq
  exact (clockAfter_spec hq (by omega)).1

/-- An hour of interrupts every ten milliseconds is 72 seconds on the clock. -/
theorem tickClock_usecs_hour :
    ((TickClock.irqHandler 10000)^[360000] ⟨0, ⟨0, 0⟩⟩).timeNowUtc.usecs = 72000000 :=
  (tickClock_usecs (by decide) (by decide)).trans (by decide)

end Ticks

end ChrisOS.Kern
