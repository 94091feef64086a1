import ChrisOS.Kern.TimerSafety

/-!
# From far timers to near ones

`timers_convert_far_to_near` computes the delay of a near timer from two times, in 64 bits without sign,
and keeps 32 bits of it with sign. The delay is exact if it fits. A timer that is promoted is at most
ten seconds away, so only one that is overdue can have a difference that does not fit: the delay is then
off by a multiple of `2 ^ 32` microseconds, and whether the timer is due depends on the remainder.
-/

namespace ChrisOS.Kern

open ChrisOS.Utils

variable {κ : Type*}

/-- The delay that is kept of a difference. -/
theorem toInt_toNear_delay (now : Timeval) (ft : FarTimer κ) :
    (ft.toNear now).delay.toInt = (ft.time.usecs - now.usecs).bmod (2 ^ 32) := by
  rw [FarTimer.toNear, usecsUntil_eq, BitVec.toInt_ofInt]

/-- Of a timer that is at most ten seconds away, the delay is exact if it fits. -/
theorem toNear_delay_eq {now : Timeval} {ft : FarTimer κ}
    (hsoon : ft.time.usecs ≤ now.usecs + 10 * 1000000)
    (hfits : -2 ^ 31 ≤ ft.time.usecs - now.usecs) :
    (ft.toNear now).delay.toInt = ft.time.usecs - now.usecs := by
  rw [toInt_toNear_delay]
  exact Int.bmod_eq_of_le_mul_two (by omega) (by omega)

/-- Such a timer waits exactly if it is after now, or it is overdue by a time whose remainder is past
the range of the delay. -/
theorem toNear_delay_pos {now : Timeval} {ft : FarTimer κ}
    (hsoon : ft.time.usecs ≤ now.usecs + 10 * 1000000) :
    0 < (ft.toNear now).delay.toInt ↔
      now.usecs < ft.time.usecs ∨ 2 ^ 31 < (now.usecs - ft.time.usecs) % 2 ^ 32 := by
  rw [toInt_toNear_delay, Int.bmod_def]
  split <;> omega

/-- Timers that are compared with a clock from which ten seconds on is a time are promoted if they are
not later than that. -/
theorem usecs_le_of_promoted {now time : Timeval} (hnormal : time.Normal)
    (hsec : now.tvSec.toNat < 2 ^ 43) (hnow : 0 ≤ now.usecs + 10 * 1000000)
    (hcmp : timeCmp time (timeAdd now ⟨nearThresholdSecs, 0⟩) ≤ 0) :
    time.usecs ≤ now.usecs + 10 * 1000000 := by
  obtain ⟨hthreshold, husecs⟩ := timeAdd_secs_spec now nearThresholdSecs
  have hsecs : (nearThresholdSecs.toNat : ℤ) = 10 := rfl
  have husec := now.tvUsec.toInt_lt
  have hlt : now.usecs + 10 * 1000000 < 2 ^ 64 * 1000000 := by
    unfold Timeval.usecs
    omega
  rw [hsecs, Int.emod_eq_of_lt hnow hlt] at husecs
  rw [← husecs]
  exact (timeCmp_le_zero hnormal hthreshold).mp hcmp

/-- `timers_update_far_timers` moves a prefix of the far timers to the near list, all of them at most
ten seconds away. The delay of each of them is its time minus the current one if that fits, and it is
positive exactly if the time is after the current one, unless the timer is overdue by more than half of
`2 ^ 32` microseconds modulo `2 ^ 32`. -/
theorem timersUpdateFarTimers_exact_iff (allocated : Word → Bool) {s : Timers κ}
    (hnormal : ∀ ft ∈ s.farTimers, ft.time.Normal) (hsec : s.timeNowUtc.tvSec.toNat < 2 ^ 43) :
    ∃ moved rest, s.farTimers = moved ++ rest ∧
      (timersUpdateFarTimers allocated s).farTimers = rest ∧
      (timersUpdateFarTimers allocated s).nearTimers.Perm
        (s.nearTimers ++ (moved.filter (allocated ·.id)).map (FarTimer.toNear s.timeNowUtc)) ∧
      (0 ≤ s.timeNowUtc.usecs + 10 * 1000000 →
        ∀ ft ∈ moved, ft.time.usecs ≤ s.timeNowUtc.usecs + 10 * 1000000) ∧
      ∀ ft ∈ moved, ft.time.usecs ≤ s.timeNowUtc.usecs + 10 * 1000000 →
        (-2 ^ 31 ≤ ft.time.usecs - s.timeNowUtc.usecs →
          (ft.toNear s.timeNowUtc).delay.toInt = ft.time.usecs - s.timeNowUtc.usecs) ∧
        ((0 < (ft.toNear s.timeNowUtc).delay.toInt ↔ s.timeNowUtc.usecs < ft.time.usecs) ↔
          s.timeNowUtc.usecs < ft.time.usecs ∨
            (s.timeNowUtc.usecs - ft.time.usecs) % 2 ^ 32 ≤ 2 ^ 31) := by
  obtain ⟨moved, rest, hsplit, hmoved, hfar, hnear, _, _⟩ := updateFarTimersFrom_spec allocated
    (timeAdd s.timeNowUtc ⟨nearThresholdSecs, 0⟩) s.farTimers s rfl
  refine ⟨moved, rest, hsplit, hfar, hnear, fun hnow ft hft => ?_, fun ft hft hsoon => ?_⟩
  · have hmem : ft ∈ s.farTimers := hsplit ▸ List.mem_append_left rest hft
    exact usecs_le_of_promoted (hnormal ft hmem) hsec hnow (hmoved ft hft)
  · refine ⟨toNear_delay_eq hsoon, ?_⟩
    rw [toNear_delay_pos hsoon]
    omega

/-- At a hundred seconds, a timer that was due at 95. -/
def overdueByFive : Timers Unit := ⟨1, [⟨1, ⟨95, 0⟩, none⟩], [], ⟨100, 0⟩⟩

/-- The overdue timer is due at once. -/
theorem timersUpdateFarTimers_exact_overdue :
    ∃ nt ∈ (timersUpdateFarTimers (fun _ => true) overdueByFive).nearTimers,
      nt.delay.toInt = -5 * 1000000 := by
  have hnormal : ∀ ft ∈ overdueByFive.farTimers, ft.time.Normal := by
    unfold Timeval.Normal
    decide
  obtain ⟨moved, rest, hsplit, hfar, hnear, _, hexact⟩ :=
    timersUpdateFarTimers_exact_iff (fun _ => true) hnormal (by decide)
  obtain rfl : [] = rest := hfar
  rw [List.append_nil] at hsplit
  subst hsplit
  obtain ⟨hdelay, _⟩ := hexact ⟨1, ⟨95, 0⟩, none⟩ List.mem_cons_self (by decide)
  refine ⟨_, hnear.mem_iff.mpr (List.mem_append_right _ (List.mem_map_of_mem List.mem_cons_self)), ?_⟩
  rw [hdelay (by decide)]
  decide

/-- A timer that is overdue by 2148 seconds has to wait for another 35 minutes. -/
theorem timersUpdateFarTimers_overdue_waits :
    (timersUpdateFarTimers (fun _ => true)
      (⟨1, [⟨1, ⟨0, 0⟩, none⟩], [], ⟨2148, 0⟩⟩ : Timers Unit)).nearTimers.map (·.delay.toInt) =
        [2146967296] := by
  decide

end ChrisOS.Kern
