import ChrisOS.Kern.Time
import Mathlib.Data.List.Sort

/-!
# Timers

`kern/timer.c`: timers for an absolute time wait on the far list until they are due within ten
seconds, then move to the near list, which holds the microseconds left to each timer and is
counted down at every clock tick. The timer thread invokes the callback of the first near
timer when nothing is left of its delay, and removes the timer afterwards.

Every function runs under the timer lock with interrupts off, so a call is one step; the lock
itself is left to `TimerLock`. The two lists are lists of timers. `DL_SORT` is a stable sort. An
allocation that may fail is a parameter.
-/

namespace ChrisOS.Kern

open ChrisOS.Utils

/-- `struct timer_at_offset`; a callback stands for the function and its data. -/
structure NearTimer (κ : Type*) where
  id : Word
  delay : Word
  callback : Option κ

/-- `struct timer_at_time`. -/
structure FarTimer (κ : Type*) where
  id : Word
  time : Timeval
  callback : Option κ

/-- The timer variables and the clock `_time_now_utc`. -/
structure Timers (κ : Type*) where
  nextTimerId : Word
  farTimers : List (FarTimer κ)
  nearTimers : List (NearTimer κ)
  timeNowUtc : Timeval

/-- `NEAR_THRESHOLD_SECS`. -/
def nearThresholdSecs : BitVec 64 := 10

section Functions

variable {κ : Type*}

/-- `timer_far_timers_cmp`. -/
def timerFarTimersCmp (a b : FarTimer κ) : ℤ := timeCmp a.time b.time

/-- `timer_near_timers_cmp`. -/
def timerNearTimersCmp (a b : NearTimer κ) : ℤ :=
  if a.delay.toInt < b.delay.toInt then -1
  else if a.delay.toInt > b.delay.toInt then 1
  else 0

/-- `timer_next_id`: the new value of the counter, which is signed. -/
def timerNextId (nextTimerId : Word) : Word :=
  let id := nextTimerId + 1
  if id.toInt < 0 then 1 else id

/-- `timer_schedule_at`; a failed allocation takes no identifier. -/
def timerScheduleAt (allocated : Bool) (s : Timers κ) (time : Timeval) (callback : Option κ) :
    Timers κ × Word :=
  if allocated then
    let id := timerNextId s.nextTimerId
    ({ s with
      nextTimerId := id
      farTimers := List.insertionSort (timerFarTimersCmp · · ≤ 0)
        (⟨id, time, callback⟩ :: s.farTimers) }, id)
  else (s, -1)

/-- `timer_schedule_delay_with_id`. -/
def timerScheduleDelayWithId (allocated : Bool) (s : Timers κ) (id usecs : Word)
    (callback : Option κ) : Timers κ :=
  if allocated then
    { s with
      nearTimers := List.insertionSort (timerNearTimersCmp · · ≤ 0)
        (⟨id, usecs, callback⟩ :: s.nearTimers) }
  else s

/-- `timer_schedule_delay`; a failed allocation uses up an identifier. -/
def timerScheduleDelay (allocated : Bool) (s : Timers κ) (useconds : Word) (callback : Option κ) :
    Timers κ × Word :=
  let id := timerNextId s.nextTimerId
  let s := timerScheduleDelayWithId allocated { s with nextTimerId := id } id useconds callback
  (s, if allocated then id else -1)

/-- `timer_cancel`: the first near timer with the identifier, else the first far one. -/
def timerCancel (s : Timers κ) (id : Word) : Timers κ × Bool :=
  if s.nearTimers.any (·.id = id) then
    ({ s with nearTimers := s.nearTimers.eraseP (·.id = id) }, true)
  else if s.farTimers.any (·.id = id) then
    ({ s with farTimers := s.farTimers.eraseP (·.id = id) }, true)
  else (s, false)

/-- `timers_next_delay`. -/
def timersNextDelay (s : Timers κ) : Word :=
  match s.nearTimers with
  | timer :: _ => if timer.delay.toInt < 0 then 0 else timer.delay
  | [] => -1

/-- `timers_handle_near_timers`, with what invoking a callback does to the timers. -/
def timersHandleNearTimers (invoke : Word → κ → Timers κ → Timers κ) (s : Timers κ) :
    Timers κ × Bool :=
  match s.nearTimers with
  | timer :: _ =>
    if timer.delay.toInt ≤ 0 then
      let s := match timer.callback with
        | some callback => invoke timer.id callback s
        | none => s
      ((timerCancel s timer.id).1, true)
    else (s, false)
  | [] => (s, false)

/-- `timers_convert_far_to_near`, on the first far timer. -/
def timersConvertFarToNear (allocated : Bool) (s : Timers κ) (ft : FarTimer κ) : Timers κ :=
  let usecs := usecsUntil ft.time s.timeNowUtc
  timerScheduleDelayWithId allocated { s with farTimers := s.farTimers.tail } ft.id usecs ft.callback

/-- The loop of `timers_update_far_timers` over the far timers. -/
def updateFarTimersFrom (allocated : Word → Bool) (nearThreshold : Timeval) :
    List (FarTimer κ) → Timers κ → Timers κ
  | [], s => s
  | ft :: rest, s =>
    if timeCmp ft.time nearThreshold ≤ 0 then
      updateFarTimersFrom allocated nearThreshold rest
        (timersConvertFarToNear (allocated ft.id) s ft)
    else s

/-- `timers_update_far_timers`. -/
def timersUpdateFarTimers (allocated : Word → Bool) (s : Timers κ) : Timers κ :=
  updateFarTimersFrom allocated (timeAdd s.timeNowUtc ⟨nearThresholdSecs, 0⟩) s.farTimers s

/-- `timers_advance_clock`. -/
def timersAdvanceClock (allocated : Word → Bool) (s : Timers κ) (usecs : Word) : Timers κ :=
  timersUpdateFarTimers allocated
    { s with nearTimers := s.nearTimers.map fun nt => { nt with delay := nt.delay - usecs } }

/-- The clock's part of `ticks_irq_handler`: the time goes on, then the timers. -/
def clockTick (allocated : Word → Bool) (s : Timers κ) (usecs : Word) : Timers κ :=
  timersAdvanceClock allocated { s with timeNowUtc := timeAdd s.timeNowUtc ⟨0, usecs⟩ } usecs

/-- What scheduling a delay does to the near list. -/
theorem mem_timerScheduleDelay (allocated : Bool) (s : Timers κ) (usecs : Word) (callback : Option κ)
    (nt : NearTimer κ) :
    nt ∈ (timerScheduleDelay allocated s usecs callback).1.nearTimers ↔
      (allocated = true ∧ nt = ⟨(timerScheduleDelay allocated s usecs callback).2, usecs, callback⟩) ∨
        nt ∈ s.nearTimers := by
  unfold timerScheduleDelay timerScheduleDelayWithId
  cases allocated with
  | false => simp
  | true =>
    simp only [if_true, true_and]
    rw [List.mem_insertionSort, List.mem_cons]

/-- Scheduling a delay leaves the far list alone. -/
theorem timerScheduleDelay_far (allocated : Bool) (s : Timers κ) (usecs : Word)
    (callback : Option κ) :
    (timerScheduleDelay allocated s usecs callback).1.farTimers = s.farTimers := by
  cases allocated <;> rfl

/-- A cancellation only removes timers. -/
theorem timerCancel_subset (s : Timers κ) (id : Word) :
    (timerCancel s id).1.nearTimers ⊆ s.nearTimers ∧
      (timerCancel s id).1.farTimers ⊆ s.farTimers := by
  unfold timerCancel
  split
  · exact ⟨List.eraseP_subset, fun _ h => h⟩
  · split
    · exact ⟨fun _ h => h, List.eraseP_subset⟩
    · exact ⟨fun _ h => h, fun _ h => h⟩

/-- Cancelling the head of the near list removes the head. -/
theorem timerCancel_head {s : Timers κ} {nt : NearTimer κ} {rest : List (NearTimer κ)}
    (hnear : s.nearTimers = nt :: rest) :
    (timerCancel s nt.id).1 = { s with nearTimers := rest } := by
  unfold timerCancel
  rw [hnear, if_pos (by simp)]
  simp

/-- With no far timers a tick only counts the near timers down. -/
theorem clockTick_of_far_nil {s : Timers κ} (hfar : s.farTimers = []) (allocated : Word → Bool)
    (usecs : Word) :
    clockTick allocated s usecs =
      { s with
        timeNowUtc := timeAdd s.timeNowUtc ⟨0, usecs⟩
        nearTimers := s.nearTimers.map fun nt => { nt with delay := nt.delay - usecs } } := by
  unfold clockTick timersAdvanceClock timersUpdateFarTimers
  dsimp only
  rw [hfar]
  rfl

/-- A conversion removes the first far timer and leaves the identifiers and the clock alone. -/
theorem timersConvertFarToNear_keeps (allocated : Bool) (s : Timers κ) (ft : FarTimer κ) :
    (timersConvertFarToNear allocated s ft).farTimers = s.farTimers.tail ∧
      (timersConvertFarToNear allocated s ft).nextTimerId = s.nextTimerId ∧
      (timersConvertFarToNear allocated s ft).timeNowUtc = s.timeNowUtc := by
  unfold timersConvertFarToNear timerScheduleDelayWithId
  cases allocated <;> exact ⟨rfl, rfl, rfl⟩

/-- The loop over the far timers converts a timer within the threshold and goes on. -/
theorem updateFarTimersFrom_of_near {threshold : Timeval} {ft : FarTimer κ}
    (h : timeCmp ft.time threshold ≤ 0) (allocated : Word → Bool) (rest : List (FarTimer κ))
    (s : Timers κ) :
    updateFarTimersFrom allocated threshold (ft :: rest) s =
      updateFarTimersFrom allocated threshold rest
        (timersConvertFarToNear (allocated ft.id) s ft) :=
  if_pos h

/-- The loop over the far timers ends at the first that is beyond the threshold. -/
theorem updateFarTimersFrom_of_late {threshold : Timeval} {ft : FarTimer κ}
    (h : ¬ timeCmp ft.time threshold ≤ 0) (allocated : Word → Bool) (rest : List (FarTimer κ))
    (s : Timers κ) : updateFarTimersFrom allocated threshold (ft :: rest) s = s :=
  if_neg h

end Functions

/-- A delay that stays in range is counted down exactly. -/
theorem toInt_sub_toNat {delay usecs : Word} (h : -2 ^ 31 ≤ delay.toInt - usecs.toNat) :
    (delay - usecs).toInt = delay.toInt - usecs.toNat := by
  have hdelay := BitVec.toInt_eq_toNat_cond delay
  have hsub := BitVec.toInt_eq_toNat_cond (delay - usecs)
  rw [BitVec.toNat_sub] at hsub
  split at hdelay <;> split at hsub <;> omega

end ChrisOS.Kern
