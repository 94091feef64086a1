import ChrisOS.Kern.Timer
import Mathlib.Data.Set.Basic
import Mathlib.Logic.Relation

/-!
# Timers over whole runs

A run schedules and cancels timers, lets the clock tick and handles near timers, whose
callbacks may schedule and cancel timers in turn. A log records when each timer was scheduled,
when its callback was invoked and which cancellations returned true; what the timers promise
is a property of the log.
-/

namespace ChrisOS.Kern

open ChrisOS.Utils

/-- When a timer is due: a delay after the moment it was scheduled, or at a time. -/
inductive Due
  | delay (usecs : ℤ) (since : ℕ)
  | time (usecs : ℤ)
deriving DecidableEq, Repr

/-- The timer is due when the ticks since boot add up to `elapsed` and the clock shows `utc`. -/
def Due.Reached : Due → ℕ → ℤ → Prop
  | .delay usecs since, elapsed, _ => since + usecs ≤ elapsed
  | .time usecs, _, utc => usecs ≤ utc

/-- What happens to timers, by identifier. An invocation notes both clocks. -/
inductive TimerEvent
  | scheduled (id : Word) (due : Due)
  | invoked (id : Word) (elapsed : ℕ) (utc : ℤ)
  | cancelled (id : Word)
deriving DecidableEq, Repr

/-- Each callback is invoked at most once, for a scheduled timer, not before it is due, and not
after a cancellation. -/
structure TimerContract (log : List TimerEvent) : Prop where
  once : log.Pairwise fun a b => ∀ id e u e' u', a = .invoked id e u → b ≠ .invoked id e' u'
  known : ∀ id e u, .invoked id e u ∈ log → ∃ due, .scheduled id due ∈ log
  notEarly : ∀ id e u due, .invoked id e u ∈ log → .scheduled id due ∈ log → due.Reached e u
  notCancelled : log.Pairwise fun a b => ∀ id e u, a = .cancelled id → b ≠ .invoked id e u

/-- A timer whose callback was not invoked and which was not cancelled. -/
def Untouched (id : Word) (log : List TimerEvent) : Prop :=
  (∀ e u, .invoked id e u ∉ log) ∧ .cancelled id ∉ log

theorem TimerContract.nil : TimerContract [] where
  once := .nil
  known := fun _ _ _ h => by cases h
  notEarly := fun _ _ _ _ h => by cases h
  notCancelled := .nil

variable {log : List TimerEvent}

/-- An event of the longer log that is not the last one was there before. -/
theorem mem_of_mem_append {event last : TimerEvent} (h : event ∈ log ++ [last]) (hne : event ≠ last) :
    event ∈ log :=
  (List.mem_append.mp h).resolve_right fun hlast => hne (List.mem_singleton.mp hlast)

/-- An event that is not an invocation is in order after any others. -/
theorem TimerContract.append (h : TimerContract log) {event : TimerEvent}
    (hevent : ∀ id e u, event ≠ .invoked id e u)
    (hnew : ∀ id e u due, event = .scheduled id due → .invoked id e u ∉ log) :
    TimerContract (log ++ [event]) := by
  have hold : ∀ id e u, .invoked id e u ∈ log ++ [event] → .invoked id e u ∈ log :=
    fun id e u hmem => mem_of_mem_append hmem (hevent id e u).symm
  refine ⟨?_, fun id e u hmem => ?_, fun id e u due hmem hdue => ?_, ?_⟩
  · refine List.pairwise_append.mpr ⟨h.once, List.pairwise_singleton _ _, fun a _ b hb => ?_⟩
    intro id e u e' u' _
    exact List.mem_singleton.mp hb ▸ hevent id e' u'
  · obtain ⟨due, hdue⟩ := h.known id e u (hold id e u hmem)
    exact ⟨due, List.mem_append_left _ hdue⟩
  · rcases List.mem_append.mp hdue with hdue | hdue
    · exact h.notEarly id e u due (hold id e u hmem) hdue
    · exact absurd (hold id e u hmem) (hnew id e u due (List.mem_singleton.mp hdue).symm)
  · refine List.pairwise_append.mpr ⟨h.notCancelled, List.pairwise_singleton _ _, fun a _ b hb => ?_⟩
    intro id e u _
    exact List.mem_singleton.mp hb ▸ hevent id e u

/-- The invocation of an untouched timer that is due. -/
theorem TimerContract.invoke (h : TimerContract log) {id : Word} {e : ℕ} {u : ℤ}
    (huntouched : Untouched id log) (hknown : ∃ due, .scheduled id due ∈ log)
    (hdue : ∀ due, .scheduled id due ∈ log → due.Reached e u) :
    TimerContract (log ++ [.invoked id e u]) := by
  have hsched : ∀ id' due, .scheduled id' due ∈ log ++ [.invoked id e u] →
      .scheduled id' due ∈ log := fun id' due hmem => mem_of_mem_append hmem (by simp)
  refine ⟨?_, fun id' e' u' hmem => ?_, fun id' e' u' due hmem hmem' => ?_, ?_⟩
  · refine List.pairwise_append.mpr ⟨h.once, List.pairwise_singleton _ _, fun a ha b hb => ?_⟩
    intro id' e' u' e'' u'' heq heq'
    cases (List.mem_singleton.mp hb).symm.trans heq'
    exact huntouched.1 e' u' (heq ▸ ha)
  · rcases List.mem_append.mp hmem with hmem | hmem
    · obtain ⟨due, hmem⟩ := h.known id' e' u' hmem
      exact ⟨due, List.mem_append_left _ hmem⟩
    · cases List.mem_singleton.mp hmem
      obtain ⟨due, hmem⟩ := hknown
      exact ⟨due, List.mem_append_left _ hmem⟩
  · rcases List.mem_append.mp hmem with hmem | hmem
    · exact h.notEarly id' e' u' due hmem (hsched id' due hmem')
    · cases List.mem_singleton.mp hmem
      exact hdue due (hsched id due hmem')
  · refine List.pairwise_append.mpr ⟨h.notCancelled, List.pairwise_singleton _ _, fun a ha b hb => ?_⟩
    intro id' e' u' heq heq'
    cases (List.mem_singleton.mp hb).symm.trans heq'
    exact huntouched.2 (heq ▸ ha)

/-- The timers with the ticks so far, the identifiers handed out and the log. -/
structure TimerRun (κ : Type*) where
  timers : Timers κ
  elapsed : ℕ
  issued : ℕ
  log : List TimerEvent

/-- A call from anywhere, also from a callback; an allocation may fail. -/
inductive TimerCall (κ : Type*)
  | scheduleDelay (allocated : Bool) (useconds : Word) (callback : Option κ)
  | scheduleAt (allocated : Bool) (time : Timeval) (callback : Option κ)
  | cancel (id : Word)

/-- Absolute times have their microseconds within a second. -/
def TimerCall.Legal {κ : Type*} : TimerCall κ → Prop
  | .scheduleAt _ time _ => time.Normal
  | .scheduleDelay .. => True
  | .cancel _ => True

section Runs

variable {κ : Type*}

/-- Make a call and log a timer created or cancelled. -/
def TimerRun.call (r : TimerRun κ) : TimerCall κ → TimerRun κ
  | .scheduleDelay allocated useconds callback =>
    let result := timerScheduleDelay allocated r.timers useconds callback
    { r with
      timers := result.1
      issued := r.issued + 1
      log := if allocated then
          r.log ++ [.scheduled result.2 (.delay useconds.toInt r.elapsed)]
        else r.log }
  | .scheduleAt allocated time callback =>
    let result := timerScheduleAt allocated r.timers time callback
    { r with
      timers := result.1
      issued := if allocated then r.issued + 1 else r.issued
      log := if allocated then r.log ++ [.scheduled result.2 (.time time.usecs)] else r.log }
  | .cancel id =>
    let result := timerCancel r.timers id
    { r with
      timers := result.1
      log := if result.2 then r.log ++ [.cancelled id] else r.log }

/-- Log an invocation. -/
def TimerRun.invoke (r : TimerRun κ) (id : Word) : TimerRun κ :=
  { r with log := r.log ++ [.invoked id r.elapsed r.timers.timeNowUtc.usecs] }

/-- Handle near timers, where a callback that is invoked makes the given calls. -/
def TimerRun.handle (r : TimerRun κ) (calls : List (TimerCall κ)) : TimerRun κ :=
  match r.timers.nearTimers with
  | timer :: _ =>
    if timer.delay.toInt ≤ 0 then
      let r := match timer.callback with
        | some _ => calls.foldl TimerRun.call (r.invoke timer.id)
        | none => r
      r.call (.cancel timer.id)
    else r
  | [] => r

/-- One clock tick. -/
def TimerRun.tick (r : TimerRun κ) (allocated : Word → Bool) (usecs : Word) : TimerRun κ :=
  { r with timers := clockTick allocated r.timers usecs, elapsed := r.elapsed + usecs.toNat }

/-- The clock comes out as the time plus the tick, and no delay goes below the least `long`. -/
def TickFits (s : Timers κ) (usecs : Word) : Prop :=
  (timeAdd s.timeNowUtc ⟨0, usecs⟩).usecs = s.timeNowUtc.usecs + usecs.toNat ∧
    ∀ nt ∈ s.nearTimers, -2 ^ 31 ≤ nt.delay.toInt - usecs.toNat

/-- One step of a run. -/
inductive TimerStep : TimerRun κ → TimerRun κ → Prop
  | call (r : TimerRun κ) (c : TimerCall κ) (hlegal : c.Legal) : TimerStep r (r.call c)
  | tick (r : TimerRun κ) (allocated : Word → Bool) (usecs : Word) (hfits : TickFits r.timers usecs) :
      TimerStep r (r.tick allocated usecs)
  | handle (r : TimerRun κ) (calls : List (TimerCall κ)) (hlegal : ∀ c ∈ calls, c.Legal) :
      TimerStep r (r.handle calls)

/-- No timers yet, at some time. -/
def TimerRun.initial (utc : Timeval) : TimerRun κ := ⟨⟨0, [], [], utc⟩, 0, 0, []⟩

/-- The states of runs that begin at a given time. -/
def TimerReachable (utc : Timeval) (r : TimerRun κ) : Prop :=
  Relation.ReflTransGen TimerStep (TimerRun.initial utc) r

/-- What a call does to the timers. -/
def TimerCall.run (s : Timers κ) : TimerCall κ → Timers κ
  | .scheduleDelay allocated useconds callback => (timerScheduleDelay allocated s useconds callback).1
  | .scheduleAt allocated time callback => (timerScheduleAt allocated s time callback).1
  | .cancel id => (timerCancel s id).1

theorem TimerRun.call_timers (r : TimerRun κ) (c : TimerCall κ) :
    (r.call c).timers = TimerCall.run r.timers c := by
  cases c <;> rfl

theorem TimerRun.foldl_call_timers (r : TimerRun κ) (calls : List (TimerCall κ)) :
    (calls.foldl TimerRun.call r).timers = calls.foldl TimerCall.run r.timers := by
  induction calls generalizing r with
  | nil => rfl
  | cons c rest ih => rw [List.foldl_cons, List.foldl_cons, ih, TimerRun.call_timers]

/-- Handling in a run is `timers_handle_near_timers` with a callback that makes the calls. -/
theorem TimerRun.handle_timers (r : TimerRun κ) (calls : List (TimerCall κ)) :
    (r.handle calls).timers =
      (timersHandleNearTimers (fun _ _ s => calls.foldl TimerCall.run s) r.timers).1 := by
  unfold TimerRun.handle timersHandleNearTimers
  cases r.timers.nearTimers with
  | nil => rfl
  | cons timer _ =>
    dsimp only
    split
    · cases timer.callback with
      | none => rfl
      | some _ =>
        rw [TimerRun.call_timers, TimerRun.foldl_call_timers]
        rfl
    · rfl

end Runs

end ChrisOS.Kern
