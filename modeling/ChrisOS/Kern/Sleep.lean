import ChrisOS.Kern.SchedulerLive
import ChrisOS.Kern.TimerOrder
import Mathlib.Data.Finset.Insert

/-!
# Timed sleep

`current_thread_sleep_usecs` of `kern/thread.c` on the scheduler and the timers, with the timer
thread and the clock's part of the tick interrupt. A thread schedules a timer whose callback
wakes it and then blocks itself; the timer thread invokes callbacks whose delay is over and
sleeps in between.

Each thread has a program counter. Only the current thread executes statements. The calls that
run under the timer lock, callbacks included, or under the scheduler lock are one step; between
any two steps the tick interrupt may come and the current thread may be switched.
-/

namespace ChrisOS.Kern

open ChrisOS.Utils

/-- Where a thread is: outside the functions of this module or before one of their statements. -/
inductive SleepPc
  | idle
  /-- `current_thread_sleep_usecs`: the call of `timer_schedule_delay`. -/
  | schedule (usecs : Word)
  /-- `current_thread_sleep_usecs`: the store of the identifier that was returned. -/
  | store (id : Word)
  /-- `current_thread_sleep`: the call of `scheduler_make_blocked`. -/
  | block
  /-- `current_thread_sleep`: the call of `scheduler_yield`. -/
  | yield
  /-- `current_thread_sleep_usecs` after the sleep: the test of the identifier. -/
  | test
  /-- `current_thread_sleep_usecs`: the call of `timer_cancel`. -/
  | cancel
  /-- `current_thread_sleep_usecs`: the identifier is set to zero. -/
  | clear
  /-- `timer_thread`: the call of `timers_handle_near_timers`. -/
  | handle
deriving DecidableEq, Repr

/-- The scheduler with the threads added to it, the timers and the threads' fields. The callback of
a timer is `thread_wake_timer_callback` with a thread as its data. -/
structure SleepKernel (τ : Type*) where
  sched : Scheduler τ
  added : Finset τ
  timers : Timers τ
  timedSleepTimerId : τ → Word
  pc : τ → SleepPc

section Functions

variable {τ : Type*} [DecidableEq τ]

/-- Move a thread's program counter. -/
def SleepKernel.goto (k : SleepKernel τ) (t : τ) (pc : SleepPc) : SleepKernel τ :=
  { k with pc := Function.update k.pc t pc }

/-- Write a thread's `timed_sleep_timer_id`. -/
def SleepKernel.setTimerId (k : SleepKernel τ) (t : τ) (id : Word) : SleepKernel τ :=
  { k with timedSleepTimerId := Function.update k.timedSleepTimerId t id }

/-- `thread_wake_timer_callback`. -/
def SleepKernel.threadWakeTimerCallback (k : SleepKernel τ) (t : τ) : Option (SleepKernel τ) :=
  let k := k.setTimerId t 0
  (schedulerMakeRunnable k.sched t).map fun sched => { k with sched := sched }

/-- Invoke a timer's callback, if it has one. -/
def SleepKernel.invoke (k : SleepKernel τ) : Option τ → Option (SleepKernel τ)
  | some t => k.threadWakeTimerCallback t
  | none => some k

/-- `timers_handle_near_timers`, with the callback. -/
def SleepKernel.handleNearTimers (k : SleepKernel τ) : Option (SleepKernel τ × Bool) :=
  match k.timers.nearTimers with
  | timer :: _ =>
    if timer.delay.toInt ≤ 0 then
      (k.invoke timer.callback).map fun k =>
        ({ k with timers := (timerCancel k.timers timer.id).1 }, true)
    else some (k, false)
  | [] => some (k, false)

/-- The clock's part of `ticks_irq_handler`: the timer thread is woken when a timer is due. -/
def SleepKernel.ticksIrqHandler (timerThread : τ) (k : SleepKernel τ) (allocated : Word → Bool)
    (usecs : Word) : Option (SleepKernel τ) :=
  let k := { k with timers := clockTick allocated k.timers usecs }
  if timersNextDelay k.timers = 0 then
    (schedulerMakeRunnable k.sched timerThread).map fun sched => { k with sched := sched }
  else some k

/-- Execute a thread's next statement; `ticks` is what `ticks_since_boot` returns in a switch and
`allocated` whether there is memory for a timer. -/
def SleepKernel.exec (timerThread : τ) (k : SleepKernel τ) (t : τ) (ticks : Word)
    (allocated : Bool) : Option (SleepKernel τ) :=
  match k.pc t with
  | .idle => none
  | .schedule usecs =>
    let result := timerScheduleDelay allocated k.timers usecs (some t)
    some (SleepKernel.goto { k with timers := result.1 } t (.store result.2))
  | .store id => some ((k.setTimerId t id).goto t .block)
  | .block => (schedulerMakeBlocked k.sched t).map fun sched =>
    SleepKernel.goto { k with sched := sched } t .yield
  | .yield => (schedulerYield k.sched ticks).map fun sched =>
    SleepKernel.goto { k with sched := sched } t (if t = timerThread then .handle else .test)
  | .test => some (k.goto t (if k.timedSleepTimerId t ≠ 0 then .cancel else .idle))
  | .cancel =>
    some (SleepKernel.goto
      { k with timers := (timerCancel k.timers (k.timedSleepTimerId t)).1 } t .clear)
  | .clear => some ((k.setTimerId t 0).goto t .idle)
  | .handle => k.handleNearTimers.map fun result =>
    if result.2 then result.1 else result.1.goto t .block

/-- What happens next. -/
inductive SleepAct (τ : Type*)
  /-- A created thread is added. -/
  | add (t : τ)
  /-- The current thread is switched. -/
  | preempt (ticks : Word)
  /-- A tick interrupt. -/
  | tick (allocated : Word → Bool) (usecs : Word)
  /-- The current thread calls `current_thread_sleep_usecs`. -/
  | sleep (usecs : Word)
  /-- The current thread executes its next statement. -/
  | exec (ticks : Word) (allocated : Bool)

/-- Perform an act. Threads act once they are added, and ticks come once the timer thread is. -/
def SleepKernel.perform (timerThread : τ) (k : SleepKernel τ) : SleepAct τ → Option (SleepKernel τ)
  | .add t =>
    if k.sched.state t = .created ∧ t ∉ k.added then
      (schedulerAddThread k.sched t).map fun sched =>
        { k with sched := sched, added := insert t k.added }
    else none
  | .preempt ticks => (schedulerYield k.sched ticks).map fun sched => { k with sched := sched }
  | .tick allocated usecs =>
    if timerThread ∈ k.added then k.ticksIrqHandler timerThread allocated usecs else none
  | .sleep usecs => k.sched.current.bind fun t =>
    if t ∈ k.added ∧ k.pc t = .idle then some (k.goto t (.schedule usecs)) else none
  | .exec ticks allocated => k.sched.current.bind fun t =>
    if t ∈ k.added then k.exec timerThread t ticks allocated else none

/-- One step, restricted by `may`. -/
def SleepStep (timerThread : τ) (may : SleepKernel τ → SleepAct τ → Bool)
    (k k' : SleepKernel τ) : Prop :=
  ∃ act, may k act = true ∧ k.perform timerThread act = some k'

/-- No threads added and no timers yet; the timer thread begins with its loop. -/
def SleepKernel.initial (timerThread : τ) (s : Scheduler τ) (utc : Timeval) : SleepKernel τ where
  sched := s
  added := ∅
  timers := Timers.initial utc
  timedSleepTimerId := fun _ => 0
  pc := fun t => if t = timerThread then .handle else .idle

/-- The states of runs. -/
def SleepReachable (timerThread : τ) (may : SleepKernel τ → SleepAct τ → Bool) (k : SleepKernel τ) :
    Prop :=
  ∃ s utc, KernelInit s ∧
    Relation.ReflTransGen (SleepStep timerThread may) (.initial timerThread s utc) k

/-- Perform a schedule of acts, or fail at the first that is not a step. -/
def SleepKernel.performAll (timerThread : τ) (may : SleepKernel τ → SleepAct τ → Bool) :
    SleepKernel τ → List (SleepAct τ) → Option (SleepKernel τ)
  | k, [] => some k
  | k, act :: rest =>
    if may k act then (k.perform timerThread act).bind (performAll timerThread may · rest) else none

/-- A schedule that does not fail is a run. -/
theorem SleepKernel.performAll_run {timerThread : τ} {may : SleepKernel τ → SleepAct τ → Bool}
    {k k' : SleepKernel τ} {acts : List (SleepAct τ)}
    (h : k.performAll timerThread may acts = some k') :
    Relation.ReflTransGen (SleepStep timerThread may) k k' := by
  induction acts generalizing k with
  | nil =>
    cases h
    exact .refl
  | cons act rest ih =>
    obtain ⟨hmay, hbind⟩ := Option.ite_none_right_eq_some.mp h
    obtain ⟨k₁, hact, hrest⟩ := Option.bind_eq_some_iff.mp hbind
    exact .head ⟨act, hmay, hact⟩ (ih hrest)

/-- The callback does not touch the timers. -/
theorem SleepKernel.invoke_timers {k k' : SleepKernel τ} {callback : Option τ}
    (h : k.invoke callback = some k') : k'.timers = k.timers := by
  cases callback with
  | none =>
    cases h
    rfl
  | some t =>
    obtain ⟨_, _, rfl⟩ := Option.map_eq_some_iff.mp h
    rfl

end Functions

end ChrisOS.Kern
