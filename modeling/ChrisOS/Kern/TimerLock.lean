import ChrisOS.Kern.Timer
import ChrisOS.Kern.Spinlock

/-!
# The timer lock

The timer functions of `kern/timer.c` with the spinlock they take and the flags register. Each takes
the lock, does its work and gives the lock back with the flags from before; the work is that of
the functions without the lock. `timers_handle_near_timers` calls a callback and
`timer_cancel` with the lock held.

`timer_schedule_at` returns from the branch that has a timer without giving the lock back.
-/

namespace ChrisOS.Kern

open ChrisOS.Utils

/-- The timer variables, `_timer_lock` and the flags register. -/
structure TimerSystem (κ : Type*) where
  timers : Timers κ
  cpu : SpinlockCpu Unit

/-- The field `_timer_lock`. -/
def TimerSystem.timerLock {κ : Type*} (s : TimerSystem κ) : Spinlock := s.cpu.lock ()

section Functions

variable {κ β : Type*}

/-- `timers_lock`. -/
def timersLock (fuel : ℕ) (me : Word) (s : TimerSystem κ) : Option (Word × TimerSystem κ) :=
  (spinlockAcquire fuel me s.cpu ()).map fun result => (result.1, { s with cpu := result.2 })

/-- `timers_unlock`. -/
def timersUnlock (s : TimerSystem κ) (flags : Word) : Option (TimerSystem κ) :=
  (spinlockRelease s.cpu () flags).map fun cpu => { s with cpu := cpu }

/-- Work done between `timers_lock` and `timers_unlock`. -/
def underTimersLock (fuel : ℕ) (me : Word) (work : TimerSystem κ → Option (β × TimerSystem κ))
    (s : TimerSystem κ) : Option (β × TimerSystem κ) :=
  (timersLock fuel me s).bind fun locked =>
    (work locked.2).bind fun done =>
      (timersUnlock done.2 locked.1).map fun s => (done.1, s)

/-- Work that concerns the timers only. -/
def onTimers (work : Timers κ → β × Timers κ) (s : TimerSystem κ) : Option (β × TimerSystem κ) :=
  some ((work s.timers).1, { s with timers := (work s.timers).2 })

/-- `timer_schedule_at`: with a timer allocated it returns before the lock is given back. -/
def TimerSystem.timerScheduleAt (fuel : ℕ) (me : Word) (allocated : Bool) (time : Timeval)
    (callback : Option κ) (s : TimerSystem κ) : Option (Word × TimerSystem κ) :=
  (timersLock fuel me s).bind fun locked =>
    let result := Kern.timerScheduleAt allocated locked.2.timers time callback
    let s := { locked.2 with timers := result.1 }
    if allocated then some (result.2, s)
    else (timersUnlock s locked.1).map fun s => (result.2, s)

/-- `timer_schedule_delay`. -/
def TimerSystem.timerScheduleDelay (fuel : ℕ) (me : Word) (allocated : Bool) (useconds : Word)
    (callback : Option κ) : TimerSystem κ → Option (Word × TimerSystem κ) :=
  underTimersLock fuel me
    (onTimers fun s => (Kern.timerScheduleDelay allocated s useconds callback).swap)

/-- `timer_cancel`. -/
def TimerSystem.timerCancel (fuel : ℕ) (me : Word) (id : Word) :
    TimerSystem κ → Option (Bool × TimerSystem κ) :=
  underTimersLock fuel me (onTimers fun s => (Kern.timerCancel s id).swap)

/-- `timers_next_delay`. -/
def TimerSystem.timersNextDelay (fuel : ℕ) (me : Word) :
    TimerSystem κ → Option (Word × TimerSystem κ) :=
  underTimersLock fuel me (onTimers fun s => (Kern.timersNextDelay s, s))

/-- `timers_handle_near_timers`, with what invoking a callback does. -/
def TimerSystem.timersHandleNearTimers (fuel : ℕ) (me : Word)
    (invoke : Word → κ → TimerSystem κ → Option (TimerSystem κ)) :
    TimerSystem κ → Option (Bool × TimerSystem κ) :=
  underTimersLock fuel me fun s =>
    match s.timers.nearTimers with
    | timer :: _ =>
      if timer.delay.toInt ≤ 0 then
        let invoked := match timer.callback with
          | some callback => invoke timer.id callback s
          | none => some s
        invoked.bind fun s => (timerCancel fuel me timer.id s).map fun result => (true, result.2)
      else some (false, s)
    | [] => some (false, s)

/-- `timers_advance_clock`. -/
def TimerSystem.timersAdvanceClock (fuel : ℕ) (me : Word) (allocated : Word → Bool) (usecs : Word) :
    TimerSystem κ → Option (Unit × TimerSystem κ) :=
  underTimersLock fuel me (onTimers fun s => ((), Kern.timersAdvanceClock allocated s usecs))

end Functions

/-- The calls of the timer functions; whether memory is found is part of the call. -/
inductive LockedTimerCall (κ : Type*)
  | scheduleAt (allocated : Bool) (time : Timeval) (callback : Option κ)
  | scheduleDelay (allocated : Bool) (useconds : Word) (callback : Option κ)
  | cancel (id : Word)
  | nextDelay
  | handleNearTimers
  | advanceClock (allocated : Word → Bool) (usecs : Word)

section Balance

variable {κ β : Type*}

/-- The state in which a call returns. -/
def LockedTimerCall.perform (fuel : ℕ) (me : Word)
    (invoke : Word → κ → TimerSystem κ → Option (TimerSystem κ)) (s : TimerSystem κ) :
    LockedTimerCall κ → Option (TimerSystem κ)
  | .scheduleAt allocated time callback =>
    (s.timerScheduleAt fuel me allocated time callback).map Prod.snd
  | .scheduleDelay allocated useconds callback =>
    (s.timerScheduleDelay fuel me allocated useconds callback).map Prod.snd
  | .cancel id => (s.timerCancel fuel me id).map Prod.snd
  | .nextDelay => (s.timersNextDelay fuel me).map Prod.snd
  | .handleNearTimers => (s.timersHandleNearTimers fuel me invoke).map Prod.snd
  | .advanceClock allocated usecs => (s.timersAdvanceClock fuel me allocated usecs).map Prod.snd

/-- The lock and the interrupt flag are the same in two states. -/
structure Balanced (s s' : TimerSystem κ) : Prop where
  lock : s'.timerLock = s.timerLock
  interrupts : interruptsEnabled s'.cpu.eflags = interruptsEnabled s.cpu.eflags

/-- The lock has an owner exactly if its count is not zero. -/
def CountsOwner (s : TimerSystem κ) : Prop := s.timerLock.owner = 0 ↔ s.timerLock.nested = 0

/-- The call does not return from the branch of `timer_schedule_at` that has a timer. -/
def LockedTimerCall.Unlocks : LockedTimerCall κ → Prop
  | .scheduleAt allocated _ _ => allocated = false
  | _ => True

end Balance

/-- The loop of `spinlock_acquire` ends only on a free lock or on one's own. -/
theorem spinlockSpin_eq_some {me owner owner' : Word} {fuel : ℕ}
    (h : spinlockSpin me fuel owner = some owner') : (owner = 0 ∨ owner = me) ∧ owner' = me := by
  induction fuel generalizing owner with
  | zero => cases h
  | succ fuel ih =>
    rw [spinlockSpin] at h
    obtain ⟨hzero, hswap⟩ | ⟨hself, hswap⟩ | ⟨_, hself, hswap⟩ := syncValCompareAndSwap_owner owner me
    · refine ⟨Or.inl hzero, ?_⟩
      simp only [hswap] at h
      split at h
      · exact (ih h).2
      · exact (Option.some.inj h).symm
    · simp only [hswap, if_neg (not_not_intro hself)] at h
      exact ⟨Or.inr hself, (Option.some.inj h).symm.trans hself⟩
    · simp only [hswap, if_pos hself] at h
      exact ih h

section Balance

variable {κ β : Type*} {fuel : ℕ} {me flags : Word} {s s' : TimerSystem κ}

/-- What `timers_lock` leaves. -/
theorem timersLock_eq_some (h : timersLock fuel me s = some (flags, s')) :
    me ≠ 0 ∧ (s.timerLock.owner = 0 ∨ s.timerLock.owner = me) ∧ flags = s.cpu.eflags ∧
      s'.timerLock = ⟨me, s.timerLock.nested + 1⟩ ∧ interruptsEnabled s'.cpu.eflags = false := by
  obtain ⟨⟨flags', cpu⟩, hacquire, heq⟩ := Option.map_eq_some_iff.mp h
  cases heq
  rw [spinlockAcquire] at hacquire
  obtain ⟨hme, hspin⟩ := Option.ite_none_left_eq_some.mp hacquire
  obtain ⟨owner, howner, heq⟩ := Option.map_eq_some_iff.mp hspin
  obtain ⟨hfree, rfl⟩ := spinlockSpin_eq_some howner
  cases heq
  refine ⟨hme, hfree, rfl, ?_, interruptsEnabled_enterCli _⟩
  simp only [TimerSystem.timerLock, Function.update_self]

/-- What `timers_unlock` leaves. -/
theorem timersUnlock_eq_some (h : timersUnlock s flags = some s') :
    s'.cpu.eflags = flags ∧
      s'.timerLock = ⟨if s.timerLock.nested - 1 = 0 then 0 else s.timerLock.owner,
        s.timerLock.nested - 1⟩ := by
  obtain ⟨cpu, hrelease, rfl⟩ := Option.map_eq_some_iff.mp h
  rw [spinlockRelease] at hrelease
  obtain ⟨_, heq⟩ := Option.ite_none_left_eq_some.mp hrelease
  cases heq
  refine ⟨rfl, ?_⟩
  simp only [TimerSystem.timerLock, Function.update_self]
  rfl

/-- Work that leaves the lock as it finds it, done under the lock, is balanced. -/
theorem underTimersLock_balanced {work : TimerSystem κ → Option (β × TimerSystem κ)} {result : β}
    (hcounts : CountsOwner s)
    (hwork : ∀ locked result s', locked.timerLock = ⟨me, s.timerLock.nested + 1⟩ → me ≠ 0 →
      work locked = some (result, s') → Balanced locked s')
    (h : underTimersLock fuel me work s = some (result, s')) : Balanced s s' := by
  obtain ⟨⟨flags, locked⟩, hlock, h⟩ := Option.bind_eq_some_iff.mp h
  obtain ⟨⟨result', done⟩, hdone, h⟩ := Option.bind_eq_some_iff.mp h
  obtain ⟨released, hunlock, heq⟩ := Option.map_eq_some_iff.mp h
  cases heq
  obtain ⟨hme, howner, rfl, hlocked, _⟩ := timersLock_eq_some hlock
  obtain ⟨hflags, hreleased⟩ := timersUnlock_eq_some hunlock
  have hdoneLock := (hwork locked result' done hlocked hme hdone).lock.trans hlocked
  refine ⟨?_, by rw [hflags]⟩
  rw [hreleased, hdoneLock]
  have hnested : s.timerLock.nested + 1 - 1 = s.timerLock.nested := BitVec.add_sub_cancel _ _
  have howner' : (if s.timerLock.nested = 0 then 0 else me) = s.timerLock.owner := by
    by_cases hzero : s.timerLock.nested = 0
    · rw [if_pos hzero, hcounts.mpr hzero]
    · rw [if_neg hzero]
      exact (howner.resolve_left fun hfree => hzero (hcounts.mp hfree)).symm
  dsimp only
  rw [hnested, howner']

/-- Work on the timers leaves the lock alone. -/
theorem onTimers_balanced {work : Timers κ → β × Timers κ} {result : β}
    (h : onTimers work s = some (result, s')) : Balanced s s' := by
  cases h
  exact ⟨rfl, rfl⟩

/-- `timer_cancel` is balanced. -/
theorem timerCancel_balanced (hcounts : CountsOwner s) {id : Word} {result : Bool}
    (h : s.timerCancel fuel me id = some (result, s')) : Balanced s s' :=
  underTimersLock_balanced hcounts (fun _ _ _ _ _ hwork => onTimers_balanced hwork) h

/-- `timers_handle_near_timers` is balanced if the callbacks are: the lock is held once more while
`timer_cancel` takes it again. -/
theorem timersHandleNearTimers_balanced
    {invoke : Word → κ → TimerSystem κ → Option (TimerSystem κ)}
    (hinvoke : ∀ id callback s s', invoke id callback s = some s' → Balanced s s')
    (hcounts : CountsOwner s) (hroom : s.timerLock.nested.toNat + 1 < 2 ^ 32) {result : Bool}
    (h : s.timersHandleNearTimers fuel me invoke = some (result, s')) : Balanced s s' := by
  refine underTimersLock_balanced hcounts (fun locked result done hlock hme hwork => ?_) h
  have hunchanged : Balanced locked locked := ⟨rfl, rfl⟩
  split at hwork
  · next timer rest hnear =>
    split at hwork
    · obtain ⟨invoked, hcallback, hrest⟩ := Option.bind_eq_some_iff.mp hwork
      have hbalanced : Balanced locked invoked := by
        cases hcall : timer.callback with
        | none =>
          rw [hcall] at hcallback
          cases hcallback
          exact hunchanged
        | some callback =>
          rw [hcall] at hcallback
          exact hinvoke _ _ _ _ hcallback
      obtain ⟨⟨cancelled, canceller⟩, hcancel, heq⟩ := Option.map_eq_some_iff.mp hrest
      cases heq
      have hinvoked : CountsOwner invoked := by
        rw [CountsOwner, hbalanced.lock, hlock]
        refine iff_of_false hme fun hzero => ?_
        have := congrArg BitVec.toNat hzero
        dsimp only at this
        bv_omega
      have hdone := timerCancel_balanced hinvoked hcancel
      exact ⟨hdone.lock.trans hbalanced.lock, hdone.interrupts.trans hbalanced.interrupts⟩
    · cases hwork
      exact hunchanged
  · cases hwork
    exact hunchanged

/-- `timer_schedule_at` is balanced if there is no memory for the timer. -/
theorem timerScheduleAt_balanced (hcounts : CountsOwner s) {time : Timeval} {callback : Option κ}
    {result : Word} (h : s.timerScheduleAt fuel me false time callback = some (result, s')) :
    Balanced s s' := by
  change underTimersLock fuel me
    (onTimers fun s => (Kern.timerScheduleAt false s time callback).swap) s = _ at h
  exact underTimersLock_balanced hcounts (fun _ _ _ _ _ hwork => onTimers_balanced hwork) h

/-- `timer_schedule_at` with memory for the timer returns with the lock held. -/
theorem timerScheduleAt_keeps_lock {time : Timeval} {callback : Option κ} {result : Word}
    (h : s.timerScheduleAt fuel me true time callback = some (result, s')) :
    s'.timerLock = ⟨me, s.timerLock.nested + 1⟩ ∧ interruptsEnabled s'.cpu.eflags = false := by
  obtain ⟨⟨flags, locked⟩, hlock, h⟩ := Option.bind_eq_some_iff.mp h
  cases h
  exact (timersLock_eq_some hlock).2.2.2

end Balance

/-- Every call of a timer function that gives the lock back leaves the lock and the interrupt flag as
it found them, from every state in which the lock counts its owner, provided the callbacks do. A
call of `timer_schedule_at` that makes a timer returns with the lock held once more and interrupts
disabled. -/
theorem timer_calls_balanced {κ : Type*} {fuel : ℕ} {me : Word}
    {invoke : Word → κ → TimerSystem κ → Option (TimerSystem κ)}
    (hinvoke : ∀ id callback s s', invoke id callback s = some s' → Balanced s s')
    {s s' : TimerSystem κ} (hcounts : CountsOwner s) {call : LockedTimerCall κ}
    (hroom : call = .handleNearTimers → s.timerLock.nested.toNat + 1 < 2 ^ 32)
    (h : call.perform fuel me invoke s = some s') :
    (call.Unlocks → Balanced s s') ∧
      (¬ call.Unlocks → s'.timerLock = ⟨me, s.timerLock.nested + 1⟩ ∧
        interruptsEnabled s'.cpu.eflags = false) := by
  cases call with
  | scheduleAt allocated time callback =>
    obtain ⟨⟨result, done⟩, hcall, rfl⟩ := Option.map_eq_some_iff.mp h
    refine ⟨fun hunlocks => ?_, fun hkeeps => ?_⟩
    · obtain rfl : allocated = false := hunlocks
      exact timerScheduleAt_balanced hcounts hcall
    · obtain rfl : allocated = true := Bool.not_eq_false _ ▸ hkeeps
      exact timerScheduleAt_keeps_lock hcall
  | scheduleDelay allocated useconds callback =>
    obtain ⟨⟨result, done⟩, hcall, rfl⟩ := Option.map_eq_some_iff.mp h
    refine ⟨fun _ => ?_, fun hkeeps => absurd trivial hkeeps⟩
    exact underTimersLock_balanced hcounts (fun _ _ _ _ _ hwork => onTimers_balanced hwork) hcall
  | cancel id =>
    obtain ⟨⟨result, done⟩, hcall, rfl⟩ := Option.map_eq_some_iff.mp h
    exact ⟨fun _ => timerCancel_balanced hcounts hcall, fun hkeeps => absurd trivial hkeeps⟩
  | nextDelay =>
    obtain ⟨⟨result, done⟩, hcall, rfl⟩ := Option.map_eq_some_iff.mp h
    refine ⟨fun _ => ?_, fun hkeeps => absurd trivial hkeeps⟩
    exact underTimersLock_balanced hcounts (fun _ _ _ _ _ hwork => onTimers_balanced hwork) hcall
  | handleNearTimers =>
    obtain ⟨⟨result, done⟩, hcall, rfl⟩ := Option.map_eq_some_iff.mp h
    refine ⟨fun _ => ?_, fun hkeeps => absurd trivial hkeeps⟩
    exact timersHandleNearTimers_balanced hinvoke hcounts (hroom rfl) hcall
  | advanceClock allocated usecs =>
    obtain ⟨⟨result, done⟩, hcall, rfl⟩ := Option.map_eq_some_iff.mp h
    refine ⟨fun _ => ?_, fun hkeeps => absurd trivial hkeeps⟩
    exact underTimersLock_balanced hcounts (fun _ _ _ _ _ hwork => onTimers_balanced hwork) hcall

/-- One timer that is due, the lock free and interrupts enabled. -/
def dueTimers : TimerSystem Unit :=
  ⟨⟨0, [], [⟨1, 0, some ()⟩], ⟨0, 0⟩⟩, ⟨0x202, fun _ => spinlockInit⟩⟩

/-- A due timer handled with the lock free and interrupts enabled: the callback runs, the timer is
cancelled under the lock taken twice, and the lock is free again. -/
theorem timer_calls_balanced_due :
    ∃ s', LockedTimerCall.perform 2 1 (fun _ _ s => some s) dueTimers .handleNearTimers = some s' ∧
      s'.timers.nearTimers.length = 0 ∧ Balanced dueTimers s' := by
  let s' := (LockedTimerCall.perform 2 1 (fun _ _ s => some s) dueTimers .handleNearTimers).get (by decide)
  have hrun : LockedTimerCall.perform 2 1 (fun _ _ s => some s) dueTimers .handleNearTimers = some s' :=
    (Option.some_get _).symm
  refine ⟨s', hrun, by decide, (timer_calls_balanced ?_ ?_ (fun _ => by decide) hrun).1 trivial⟩
  · intro id callback s s' h
    cases h
    exact ⟨rfl, rfl⟩
  · exact iff_of_true rfl rfl

/-- A timer scheduled for a time, with the lock free and interrupts enabled: the call returns with the
lock owned by the caller and interrupts disabled. -/
theorem timerScheduleAt_unbalanced :
    ∃ s', LockedTimerCall.perform 2 1 (fun _ _ s => some s) dueTimers (.scheduleAt true ⟨100, 0⟩ none) =
        some s' ∧
      dueTimers.timerLock = ⟨0, 0⟩ ∧ interruptsEnabled dueTimers.cpu.eflags = true ∧
      s'.timerLock = ⟨1, 1⟩ ∧ interruptsEnabled s'.cpu.eflags = false :=
  ⟨_, rfl, by decide, by decide, by decide, by decide⟩

end ChrisOS.Kern
