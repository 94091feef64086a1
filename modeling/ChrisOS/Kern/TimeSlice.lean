import ChrisOS.Kern.SchedulerRun

/-!
# When a time slice ends

`scheduler_next_thread` charges the ticks since its last call to the running thread and asks whether
anything is left. Slice and ticks are unsigned, so the question is whether the difference is not zero:
a thread that has used exactly its slice loses the processor, one that has used more of it than it
had keeps it, with a slice of almost `2 ^ 32` ticks.
-/

namespace ChrisOS.Kern

open ChrisOS.Utils ChrisOS.Lib

variable {τ : Type*} [DecidableEq τ]

/-- The ticks since the previous call, modulo `2 ^ 32`. -/
def Scheduler.elapsedTicks (s : Scheduler τ) (ticks : Word) : Word := ticks - s.lastScheduledTimeTicks

/-- The scheduler after the elapsed ticks have been charged to a thread, and nothing else. -/
def Scheduler.charge (s : Scheduler τ) (old : τ) (ticks : Word) : Scheduler τ :=
  { s with
    lastScheduledTimeTicks := ticks
    timeSlice := Function.update s.timeSlice old (s.timeSlice old - s.elapsedTicks ticks) }

section Running

variable {s : Scheduler τ} {old : τ} {ticks : Word}

/-- `scheduler_next_thread` while a thread is running. -/
theorem schedulerNextThread_running (hcurrent : s.current = some old)
    (hrunning : s.state old = .running) :
    schedulerNextThread s ticks =
      if s.elapsedTicks ticks = s.timeSlice old then
        pickNextThread ((s.charge old ticks).setState old .runnable)
      else some (old, s.charge old ticks) := by
  have hleft : (s.charge old ticks).timeSlice old > 0 ↔ ¬ s.elapsedTicks ticks = s.timeSlice old := by
    have hself : (s.charge old ticks).timeSlice old = s.timeSlice old - s.elapsedTicks ticks :=
      Function.update_self ..
    rw [hself]
    bv_omega
  rw [schedulerNextThread]
  split
  · rename_i first hfirst
    obtain rfl : first = old := Option.some.inj (hfirst.symm.trans hcurrent)
    change (if s.state first = ThreadState.running then
        if (s.charge first ticks).timeSlice first > 0 then some (first, s.charge first ticks)
        else pickNextThread ((s.charge first ticks).setState first .runnable)
      else pickNextThread (s.charge first ticks)) = _
    rw [if_pos hrunning]
    by_cases hspent : s.elapsedTicks ticks = s.timeSlice first
    · rw [if_pos hspent, if_neg (fun h => hleft.mp h hspent)]
    · rw [if_neg hspent, if_pos (hleft.mpr hspent)]
  · rename_i hnone
    exact absurd (hnone.symm.trans hcurrent) (Option.some_ne_none old).symm

/-- The thread that is picked is the head of the runnable list, with a new slice. -/
theorem pickNextThread_eq_some {s' : Scheduler τ} {next : τ}
    (h : pickNextThread s = some (next, s')) :
    s.head .runnable = some next ∧ s'.timeSlice next = timeSliceTicks := by
  unfold pickNextThread at h
  cases hhead : s.head .runnable with
  | none =>
    rw [hhead] at h
    cases h
  | some first =>
    simp only [hhead, Option.bind_eq_bind, Option.bind_eq_some_iff] at h
    obtain ⟨s₁, hremove, s₂, hadd, hpick⟩ := h
    cases hpick
    refine ⟨rfl, ?_⟩
    unfold schedulerAddRunnableThread linkThread at hadd
    split at hadd
    · cases hadd
    · obtain ⟨_, _, rfl⟩ := Option.map_eq_some_iff.mp hadd
      exact Function.update_self ..

/-- The running thread is kept, and nothing is done but charging it, exactly when the elapsed ticks
are not the slice. -/
theorem schedulerNextThread_keeps_iff (hcurrent : s.current = some old)
    (hrunning : s.state old = .running) :
    schedulerNextThread s ticks = some (old, s.charge old ticks) ↔
      s.elapsedTicks ticks ≠ s.timeSlice old := by
  rw [schedulerNextThread_running hcurrent hrunning]
  by_cases hspent : s.elapsedTicks ticks = s.timeSlice old
  · rw [if_pos hspent]
    refine iff_of_false (fun hpick => ?_) (not_not_intro hspent)
    have hzero : (s.charge old ticks).timeSlice old = 0 := by
      change Function.update _ _ _ _ = _
      rw [Function.update_self, hspent]
      exact BitVec.sub_self _
    have hnew := (pickNextThread_eq_some hpick).2
    rw [hzero] at hnew
    exact absurd hnew (by decide)
  · rw [if_neg hspent]
    exact iff_of_true rfl hspent

/-- The slice ends when it should: the running thread keeps the processor exactly when fewer ticks have
elapsed than it has left, and otherwise the head of the runnable list is taken and moved to the back. -/
structure Scheduler.Expires (s : Scheduler τ) (old : τ) (ticks : Word) : Prop where
  keeps : schedulerNextThread s ticks = some (old, s.charge old ticks) ↔
    s.elapsedTicks ticks < s.timeSlice old
  takes : s.timeSlice old ≤ s.elapsedTicks ticks →
    ∀ next s', schedulerNextThread s ticks = some (next, s') → s.head .runnable = some next
  rotates : s.timeSlice old ≤ s.elapsedTicks ticks →
    ∀ (l : Queue → List τ) (next : τ) (rest : List τ), DLists s.links s.head l →
      l .runnable = next :: rest → ∃ s', schedulerNextThread s ticks = some (next, s') ∧
        DLists s'.links s'.head (Function.update l .runnable (rest ++ [next]))

/-- The slice of a running thread ends when it should exactly if no more ticks have elapsed than it has
left. -/
theorem schedulerNextThread_expires (hcurrent : s.current = some old)
    (hrunning : s.state old = .running) :
    s.Expires old ticks ↔ s.elapsedTicks ticks ≤ s.timeSlice old := by
  have hkeeps : schedulerNextThread s ticks = some (old, s.charge old ticks) ↔
      s.elapsedTicks ticks ≠ s.timeSlice old := schedulerNextThread_keeps_iff hcurrent hrunning
  constructor
  · intro h
    have hkept := hkeeps.symm.trans h.keeps
    bv_omega
  · intro hticks
    have hpicks : s.timeSlice old ≤ s.elapsedTicks ticks → schedulerNextThread s ticks =
        pickNextThread ((s.charge old ticks).setState old .runnable) := fun hspent => by
      rw [schedulerNextThread_running hcurrent hrunning, if_pos (BitVec.le_antisymm hticks hspent)]
    refine ⟨hkeeps.trans (by bv_omega), fun hspent next s' hpick => ?_,
      fun hspent l next rest hl hrunnable => ?_⟩
    · rw [hpicks hspent] at hpick
      exact (pickNextThread_eq_some hpick).1
    · rw [hpicks hspent]
      obtain ⟨s', hpick, _, _, hlists⟩ := pickNextThread_spec
        (s := (s.charge old ticks).setState old .runnable) hl hrunnable
      exact ⟨s', hpick, hlists⟩

end Running

/-- The first of two threads has used its one tick and the other is taken. -/
theorem schedulerNextThread_expires_two :
    ∃ s', schedulerNextThread twoThreads.sched 6 = some (true, s') := by
  have hcurrent : twoThreads.sched.current = some false := by decide
  have hticks : twoThreads.sched.elapsedTicks 6 ≤ twoThreads.sched.timeSlice false := by decide
  have hexpires := (schedulerNextThread_expires hcurrent (by decide)).mpr hticks
  have hnext : (schedulerNextThread twoThreads.sched 6).isSome := by decide
  obtain ⟨⟨next, s'⟩, hpick⟩ := Option.isSome_iff_exists.mp hnext
  have hhead := hexpires.takes (by decide) next s' hpick
  have hother : twoThreads.sched.head .runnable = some true := by decide
  obtain rfl := Option.some.inj (hhead.symm.trans hother)
  exact ⟨s', hpick⟩

/-- Two ticks after the first of two threads was scheduled for one tick, with the other at the head
of the runnable list, the first keeps the processor and has `2 ^ 32 - 1` ticks left. -/
theorem schedulerNextThread_overrun_keeps :
    ∃ r : SchedRun Bool, SchedReachable (fun _ _ => False) Scheduler.zeroed r ∧
      r.sched.current = some false ∧ r.sched.state false = .running ∧
      r.sched.timeSlice false = 1 ∧ r.sched.elapsedTicks 7 = 2 ∧
      r.sched.head .runnable = some true ∧
      schedulerNextThread r.sched 7 = some (false, r.sched.charge false 7) ∧
      (r.sched.charge false 7).timeSlice false = 0xFFFFFFFF := by
  refine ⟨twoThreads, twoThreads_reachable _, by decide, by decide, by decide, by decide, by decide,
    ?_, by decide⟩
  rw [schedulerNextThread_keeps_iff (by decide) (by decide)]
  decide

end ChrisOS.Kern
