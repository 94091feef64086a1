import ChrisOS.Kern.Sleep

/-!
# Wake-ups that come too early

The wake-up of a timed sleep is `scheduler_make_runnable`, which does nothing to a thread that
is not blocked yet. Scheduling the timer and blocking are separate statements, so the timer may
fire in between, and the thread then sleeps without a timer for ever. The same happens if there
is no memory for the timer. Otherwise, when every timer fires only after its thread is blocked,
a thread that sleeps always has its timer on the near list.
-/

namespace ChrisOS.Kern

open ChrisOS.Utils

variable {τ : Type*} [DecidableEq τ]

/-- A thread is blocked only in `current_thread_sleep`, and while it is current only before it
yields; the timer thread, and no other, handles timers, and does nothing else but sleep. -/
structure ThreadOk (timerThread : τ) (k : SleepKernel τ) (t : τ) : Prop where
  asleep : t ≠ timerThread → k.sched.state t = .blocked → k.pc t = .yield ∨ k.pc t = .test
  current : k.sched.current = some t → k.sched.state t = .blocked → k.pc t = .yield
  handles : k.pc t = .handle → t = timerThread
  timer : t = timerThread → k.pc t = .handle ∨ k.pc t = .block ∨ k.pc t = .yield

/-- What holds in all runs. -/
structure SleepBase (timerThread : τ) (k : SleepKernel τ) : Prop where
  live : SchedLive (k.added : Set τ) k.sched
  far : k.timers.farTimers = []
  callbacks : ∀ nt ∈ k.timers.nearTimers, ∀ u, nt.callback = some u → u ∈ k.added
  threads : ∀ t, ThreadOk timerThread k t

/-- Everything a step can do, with its effect on who is blocked and who is current. -/
inductive SleepMove (timerThread : τ) (k : SleepKernel τ) : SleepAct τ → SleepKernel τ → Prop
  | add (t : τ) (s : Scheduler τ) (hcreated : k.sched.state t = .created)
      (hcurrent : s.current = k.sched.current)
      (hstate : s.state = Function.update k.sched.state t .runnable) :
      SleepMove timerThread k (.add t) { k with sched := s, added := insert t k.added }
  | switch (ticks : Word) (s : Scheduler τ)
      (hstate : ∀ x, s.state x = .blocked ↔ k.sched.state x = .blocked)
      (hcurrent : ∀ x, s.current = some x → s.state x ≠ .blocked) :
      SleepMove timerThread k (.preempt ticks) { k with sched := s }
  | tick (allocated : Word → Bool) (usecs : Word) (s : Scheduler τ)
      (hcurrent : s.current = k.sched.current)
      (hstate : s.state = k.sched.state ∨
        s.state = Function.update k.sched.state timerThread .runnable) :
      SleepMove timerThread k (.tick allocated usecs)
        { k with sched := s, timers := clockTick allocated k.timers usecs }
  | sleep (t : τ) (usecs : Word) (hcurrent : k.sched.current = some t) (hpc : k.pc t = .idle) :
      SleepMove timerThread k (.sleep usecs) (k.goto t (.schedule usecs))
  | schedule (t : τ) (ticks : Word) (allocated : Bool) (usecs : Word)
      (hcurrent : k.sched.current = some t) (hadded : t ∈ k.added)
      (hpc : k.pc t = .schedule usecs) :
      SleepMove timerThread k (.exec ticks allocated)
        (SleepKernel.goto
          { k with timers := (timerScheduleDelay allocated k.timers usecs (some t)).1 } t
          (.store (timerScheduleDelay allocated k.timers usecs (some t)).2))
  | store (t : τ) (ticks : Word) (allocated : Bool) (id : Word)
      (hcurrent : k.sched.current = some t) (hpc : k.pc t = .store id) :
      SleepMove timerThread k (.exec ticks allocated) ((k.setTimerId t id).goto t .block)
  | block (t : τ) (ticks : Word) (allocated : Bool) (s : Scheduler τ)
      (hcurrent : k.sched.current = some t) (hpc : k.pc t = .block)
      (hcurrent' : s.current = k.sched.current)
      (hstate : s.state = Function.update k.sched.state t .blocked) :
      SleepMove timerThread k (.exec ticks allocated)
        (SleepKernel.goto { k with sched := s } t .yield)
  | yield (t : τ) (ticks : Word) (allocated : Bool) (s : Scheduler τ)
      (hcurrent : k.sched.current = some t) (hpc : k.pc t = .yield)
      (hstate : ∀ x, s.state x = .blocked ↔ k.sched.state x = .blocked)
      (hcurrent' : ∀ x, s.current = some x → s.state x ≠ .blocked) :
      SleepMove timerThread k (.exec ticks allocated)
        (SleepKernel.goto { k with sched := s } t (if t = timerThread then .handle else .test))
  | test (t : τ) (ticks : Word) (allocated : Bool) (hcurrent : k.sched.current = some t)
      (hpc : k.pc t = .test) :
      SleepMove timerThread k (.exec ticks allocated)
        (k.goto t (if k.timedSleepTimerId t ≠ 0 then .cancel else .idle))
  | cancel (t : τ) (ticks : Word) (allocated : Bool) (hcurrent : k.sched.current = some t)
      (hpc : k.pc t = .cancel) :
      SleepMove timerThread k (.exec ticks allocated)
        (SleepKernel.goto
          { k with timers := (timerCancel k.timers (k.timedSleepTimerId t)).1 } t .clear)
  | clear (t : τ) (ticks : Word) (allocated : Bool) (hcurrent : k.sched.current = some t)
      (hpc : k.pc t = .clear) :
      SleepMove timerThread k (.exec ticks allocated) ((k.setTimerId t 0).goto t .idle)
  | wait (ticks : Word) (allocated : Bool) (hcurrent : k.sched.current = some timerThread)
      (hpc : k.pc timerThread = .handle) :
      SleepMove timerThread k (.exec ticks allocated) (k.goto timerThread .block)
  | drop (ticks : Word) (allocated : Bool) (hcurrent : k.sched.current = some timerThread)
      (hpc : k.pc timerThread = .handle) (nt : NearTimer τ) (rest : List (NearTimer τ))
      (hnear : k.timers.nearTimers = nt :: rest) (hcallback : nt.callback = none) :
      SleepMove timerThread k (.exec ticks allocated)
        { k with timers := { k.timers with nearTimers := rest } }
  | fire (ticks : Word) (allocated : Bool) (hcurrent : k.sched.current = some timerThread)
      (hpc : k.pc timerThread = .handle) (nt : NearTimer τ) (rest : List (NearTimer τ))
      (hnear : k.timers.nearTimers = nt :: rest) (hdue : nt.delay.toInt ≤ 0) (u : τ)
      (hcallback : nt.callback = some u) (s : Scheduler τ)
      (hcurrent' : s.current = k.sched.current)
      (hstate : s.state = Function.update k.sched.state u .runnable) :
      SleepMove timerThread k (.exec ticks allocated)
        { k.setTimerId u 0 with sched := s, timers := { k.timers with nearTimers := rest } }

section Steps

variable {timerThread : τ} {k k' : SleepKernel τ}

/-- What handling near timers does. -/
theorem SleepBase.handle (h : SleepBase timerThread k) {t : τ}
    (hcurrent : k.sched.current = some t) (hpc : k.pc t = .handle) (ticks : Word) (allocated : Bool)
    (hexec : k.exec timerThread t ticks allocated = some k') :
    SleepMove timerThread k (.exec ticks allocated) k' ∧ SchedLive (k'.added : Set τ) k'.sched := by
  obtain rfl := (h.threads t).handles hpc
  simp only [SleepKernel.exec, hpc] at hexec
  obtain ⟨result, hhandle, rfl⟩ := Option.map_eq_some_iff.mp hexec
  unfold SleepKernel.handleNearTimers at hhandle
  cases hnear : k.timers.nearTimers with
  | nil =>
    simp only [hnear] at hhandle
    cases hhandle
    exact ⟨.wait ticks allocated hcurrent hpc, h.live⟩
  | cons nt rest =>
    simp only [hnear] at hhandle
    by_cases hdue : nt.delay.toInt ≤ 0
    · rw [if_pos hdue] at hhandle
      obtain ⟨k₁, hinvoke, rfl⟩ := Option.map_eq_some_iff.mp hhandle
      have htimers := SleepKernel.invoke_timers hinvoke
      have hrest := timerCancel_head (htimers ▸ hnear)
      dsimp only
      rw [if_pos rfl, hrest, htimers]
      cases hcallback : nt.callback with
      | none =>
        rw [hcallback] at hinvoke
        cases hinvoke
        exact ⟨.drop ticks allocated hcurrent hpc nt rest hnear hcallback, h.live⟩
      | some u =>
        rw [hcallback] at hinvoke
        obtain ⟨s, hmake, rfl⟩ := Option.map_eq_some_iff.mp hinvoke
        obtain ⟨hlive, hcurrent', hstate⟩ := h.live.makeRunnable
          (h.callbacks nt (hnear ▸ List.mem_cons_self) u hcallback) hmake
        exact ⟨.fire ticks allocated hcurrent hpc nt rest hnear hdue u hcallback s hcurrent' hstate,
          hlive⟩
    · rw [if_neg hdue] at hhandle
      cases hhandle
      exact ⟨.wait ticks allocated hcurrent hpc, h.live⟩

/-- What a statement does. -/
theorem SleepBase.exec (h : SleepBase timerThread k) {t : τ} (hcurrent : k.sched.current = some t)
    (hadded : t ∈ k.added) (ticks : Word) (allocated : Bool)
    (hexec : k.exec timerThread t ticks allocated = some k') :
    SleepMove timerThread k (.exec ticks allocated) k' ∧ SchedLive (k'.added : Set τ) k'.sched := by
  cases hpc : k.pc t with
  | handle => exact h.handle hcurrent hpc ticks allocated hexec
  | idle =>
    simp only [SleepKernel.exec, hpc] at hexec
    cases hexec
  | schedule usecs =>
    simp only [SleepKernel.exec, hpc] at hexec
    cases hexec
    exact ⟨.schedule t ticks allocated usecs hcurrent hadded hpc, h.live⟩
  | store id =>
    simp only [SleepKernel.exec, hpc] at hexec
    cases hexec
    exact ⟨.store t ticks allocated id hcurrent hpc, h.live⟩
  | block =>
    simp only [SleepKernel.exec, hpc] at hexec
    obtain ⟨s, hmake, rfl⟩ := Option.map_eq_some_iff.mp hexec
    obtain ⟨hlive, hcurrent', hstate⟩ := h.live.makeBlocked (Finset.mem_coe.mpr hadded) hmake
    exact ⟨.block t ticks allocated s hcurrent hpc hcurrent' hstate, hlive⟩
  | yield =>
    simp only [SleepKernel.exec, hpc] at hexec
    obtain ⟨s, hyield, rfl⟩ := Option.map_eq_some_iff.mp hexec
    obtain ⟨hlive, hstate, hcurrent'⟩ := h.live.yield hyield
    exact ⟨.yield t ticks allocated s hcurrent hpc hstate hcurrent', hlive⟩
  | test =>
    simp only [SleepKernel.exec, hpc] at hexec
    cases hexec
    exact ⟨.test t ticks allocated hcurrent hpc, h.live⟩
  | cancel =>
    simp only [SleepKernel.exec, hpc] at hexec
    cases hexec
    exact ⟨.cancel t ticks allocated hcurrent hpc, h.live⟩
  | clear =>
    simp only [SleepKernel.exec, hpc] at hexec
    cases hexec
    exact ⟨.clear t ticks allocated hcurrent hpc, h.live⟩

/-- What an act does. -/
theorem SleepBase.perform (h : SleepBase timerThread k) {act : SleepAct τ}
    (hact : k.perform timerThread act = some k') :
    SleepMove timerThread k act k' ∧ SchedLive (k'.added : Set τ) k'.sched := by
  cases act with
  | add t =>
    obtain ⟨⟨hcreated, hnew⟩, hact⟩ := Option.ite_none_right_eq_some.mp hact
    obtain ⟨s, hadd, rfl⟩ := Option.map_eq_some_iff.mp hact
    obtain ⟨hlive, hcurrent, hstate⟩ := h.live.addThread hcreated (by simpa using hnew) hadd
    exact ⟨.add t s hcreated hcurrent hstate, by simpa using hlive⟩
  | preempt ticks =>
    obtain ⟨s, hyield, rfl⟩ := Option.map_eq_some_iff.mp hact
    obtain ⟨hlive, hstate, hcurrent⟩ := h.live.yield hyield
    exact ⟨.switch ticks s hstate hcurrent, hlive⟩
  | tick allocated usecs =>
    obtain ⟨hadded, hact⟩ := Option.ite_none_right_eq_some.mp hact
    unfold SleepKernel.ticksIrqHandler at hact
    dsimp only at hact
    split at hact
    · obtain ⟨s, hmake, rfl⟩ := Option.map_eq_some_iff.mp hact
      obtain ⟨hlive, hcurrent, hstate⟩ := h.live.makeRunnable (Finset.mem_coe.mpr hadded) hmake
      exact ⟨.tick allocated usecs s hcurrent (Or.inr hstate), hlive⟩
    · cases hact
      exact ⟨.tick allocated usecs k.sched rfl (Or.inl rfl), h.live⟩
  | sleep usecs =>
    obtain ⟨t, hcurrent, hact⟩ := Option.bind_eq_some_iff.mp hact
    obtain ⟨⟨_, hpc⟩, hact⟩ := Option.ite_none_right_eq_some.mp hact
    cases hact
    exact ⟨.sleep t usecs hcurrent hpc, h.live⟩
  | exec ticks allocated =>
    obtain ⟨t, hcurrent, hact⟩ := Option.bind_eq_some_iff.mp hact
    obtain ⟨hadded, hact⟩ := Option.ite_none_right_eq_some.mp hact
    exact h.exec hcurrent hadded ticks allocated hact

end Steps

/-- A wake-up timer of a thread with an identifier is on the near list. -/
def Pending (k : SleepKernel τ) (t : τ) (id : Word) : Prop :=
  ∃ nt ∈ k.timers.nearTimers, nt.callback = some t ∧ nt.id = id

section Invariants

variable {timerThread : τ} {k k' : SleepKernel τ} {act : SleepAct τ} {t : τ}

omit [DecidableEq τ] in
/-- A thread that a step does not move, block or make current is as before. -/
theorem ThreadOk.frame (h : ThreadOk timerThread k t) (hpc : k'.pc t = k.pc t)
    (hblocked : k'.sched.state t = .blocked → k.sched.state t = .blocked)
    (hcurrent : k'.sched.current = some t → k'.sched.state t = .blocked →
      k.sched.current = some t) : ThreadOk timerThread k' t where
  asleep := fun ht hb => hpc ▸ h.asleep ht (hblocked hb)
  current := fun hc hb => hpc ▸ h.current (hcurrent hc hb) (hblocked hb)
  handles := fun hh => h.handles (hpc ▸ hh)
  timer := hpc ▸ h.timer

omit [DecidableEq τ] in
/-- A thread that is not blocked. -/
theorem ThreadOk.of_ready (hready : k.sched.state t ≠ .blocked)
    (hhandles : k.pc t = .handle → t = timerThread)
    (htimer : t = timerThread → k.pc t = .handle ∨ k.pc t = .block ∨ k.pc t = .yield) :
    ThreadOk timerThread k t where
  asleep := fun _ hb => absurd hb hready
  current := fun _ hb => absurd hb hready
  handles := hhandles
  timer := htimer

/-- A current thread that is not about to yield is not blocked. -/
theorem SleepBase.ready (h : SleepBase timerThread k) (hcurrent : k.sched.current = some t)
    (hpc : k.pc t ≠ .yield) : k.sched.state t ≠ .blocked :=
  fun hblocked => hpc ((h.threads t).current hcurrent hblocked)

/-- A thread in `current_thread_sleep_usecs` is not the timer thread. -/
theorem SleepBase.ne_timerThread (h : SleepBase timerThread k) (hhandle : k.pc t ≠ .handle)
    (hblock : k.pc t ≠ .block) (hyield : k.pc t ≠ .yield) : t ≠ timerThread := by
  intro ht
  obtain hpc | hpc | hpc := (h.threads t).timer ht
  · exact hhandle hpc
  · exact hblock hpc
  · exact hyield hpc

/-- The threads after a thread that is not blocked has moved. -/
theorem SleepBase.threads_goto (h : SleepBase timerThread k) (hready : k.sched.state t ≠ .blocked)
    {pc : SleepPc} (hpc : pc ≠ .handle)
    (htimer : t = timerThread → pc = .block) (hsched : k'.sched = k.sched)
    (hpc' : k'.pc = Function.update k.pc t pc) (x : τ) : ThreadOk timerThread k' x := by
  by_cases hx : x = t
  · subst hx
    have hself : k'.pc x = pc := by rw [hpc', Function.update_self]
    refine ThreadOk.of_ready (hsched ▸ hready) (fun hhandle => ?_) fun ht => ?_
    · exact absurd (hself.symm.trans hhandle) hpc
    · exact Or.inr (Or.inl (hself.trans (htimer ht)))
  · exact (h.threads x).frame (by rw [hpc', Function.update_of_ne hx]) (hsched ▸ id)
      fun hc _ => hsched ▸ hc

/-- The threads after a statement of `current_thread_sleep_usecs` itself, or a call of it. -/
theorem SleepBase.threads_caller (h : SleepBase timerThread k) (hcurrent : k.sched.current = some t)
    (hhandle : k.pc t ≠ .handle) (hblock : k.pc t ≠ .block)
    (hyield : k.pc t ≠ .yield) {pc : SleepPc} (hpc : pc ≠ .handle) (hsched : k'.sched = k.sched)
    (hpc' : k'.pc = Function.update k.pc t pc) (x : τ) : ThreadOk timerThread k' x := by
  have hne := h.ne_timerThread hhandle hblock hyield
  exact h.threads_goto (h.ready hcurrent hyield) hpc (absurd · hne) hsched hpc' x

/-- The threads after a thread was woken. -/
theorem SleepBase.threads_wake (h : SleepBase timerThread k) {u : τ} (hpc : k'.pc = k.pc)
    (hcurrent : k'.sched.current = k.sched.current)
    (hstate : k'.sched.state = Function.update k.sched.state u .runnable) (x : τ) :
    ThreadOk timerThread k' x := by
  refine (h.threads x).frame (by rw [hpc]) (fun hb => ?_) fun hc _ => hcurrent ▸ hc
  rw [hstate] at hb
  exact blocked_of_woken hb

/-- Every step keeps what holds in all runs. -/
theorem SleepBase.step (h : SleepBase timerThread k) (hmove : SleepMove timerThread k act k')
    (hlive : SchedLive (k'.added : Set τ) k'.sched) : SleepBase timerThread k' := by
  cases hmove with
  | add t s hcreated hcurrent hstate =>
    refine ⟨hlive, h.far, fun nt hnt u hu => ?_, h.threads_wake rfl hcurrent hstate⟩
    exact Finset.mem_insert_of_mem (h.callbacks nt hnt u hu)
  | switch ticks s hstate hcurrent =>
    exact ⟨hlive, h.far, h.callbacks, fun x => (h.threads x).frame rfl (hstate x).mp
      fun hc hb => absurd hb (hcurrent x hc)⟩
  | tick allocated usecs s hcurrent hstate =>
    have htimers := clockTick_of_far_nil h.far allocated usecs
    refine ⟨hlive, ?_, fun nt hnt u hu => ?_, ?_⟩
    · dsimp only
      rw [htimers]
      exact h.far
    · dsimp only at hnt
      rw [htimers] at hnt
      obtain ⟨nt', hnt', rfl⟩ := List.mem_map.mp hnt
      exact h.callbacks nt' hnt' u hu
    · obtain hsame | hwoken := hstate
      · exact fun x => (h.threads x).frame rfl (by dsimp only; rw [hsame]; exact id)
          fun hc _ => hcurrent ▸ hc
      · exact h.threads_wake rfl hcurrent hwoken
  | sleep t usecs hcurrent hpc =>
    exact ⟨hlive, h.far, h.callbacks, h.threads_caller hcurrent (by simp [hpc]) (by simp [hpc])
      (by simp [hpc]) (by simp) rfl rfl⟩
  | schedule t ticks allocated usecs hcurrent hadded hpc =>
    refine ⟨hlive, ?_, fun nt hnt u hu => ?_, h.threads_caller hcurrent (by simp [hpc])
      (by simp [hpc]) (by simp [hpc]) (by simp) rfl rfl⟩
    · exact (timerScheduleDelay_far ..).trans h.far
    · obtain ⟨_, rfl⟩ | hnt := (mem_timerScheduleDelay ..).mp hnt
      · exact Option.some.inj hu ▸ hadded
      · exact h.callbacks nt hnt u hu
  | store t ticks allocated id hcurrent hpc =>
    exact ⟨hlive, h.far, h.callbacks, h.threads_caller hcurrent (by simp [hpc]) (by simp [hpc])
      (by simp [hpc]) (by simp) rfl rfl⟩
  | block t ticks allocated s hcurrent hpc hcurrent' hstate =>
    refine ⟨hlive, h.far, h.callbacks, fun x => ?_⟩
    by_cases hx : x = t
    · subst hx
      have hyield : (SleepKernel.goto { k with sched := s } x .yield).pc x = .yield :=
        Function.update_self ..
      refine ⟨fun _ _ => Or.inl hyield, fun _ _ => hyield, fun hhandle => ?_,
        fun _ => Or.inr (Or.inr hyield)⟩
      rw [hyield] at hhandle
      cases hhandle
    · refine (h.threads x).frame (Function.update_of_ne hx ..) (fun hb => ?_)
        fun hc _ => hcurrent' ▸ hc
      change s.state x = .blocked at hb
      rwa [hstate, Function.update_of_ne hx] at hb
  | yield t ticks allocated s hcurrent hpc hstate hcurrent' =>
    refine ⟨hlive, h.far, h.callbacks, fun x => ?_⟩
    by_cases hx : x = t
    · subst hx
      have hpc' : (SleepKernel.goto { k with sched := s } x
          (if x = timerThread then .handle else .test)).pc x =
            if x = timerThread then .handle else .test := Function.update_self ..
      refine ⟨fun hne _ => Or.inr (hpc'.trans (if_neg hne)),
        fun hc hb => absurd hb (hcurrent' x hc), fun hhandle => ?_,
        fun ht => Or.inl (hpc'.trans (if_pos ht))⟩
      rw [hpc'] at hhandle
      split at hhandle
      · assumption
      · cases hhandle
    · exact (h.threads x).frame (Function.update_of_ne hx ..) (hstate x).mp
        fun hc hb => absurd hb (hcurrent' x hc)
  | test t ticks allocated hcurrent hpc =>
    exact ⟨hlive, h.far, h.callbacks, h.threads_caller hcurrent (by simp [hpc]) (by simp [hpc])
      (by simp [hpc]) (by split <;> simp) rfl rfl⟩
  | cancel t ticks allocated hcurrent hpc =>
    obtain ⟨hnear, hfar⟩ := timerCancel_subset k.timers (k.timedSleepTimerId t)
    exact ⟨hlive, List.subset_nil.mp (h.far ▸ hfar), fun nt hnt => h.callbacks nt (hnear hnt),
      h.threads_caller hcurrent (by simp [hpc]) (by simp [hpc]) (by simp [hpc]) (by simp) rfl rfl⟩
  | clear t ticks allocated hcurrent hpc =>
    exact ⟨hlive, h.far, h.callbacks, h.threads_caller hcurrent (by simp [hpc]) (by simp [hpc])
      (by simp [hpc]) (by simp) rfl rfl⟩
  | wait ticks allocated hcurrent hpc =>
    have hready := h.ready hcurrent (by simp [hpc])
    exact ⟨hlive, h.far, h.callbacks, h.threads_goto hready (by simp) (fun _ => rfl) rfl rfl⟩
  | drop ticks allocated hcurrent hpc nt rest hnear hcallback =>
    exact ⟨hlive, h.far, fun nt' hnt' => h.callbacks nt' (hnear ▸ List.mem_cons_of_mem _ hnt'),
      fun x => (h.threads x).frame rfl id fun hc _ => hc⟩
  | fire ticks allocated hcurrent hpc nt rest hnear hdue u hcallback s hcurrent' hstate =>
    exact ⟨hlive, h.far, fun nt' hnt' => h.callbacks nt' (hnear ▸ List.mem_cons_of_mem _ hnt'),
      h.threads_wake rfl hcurrent' hstate⟩

/-- Every timer fires only after its thread is blocked, and there is memory for every timer. -/
def SleepKernel.orderly (k : SleepKernel τ) : SleepAct τ → Bool
  | .exec _ allocated =>
    match k.sched.current with
    | some t =>
      match k.pc t with
      | .schedule _ => allocated
      | .handle =>
        match k.timers.nearTimers with
        | nt :: _ => nt.delay.toInt > 0 || nt.callback.all (k.sched.state · = .blocked)
        | [] => true
      | _ => true
    | none => true
  | _ => true

/-- What a thread other than the timer thread can rely on in orderly runs: from the scheduling of
its timer until the timer fires the timer is on the near list, and once it has fired the
identifier is zero. -/
structure SleepGood (k : SleepKernel τ) (t : τ) : Prop where
  store : ∀ id, k.pc t = .store id → Pending k t id
  block : k.pc t = .block → Pending k t (k.timedSleepTimerId t)
  asleep : k.sched.state t = .blocked → Pending k t (k.timedSleepTimerId t)
  woken : k.pc t = .yield ∨ k.pc t = .test → k.sched.state t ≠ .blocked → k.timedSleepTimerId t = 0
  neverCancels : k.pc t ≠ .cancel ∧ k.pc t ≠ .clear

omit [DecidableEq τ] in
/-- A thread that a step leaves alone, timers included. -/
theorem SleepGood.frame (h : SleepGood k t) (hpc : k'.pc t = k.pc t)
    (hblocked : k'.sched.state t = .blocked ↔ k.sched.state t = .blocked)
    (hid : k'.timedSleepTimerId t = k.timedSleepTimerId t)
    (hpending : ∀ id, Pending k t id → Pending k' t id) : SleepGood k' t where
  store := fun id hs => hpending id (h.store id (hpc ▸ hs))
  block := fun hb => hid ▸ hpending _ (h.block (hpc ▸ hb))
  asleep := fun hb => hid ▸ hpending _ (h.asleep (hblocked.mp hb))
  woken := fun hp hb => hid ▸ h.woken (hpc ▸ hp) (mt hblocked.mpr hb)
  neverCancels := hpc ▸ h.neverCancels

/-- A thread that the current thread's move does not concern. -/
theorem SleepGood.frame_goto {t x : τ} (h : SleepGood k x) (hx : x ≠ t) (pc : SleepPc)
    {k₁ : SleepKernel τ} (hpc : k₁.pc = k.pc)
    (hblocked : k₁.sched.state x = .blocked ↔ k.sched.state x = .blocked)
    (hid : k₁.timedSleepTimerId x = k.timedSleepTimerId x)
    (hpending : ∀ id, Pending k x id → Pending k₁ x id) : SleepGood (k₁.goto t pc) x :=
  h.frame ((Function.update_of_ne hx ..).trans (by rw [hpc])) hblocked hid hpending

omit [DecidableEq τ] in
/-- A thread that is not blocked and has no timer to rely on. -/
theorem SleepGood.of_ready (hready : k.sched.state t ≠ .blocked)
    (hpc : k.pc t = .idle ∨ ∃ usecs, k.pc t = .schedule usecs) : SleepGood k t := by
  obtain hpc | ⟨usecs, hpc⟩ := hpc
  · exact ⟨by simp [hpc], by simp [hpc], fun hb => absurd hb hready, by simp [hpc], by simp [hpc]⟩
  · exact ⟨by simp [hpc], by simp [hpc], fun hb => absurd hb hready, by simp [hpc], by simp [hpc]⟩

omit [DecidableEq τ] in
/-- Removing the head of the near list keeps the timers of threads it is not for. -/
theorem Pending.tail {nt : NearTimer τ} {rest : List (NearTimer τ)}
    (hnear : k.timers.nearTimers = nt :: rest) (hcallback : nt.callback ≠ some t) {id : Word}
    (h : Pending k t id) : ∃ nt' ∈ rest, nt'.callback = some t ∧ nt'.id = id := by
  obtain ⟨nt', hmem, hcallback', hid⟩ := h
  rw [hnear] at hmem
  rcases List.mem_cons.mp hmem with rfl | hmem
  · exact absurd hcallback' hcallback
  · exact ⟨nt', hmem, hcallback', hid⟩

/-- Every orderly step keeps a thread's timer until it fires. -/
theorem SleepGood.step (hbase : SleepBase timerThread k) (h : ∀ t, t ≠ timerThread → SleepGood k t)
    (horderly : k.orderly act = true) (hmove : SleepMove timerThread k act k') (x : τ)
    (hx : x ≠ timerThread) : SleepGood k' x := by
  have hgood := h x hx
  cases hmove with
  | add t s hcreated hcurrent hstate =>
    refine hgood.frame rfl ?_ rfl fun _ hp => hp
    dsimp only
    rw [hstate]
    exact blocked_added_iff hcreated
  | switch ticks s hstate hcurrent => exact hgood.frame rfl (hstate x) rfl fun _ hp => hp
  | tick allocated usecs s hcurrent hstate =>
    refine hgood.frame rfl ?_ rfl fun id hp => ?_
    · obtain hsame | hwoken := hstate
      · dsimp only
        rw [hsame]
      · dsimp only
        rw [hwoken, Function.update_of_ne hx]
    · obtain ⟨nt, hnt, hcallback, hid⟩ := hp
      refine ⟨{ nt with delay := nt.delay - usecs }, ?_, hcallback, hid⟩
      dsimp only
      rw [clockTick_of_far_nil hbase.far]
      exact List.mem_map_of_mem hnt
  | sleep t usecs hcurrent hpc =>
    by_cases hxt : x = t
    · subst hxt
      exact SleepGood.of_ready (hbase.ready hcurrent (by simp [hpc]))
        (Or.inr ⟨usecs, Function.update_self ..⟩)
    · exact hgood.frame_goto hxt _ rfl Iff.rfl rfl fun _ hp => hp
  | schedule t ticks allocated usecs hcurrent hadded hpc =>
    by_cases hxt : x = t
    · subst hxt
      have hready := hbase.ready hcurrent (by simp [hpc])
      have hallocated : allocated = true := by
        simpa only [SleepKernel.orderly, hcurrent, hpc] using horderly
      have hself : ∀ {k₁ : SleepKernel τ} {pc}, (k₁.goto x pc).pc x = pc := Function.update_self ..
      refine ⟨fun id hid => ?_, by simp [hself], fun hb => absurd hb hready, by simp [hself],
        by simp [hself]⟩
      rw [hself] at hid
      cases hid
      exact ⟨_, (mem_timerScheduleDelay ..).mpr (Or.inl ⟨hallocated, rfl⟩), rfl, rfl⟩
    · refine hgood.frame_goto hxt _ rfl Iff.rfl rfl fun id hp => ?_
      obtain ⟨nt, hnt, hrest⟩ := hp
      exact ⟨nt, (mem_timerScheduleDelay ..).mpr (Or.inr hnt), hrest⟩
  | store t ticks allocated id hcurrent hpc =>
    by_cases hxt : x = t
    · subst hxt
      have hready := hbase.ready hcurrent (by simp [hpc])
      have hself : ((k.setTimerId x id).goto x .block).pc x = .block := Function.update_self ..
      have hid : ((k.setTimerId x id).goto x .block).timedSleepTimerId x = id :=
        Function.update_self ..
      refine ⟨by simp [hself], fun _ => ?_, fun hb => absurd hb hready, by simp [hself],
        by simp [hself]⟩
      rw [hid]
      exact hgood.store id hpc
    · exact hgood.frame_goto hxt _ rfl Iff.rfl (Function.update_of_ne hxt ..) fun _ hp => hp
  | block t ticks allocated s hcurrent hpc hcurrent' hstate =>
    by_cases hxt : x = t
    · subst hxt
      have hself : (SleepKernel.goto { k with sched := s } x .yield).pc x = .yield :=
        Function.update_self ..
      have hblocked : s.state x = .blocked := by rw [hstate, Function.update_self]
      exact ⟨by simp [hself], by simp [hself], fun _ => hgood.block hpc,
        fun _ hb => absurd hblocked hb, by simp [hself]⟩
    · refine hgood.frame_goto hxt _ rfl ?_ rfl fun _ hp => hp
      dsimp only
      rw [hstate, Function.update_of_ne hxt]
  | yield t ticks allocated s hcurrent hpc hstate hcurrent' =>
    by_cases hxt : x = t
    · subst hxt
      have hself : (SleepKernel.goto { k with sched := s } x
          (if x = timerThread then .handle else .test)).pc x = .test :=
        (Function.update_self ..).trans (if_neg hx)
      exact ⟨by simp [hself], by simp [hself], fun hb => hgood.asleep ((hstate x).mp hb),
        fun _ hb => hgood.woken (Or.inl hpc) (mt (hstate x).mpr hb), by simp [hself]⟩
    · exact hgood.frame_goto hxt _ rfl (hstate x) rfl fun _ hp => hp
  | test t ticks allocated hcurrent hpc =>
    by_cases hxt : x = t
    · subst hxt
      have hready := hbase.ready hcurrent (by simp [hpc])
      have hzero := hgood.woken (Or.inr hpc) hready
      refine SleepGood.of_ready hready (Or.inl ((Function.update_self ..).trans ?_))
      rw [if_neg (not_not_intro hzero)]
    · exact hgood.frame_goto hxt _ rfl Iff.rfl rfl fun _ hp => hp
  | cancel t ticks allocated hcurrent hpc =>
    have hne := hbase.ne_timerThread (t := t) (by simp [hpc]) (by simp [hpc]) (by simp [hpc])
    exact absurd hpc (h t hne).neverCancels.1
  | clear t ticks allocated hcurrent hpc =>
    have hne := hbase.ne_timerThread (t := t) (by simp [hpc]) (by simp [hpc]) (by simp [hpc])
    exact absurd hpc (h t hne).neverCancels.2
  | wait ticks allocated hcurrent hpc =>
    exact hgood.frame_goto hx _ rfl Iff.rfl rfl fun _ hp => hp
  | drop ticks allocated hcurrent hpc nt rest hnear hcallback =>
    exact hgood.frame rfl Iff.rfl rfl fun id hp => hp.tail hnear (by simp [hcallback])
  | fire ticks allocated hcurrent hpc nt rest hnear hdue u hcallback s hcurrent' hstate =>
    by_cases hxu : x = u
    · -- its thread was asleep, so it goes on with the identifier cleared
      subst hxu
      have hblocked : k.sched.state x = .blocked := by
        simpa [SleepKernel.orderly, hcurrent, hpc, hnear, hcallback, Int.not_lt.mpr hdue]
          using horderly
      have hwoken : s.state x ≠ .blocked := by
        rw [hstate, Function.update_self]
        decide
      have hzero : (k.setTimerId x 0).timedSleepTimerId x = 0 := Function.update_self ..
      have hpcx := (hbase.threads x).asleep hx hblocked
      refine ⟨fun id hs => ?_, fun hb => ?_, fun hb => absurd hb hwoken, fun _ _ => hzero,
        hgood.neverCancels⟩
      · change k.pc x = .store id at hs
        simp [hs] at hpcx
      · change k.pc x = .block at hb
        simp [hb] at hpcx
    · refine hgood.frame rfl ?_ (Function.update_of_ne hxu ..) fun id hp => hp.tail hnear ?_
      · dsimp only
        rw [hstate, Function.update_of_ne hxu]
      · rw [hcallback]
        exact fun heq => hxu (Option.some.inj heq).symm

end Invariants

section Runs

variable {timerThread : τ} {k k' : SleepKernel τ} {may : SleepKernel τ → SleepAct τ → Bool}

/-- No thread has been added yet. -/
theorem SleepBase.initial {s : Scheduler τ} (h : KernelInit s) (utc : Timeval) :
    SleepBase timerThread (.initial timerThread s utc) where
  live := by
    rw [SleepKernel.initial, Finset.coe_empty]
    exact h.toSchedInit.live
  far := rfl
  callbacks := fun nt hnt => absurd hnt List.not_mem_nil
  threads := fun t => by
    refine ThreadOk.of_ready (h.ready t) (fun hhandle => ?_) fun ht => Or.inl (if_pos ht)
    by_contra hne
    exact absurd ((if_neg hne).symm.trans hhandle) (by decide)

/-- Every run keeps what holds in all runs. -/
theorem SleepBase.run (h : SleepBase timerThread k)
    (hrun : Relation.ReflTransGen (SleepStep timerThread may) k k') : SleepBase timerThread k' := by
  induction hrun with
  | refl => exact h
  | tail _ hstep ih =>
    obtain ⟨act, _, hact⟩ := hstep
    obtain ⟨hmove, hlive⟩ := ih.perform hact
    exact ih.step hmove hlive

/-- The invariant in every state of every run. -/
theorem SleepBase.of_reachable (h : SleepReachable timerThread may k) : SleepBase timerThread k := by
  obtain ⟨s, utc, hinit, hrun⟩ := h
  exact (SleepBase.initial hinit utc).run hrun

/-- In orderly runs every thread can rely on its timer. -/
theorem SleepGood.of_reachable (h : SleepReachable timerThread SleepKernel.orderly k) (t : τ)
    (ht : t ≠ timerThread) : SleepGood k t := by
  obtain ⟨s, utc, hinit, hrun⟩ := h
  induction hrun generalizing t with
  | refl => exact SleepGood.of_ready (hinit.ready t) (Or.inl (if_neg ht))
  | tail hrun hstep ih =>
    obtain ⟨act, horderly, hact⟩ := hstep
    have hbase := (SleepBase.initial hinit utc).run hrun
    exact SleepGood.step hbase ih horderly (hbase.perform hact).1 t ht

/-- A sleeping thread without a timer. -/
structure Forgotten (timerThread : τ) (k : SleepKernel τ) (t : τ) : Prop where
  ne : t ≠ timerThread
  blocked : k.sched.state t = .blocked
  absent : ∀ nt ∈ k.timers.nearTimers, nt.callback ≠ some t

/-- Waking another thread does not help a forgotten one. -/
theorem Forgotten.wake {t u : τ} (h : Forgotten timerThread k t) (hu : t ≠ u)
    (hstate : k'.sched.state = Function.update k.sched.state u .runnable)
    (habsent : ∀ nt ∈ k'.timers.nearTimers, nt.callback ≠ some t) : Forgotten timerThread k' t :=
  ⟨h.ne, by rw [hstate, Function.update_of_ne hu, h.blocked], habsent⟩

variable {t : τ}

/-- No step wakes a forgotten thread or gives it a timer. -/
theorem Forgotten.step (hbase : SleepBase timerThread k) (h : Forgotten timerThread k t)
    {act : SleepAct τ} (hmove : SleepMove timerThread k act k') : Forgotten timerThread k' t := by
  cases hmove with
  | add u s hcreated hcurrent hstate =>
    refine ⟨h.ne, ?_, h.absent⟩
    dsimp only
    rw [hstate]
    exact (blocked_added_iff hcreated).mpr h.blocked
  | switch ticks s hstate hcurrent => exact ⟨h.ne, (hstate t).mpr h.blocked, h.absent⟩
  | tick allocated usecs s hcurrent hstate =>
    have habsent : ∀ nt ∈ (clockTick allocated k.timers usecs).nearTimers,
        nt.callback ≠ some t := by
      rw [clockTick_of_far_nil hbase.far]
      intro nt hnt
      obtain ⟨nt', hnt', rfl⟩ := List.mem_map.mp hnt
      exact h.absent nt' hnt'
    obtain hsame | hwoken := hstate
    · exact ⟨h.ne, hsame ▸ h.blocked, habsent⟩
    · exact h.wake h.ne hwoken habsent
  | schedule u ticks allocated usecs hcurrent hadded hpc =>
    -- a thread that is asleep schedules nothing
    have hpct := (hbase.threads t).asleep h.ne h.blocked
    refine ⟨h.ne, h.blocked, fun nt hnt => ?_⟩
    obtain ⟨_, rfl⟩ | hnt := (mem_timerScheduleDelay ..).mp hnt
    · intro hcallback
      cases hcallback
      simp [hpc] at hpct
    · exact h.absent nt hnt
  | block u ticks allocated s hcurrent hpc hcurrent' hstate =>
    refine ⟨h.ne, ?_, h.absent⟩
    change s.state t = .blocked
    rw [hstate]
    by_cases htu : t = u
    · rw [htu, Function.update_self]
    · rw [Function.update_of_ne htu, h.blocked]
  | yield u ticks allocated s hcurrent hpc hstate hcurrent' =>
    exact ⟨h.ne, (hstate t).mpr h.blocked, h.absent⟩
  | cancel u ticks allocated hcurrent hpc =>
    obtain ⟨hnear, _⟩ := timerCancel_subset k.timers (k.timedSleepTimerId u)
    exact ⟨h.ne, h.blocked, fun nt hnt => h.absent nt (hnear hnt)⟩
  | sleep | store | test | clear | wait => exact ⟨h.ne, h.blocked, h.absent⟩
  | drop ticks allocated hcurrent hpc nt rest hnear hcallback =>
    exact ⟨h.ne, h.blocked, fun nt' hnt' => h.absent nt' (hnear ▸ List.mem_cons_of_mem _ hnt')⟩
  | fire ticks allocated hcurrent hpc nt rest hnear hdue u hcallback s hcurrent' hstate =>
    refine h.wake (fun htu => ?_) hstate
      fun nt' hnt' => h.absent nt' (hnear ▸ List.mem_cons_of_mem _ hnt')
    exact h.absent nt (hnear ▸ List.mem_cons_self) (htu ▸ hcallback)

/-- A forgotten thread is forgotten for ever. -/
theorem Forgotten.run (hbase : SleepBase timerThread k) (h : Forgotten timerThread k t)
    (hrun : Relation.ReflTransGen (SleepStep timerThread may) k k') : Forgotten timerThread k' t := by
  induction hrun with
  | refl => exact h
  | tail hrun hstep ih =>
    obtain ⟨act, _, hact⟩ := hstep
    have hbase' := hbase.run hrun
    exact ih.step hbase' (hbase'.perform hact).1

/-- A thread without a timer that is about to block blocks and is forgotten. -/
theorem Forgotten.of_block (hbase : SleepBase timerThread k) (ht : t ≠ timerThread)
    (hadded : t ∈ k.added) (hcurrent : k.sched.current = some t) (hpc : k.pc t = .block)
    (habsent : ∀ nt ∈ k.timers.nearTimers, nt.callback ≠ some t) (ticks : Word) (allocated : Bool) :
    ∃ k', k.perform timerThread (.exec ticks allocated) = some k' ∧ Forgotten timerThread k' t := by
  obtain ⟨s, hmake⟩ := hbase.live.exists_makeBlocked (Finset.mem_coe.mpr hadded)
  obtain ⟨_, _, hstate⟩ := hbase.live.makeBlocked (Finset.mem_coe.mpr hadded) hmake
  refine ⟨SleepKernel.goto { k with sched := s } t .yield, ?_, ht, ?_, habsent⟩
  · simp [SleepKernel.perform, SleepKernel.exec, hcurrent, hadded, hpc, hmake]
  · change s.state t = .blocked
    rw [hstate, Function.update_self]

end Runs

/-- If there is memory for every timer and every timer fires only after its thread is blocked, each
thread that sleeps has its timer on the near list. A thread that blocks when its timer has fired
already, or was never there, sleeps without one from there on, whatever the threads do. -/
theorem timed_sleep_lost_only_if_early (timerThread : τ) :
    (∀ k, SleepReachable timerThread SleepKernel.orderly k → ∀ t, t ≠ timerThread →
      k.sched.state t = .blocked → Pending k t (k.timedSleepTimerId t)) ∧
    ∀ k t, SleepReachable timerThread (fun _ _ => true) k → t ≠ timerThread → t ∈ k.added →
      k.sched.current = some t → k.pc t = .block →
      (∀ nt ∈ k.timers.nearTimers, nt.callback ≠ some t) → ∀ ticks allocated,
        ∃ k', k.perform timerThread (.exec ticks allocated) = some k' ∧
          ∀ k'', Relation.ReflTransGen (SleepStep timerThread fun _ _ => true) k' k'' →
            Forgotten timerThread k'' t := by
  refine ⟨fun k hk t ht => (SleepGood.of_reachable hk t ht).asleep,
    fun k t hk ht hadded hcurrent hpc habsent ticks allocated => ?_⟩
  have hbase := SleepBase.of_reachable hk
  obtain ⟨k', hact, hforgotten⟩ :=
    Forgotten.of_block hbase ht hadded hcurrent hpc habsent ticks allocated
  have hstep : SleepStep timerThread (fun _ _ => true) k k' := ⟨_, rfl, hact⟩
  have hbase' := hbase.run (.single hstep)
  exact ⟨k', hact, fun k'' hrun => hforgotten.run hbase' hrun⟩

/-- A sleeper and the timer thread, which is the one called `true`. -/
def sleepers : SleepKernel Bool := .initial true Scheduler.zeroed ⟨0, 0⟩

/-- The sleeper is added first, switched to, and calls `current_thread_sleep_usecs`. -/
def sleeperSleeps (usecs : Word) : List (SleepAct Bool) :=
  [.add false, .add true, .preempt 1, .sleep usecs, .exec 1 true]

/-- A thread sleeps with its timer on the near list. -/
theorem timed_sleep_hundred :
    ∃ k : SleepKernel Bool, SleepReachable true SleepKernel.orderly k ∧
      k.sched.state false = .blocked ∧ Pending k false (k.timedSleepTimerId false) := by
  let blocks : List (SleepAct Bool) := [.exec 1 true, .exec 1 true]
  let acts := sleeperSleeps 100 ++ blocks
  let k := (sleepers.performAll true SleepKernel.orderly acts).get (by decide)
  have hreach : SleepReachable true SleepKernel.orderly k :=
    ⟨_, _, ⟨Scheduler.zeroed_init, fun _ h => by cases h⟩,
      SleepKernel.performAll_run (Option.some_get _).symm⟩
  have hblocked : k.sched.state false = .blocked := by decide
  exact ⟨k, hreach, hblocked,
    (timed_sleep_lost_only_if_early true).1 k hreach false (by decide) hblocked⟩

/-- A thread schedules its timer, is switched, and the timer fires before the thread has blocked:
it then blocks, and sleeps for ever. -/
theorem timed_sleep_forgotten :
    ∃ k : SleepKernel Bool, SleepReachable true (fun _ _ => true) k ∧ k.pc false = .test ∧
      ∀ k', Relation.ReflTransGen (SleepStep true fun _ _ => true) k k' → Forgotten true k' false := by
  let fires : List (SleepAct Bool) := [.preempt 2, .exec 2 true, .preempt 3]
  let blocks : List (SleepAct Bool) := [.exec 3 true, .exec 3 true, .exec 3 true]
  let acts := sleeperSleeps 0 ++ fires ++ blocks
  let k := (sleepers.performAll true (fun _ _ => true) acts).get (by decide)
  have hreach : SleepReachable true (fun _ _ => true) k :=
    ⟨_, _, ⟨Scheduler.zeroed_init, fun _ h => by cases h⟩,
      SleepKernel.performAll_run (Option.some_get _).symm⟩
  have hforgotten : Forgotten true k false := ⟨by decide, by decide, by decide⟩
  exact ⟨k, hreach, by decide, fun k' hrun => hforgotten.run (SleepBase.of_reachable hreach) hrun⟩

end ChrisOS.Kern
