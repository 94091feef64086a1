import ChrisOS.Kern.MutexWaiters
import ChrisOS.Kern.SchedulerLive

/-!
# The mutex on the scheduler

The mutex system lets any thread act that is not marked blocked. In the kernel the same
statements run on the scheduler: only the current thread acts, a wait moves it to the blocked
list and switches away, a hand-over moves the new owner to the runnable list, and the timer
interrupt may switch threads between any two statements.

Every run of the kernel is a run of the scheduler and, with the threads in `thread_blocked`
taken as the blocked ones, a run of the mutex system. What holds of all runs of either
therefore holds of the kernel, and its only panic is a wait that leaves nobody to run.
-/

namespace ChrisOS.Kern

open ChrisOS.Utils ChrisOS.Lib

variable {τ : Type*} [DecidableEq τ]

/-- The scheduler with the threads added to it, and a mutex with the fields it uses in them. -/
structure MutexKernel (τ : Type*) where
  sched : Scheduler τ
  added : Set τ
  mutex : Mutex τ
  waitQueue : Links τ
  pc : τ → MutexPc
  depth : τ → ℕ

/-- The kernel as the mutex sees it: a thread is blocked when its state says so. -/
def MutexKernel.view (k : MutexKernel τ) : MutexSystem τ where
  mutex := k.mutex
  waitQueue := k.waitQueue
  blocked := fun t => decide (k.sched.state t = .blocked)
  pc := k.pc
  depth := k.depth

/-- The kernel as the scheduler sees it. -/
def MutexKernel.run (k : MutexKernel τ) : SchedRun τ := ⟨k.sched, k.added, ∅⟩

/-- Take over what a statement wrote outside the scheduler. -/
def MutexKernel.write (k : MutexKernel τ) (s : MutexSystem τ) : MutexKernel τ :=
  { k with mutex := s.mutex, waitQueue := s.waitQueue, pc := s.pc, depth := s.depth }

/-- Move a thread's program counter. -/
def MutexKernel.goto (k : MutexKernel τ) (t : τ) (pc : MutexPc) : MutexKernel τ :=
  { k with pc := Function.update k.pc t pc }

/-- Write the owner field. -/
def MutexKernel.setOwner (k : MutexKernel τ) (owner : Word) : MutexKernel τ :=
  { k with mutex := { k.mutex with owner := owner } }

/-- One turn of the loop in `scheduler_wait_object_acquire`, on the scheduler. -/
def MutexKernel.waitObjectAcquire (tid : τ → Word) (k : MutexKernel τ) (t : τ) (ticks : Word) :
    Option (MutexKernel τ) :=
  let result := syncValCompareAndSwap k.mutex.owner 0 (tid t)
  let k := k.setOwner result.2
  if result.1 ≠ tid t then do
    let sched ← schedulerMakeBlocked k.sched t
    let sched ← schedulerYield sched ticks
    some { k with sched := sched }
  else some (k.goto t .removeObserver)

/-- `mutex_release_and_wake_next_thread`, on the scheduler. -/
def MutexKernel.releaseAndWakeNextThread (tid : τ → Word) (k : MutexKernel τ) :
    Option (MutexKernel τ) :=
  match k.mutex.waitingThreads with
  | some next => do
    let sched ← schedulerMakeRunnable k.sched next
    some { k.setOwner (tid next) with sched := sched }
  | none => some (k.setOwner 0)

/-- Execute a thread's next statement. All but two leave the scheduler alone. -/
def MutexKernel.exec (tid : τ → Word) (k : MutexKernel τ) (t : τ) (ticks : Word) :
    Option (MutexKernel τ) :=
  match k.pc t with
  | .wait => k.waitObjectAcquire tid t ticks
  | .wake => (k.releaseAndWakeNextThread tid).map (·.goto t .idle)
  | _ => (execStatement tid k.view t).map k.write

/-- One step of the kernel: a new thread, a timer interrupt, or an act of the current thread. A
thread uses the mutex only after it was added. -/
inductive KernelStep (tid : τ → Word) (may : MutexSystem τ → τ → Prop) :
    MutexKernel τ → MutexKernel τ → Prop
  | add (k : MutexKernel τ) (t : τ) (sched : Scheduler τ) (hcreated : k.sched.state t = .created)
      (hnew : t ∉ k.added) (h : schedulerAddThread k.sched t = some sched) :
      KernelStep tid may k { k with sched := sched, added := insert t k.added }
  | preempt (k : MutexKernel τ) (ticks : Word) (sched : Scheduler τ)
      (h : schedulerYield k.sched ticks = some sched) :
      KernelStep tid may k { k with sched := sched }
  | acquire (k : MutexKernel τ) (t : τ) (hcurrent : k.sched.current = some t) (hadded : t ∈ k.added)
      (hmay : may k.view t) (hidle : k.pc t = .idle) : KernelStep tid may k (k.goto t .compare)
  | release (k : MutexKernel τ) (t : τ) (hcurrent : k.sched.current = some t) (hadded : t ∈ k.added)
      (hmay : may k.view t) (hidle : k.pc t = .idle) (hheld : 0 < k.depth t) :
      KernelStep tid may k (k.goto t .uncount)
  | exec (k k' : MutexKernel τ) (t : τ) (ticks : Word) (hcurrent : k.sched.current = some t)
      (hmay : may k.view t) (h : k.exec tid t ticks = some k') : KernelStep tid may k k'

/-- The kernel before any thread is added, after `mutex_init`. -/
def MutexKernel.initial (s : Scheduler τ) : MutexKernel τ where
  sched := s
  added := ∅
  mutex := (mutexInit τ).mutex
  waitQueue := (mutexInit τ).waitQueue
  pc := (mutexInit τ).pc
  depth := (mutexInit τ).depth

/-- The states of runs from an initial scheduler. -/
def KernelReachable (tid : τ → Word) (may : MutexSystem τ → τ → Prop) (s₀ : Scheduler τ)
    (k : MutexKernel τ) : Prop :=
  Relation.ReflTransGen (KernelStep tid may) (.initial s₀) k

/-- The two views of a reachable kernel are reachable, only added threads use the mutex and the
current thread is not blocked. -/
structure KernelInv (tid : τ → Word) (may : MutexSystem τ → τ → Prop) (s₀ : Scheduler τ)
    (k : MutexKernel τ) : Prop where
  sched : SchedReachable (fun _ _ => False) s₀ k.run
  mutex : MutexReachable tid may k.view
  busy : ∀ t, k.pc t ≠ .idle → t ∈ k.added
  current : ∀ t, k.sched.current = some t → k.sched.state t ≠ .blocked

omit [DecidableEq τ] in
/-- A view is determined by the fields and by who is blocked. -/
theorem MutexKernel.view_eq {k : MutexKernel τ} {s : MutexSystem τ} (hmutex : k.mutex = s.mutex)
    (hqueue : k.waitQueue = s.waitQueue) (hpc : k.pc = s.pc) (hdepth : k.depth = s.depth)
    (hblocked : ∀ t, k.sched.state t = .blocked ↔ s.blocked t = true) : k.view = s := by
  have hfun : k.view.blocked = s.blocked := by
    funext t
    exact Bool.eq_iff_iff.mpr (decide_eq_true_iff.trans (hblocked t))
  cases s
  subst hmutex hqueue hpc hdepth
  subst hfun
  rfl

variable {t : τ}

/-- A statement moves no other thread's program counter. -/
theorem Executes.pc_of_ne {tid : τ → Word} {s s' : MutexSystem τ} (h : Executes tid s t s') {x : τ}
    (hx : x ≠ t) : s'.pc x = s.pc x := by
  cases h with
  | takeAndBlock => rfl
  | block => rfl
  | wake =>
    have hpc : (mutexReleaseAndWakeNextThread tid s).pc = s.pc := by
      unfold mutexReleaseAndWakeNextThread
      cases s.mutex.waitingThreads <;> rfl
    rw [MutexSystem.goto_pc_of_ne _ hx, hpc]
  | _ => exact MutexSystem.goto_pc_of_ne _ hx _

/-- Only a wait and a hand-over change who is blocked. -/
theorem Executes.blocked_eq {tid : τ → Word} {s s' : MutexSystem τ} (h : Executes tid s t s')
    (hwait : s.pc t ≠ .wait) (hwake : s.pc t ≠ .wake) :
    s'.blocked = s.blocked := by
  cases h with
  | takeAndBlock hpc => exact absurd hpc hwait
  | block hpc => exact absurd hpc hwait
  | wake hpc => exact absurd hpc hwake
  | _ => rfl

/-- A statement of the kernel is a statement of the mutex and a run of the scheduler. -/
structure StatementRefines (tid : τ → Word) (k k' : MutexKernel τ) (t : τ) : Prop where
  mutex : execStatement tid k.view t = some k'.view
  sched : Relation.ReflTransGen (SchedStep fun _ _ => False) k.run k'.run
  added : k'.added = k.added
  current : ∀ u, k'.sched.current = some u → k'.sched.state u ≠ .blocked

/-- Seen from either side, the kernel has run from one state to another. -/
structure KernelRefines (tid : τ → Word) (may : MutexSystem τ → τ → Prop) (k k' : MutexKernel τ) :
    Prop where
  mutex : Relation.ReflTransGen (MutexStep tid may) k.view k'.view
  sched : Relation.ReflTransGen (SchedStep fun _ _ => False) k.run k'.run

section Refinement

variable {tid : τ → Word} {may : MutexSystem τ → τ → Prop} {s₀ : Scheduler τ} {k k' : MutexKernel τ}

/-- No thread has exited. -/
theorem KernelInv.live (h₀ : SchedInit s₀) (h : KernelInv tid may s₀ k) :
    SchedLive k.added k.sched :=
  ⟨s₀, h₀, h.sched⟩

/-- The head of the waiting list is inside `mutex_acquire`, so it was added. -/
theorem KernelInv.next_added (ids : ThreadIds tid) (h : KernelInv tid may s₀ k) {next : τ}
    (hnext : k.mutex.waitingThreads = some next) : next ∈ k.added := by
  obtain ⟨W, hwait⟩ := WaitInv.of_reachable ids h.mutex
  have hmem : next ∈ W := List.mem_of_head? (hwait.rep.head_eq.symm.trans hnext)
  refine h.busy next fun hidle => ?_
  obtain hpc | hpc := (hwait.mem_iff next).mp hmem
  · exact absurd (hpc.symm.trans hidle) (by decide)
  · exact absurd (hpc.symm.trans hidle) (by decide)

/-- A turn of the wait loop blocks the thread in the scheduler exactly when it does in the mutex. -/
theorem KernelInv.waitObjectAcquire (h₀ : SchedInit s₀) (h : KernelInv tid may s₀ k) {ticks : Word}
    (hpc : k.pc t = .wait) (hexec : k.waitObjectAcquire tid t ticks = some k') :
    StatementRefines tid k k' t := by
  have hstatement : execStatement tid k.view t = some (schedulerWaitObjectAcquire tid k.view t) := by
    unfold execStatement
    rw [show k.view.pc t = .wait from hpc]
  by_cases howner : k.mutex.owner = tid t
  · obtain rfl := Option.some.inj ((if_neg (not_not_intro howner)).symm.trans hexec)
    exact ⟨hstatement.trans (congrArg some (if_neg (not_not_intro howner))), .refl, rfl, h.current⟩
  · obtain ⟨s₁, hmake, hswitch⟩ := Option.bind_eq_some_iff.mp ((if_pos howner).symm.trans hexec)
    obtain ⟨s₂, hyield, hsome⟩ := Option.bind_eq_some_iff.mp hswitch
    cases hsome
    have hadded : t ∈ k.added := h.busy t (by rw [hpc]; decide)
    obtain ⟨hlive, _, hstate⟩ := (h.live h₀).makeBlocked hadded hmake
    have hblock : SchedStep (fun _ _ => False) k.run ⟨s₁, k.added, ∅⟩ :=
      .makeBlocked k.run t s₁ hadded (Set.notMem_empty t) hmake
    obtain ⟨_, hstates, hready⟩ := hlive.yield hyield
    refine ⟨?_, .tail (.single hblock) (.yield ⟨s₁, k.added, ∅⟩ ticks s₂ hyield), rfl, hready⟩
    refine hstatement.trans (congrArg some ((if_pos howner).trans
      (MutexKernel.view_eq rfl rfl rfl rfl fun x => (hstates x).trans ?_).symm))
    rw [hstate]
    by_cases hx : x = t
    · simp [hx]
    · simp [hx, MutexSystem.setOwner, MutexKernel.view]

/-- A hand-over wakes the same thread in the scheduler and in the mutex. -/
theorem KernelInv.releaseAndWakeNextThread (ids : ThreadIds tid) (h₀ : SchedInit s₀)
    (h : KernelInv tid may s₀ k) (hpc : k.pc t = .wake)
    (hexec : (k.releaseAndWakeNextThread tid).map (·.goto t .idle) = some k') :
    StatementRefines tid k k' t := by
  have hstatement : execStatement tid k.view t =
      some ((mutexReleaseAndWakeNextThread tid k.view).goto t .idle) := by
    unfold execStatement
    rw [show k.view.pc t = .wake from hpc]
  obtain ⟨k₁, hwake, rfl⟩ := Option.map_eq_some_iff.mp hexec
  unfold MutexKernel.releaseAndWakeNextThread at hwake
  unfold mutexReleaseAndWakeNextThread at hstatement
  cases hnext : k.mutex.waitingThreads with
  | none =>
    simp only [hnext] at hwake
    cases hwake
    refine ⟨?_, .refl, rfl, h.current⟩
    rw [hstatement, show k.view.mutex.waitingThreads = none from hnext]
    rfl
  | some next =>
    simp only [hnext] at hwake
    obtain ⟨s₁, hmake, hsome⟩ := Option.bind_eq_some_iff.mp hwake
    cases hsome
    have hadded := h.next_added ids hnext
    obtain ⟨_, hcurrent, hstate⟩ := (h.live h₀).makeRunnable hadded hmake
    have hstep : SchedStep (fun _ _ => False) k.run ⟨s₁, k.added, ∅⟩ :=
      .makeRunnable k.run next s₁ hadded (Set.notMem_empty next) hmake
    have hblocked : ∀ x, s₁.state x = .blocked ↔ x ≠ next ∧ k.sched.state x = .blocked := by
      intro x
      rw [hstate]
      exact blocked_woken_iff
    refine ⟨?_, .single hstep, rfl, fun u hu hfalse => ?_⟩
    · rw [hstatement, show k.view.mutex.waitingThreads = some next from hnext]
      refine congrArg some (MutexKernel.view_eq rfl rfl rfl rfl fun x => (hblocked x).trans ?_).symm
      by_cases hx : x = next
      · simp [hx, MutexSystem.goto]
      · simp [hx, MutexSystem.goto, MutexSystem.setOwner, MutexKernel.view]
    · exact h.current u (hcurrent.symm.trans hu) ((hblocked u).mp hfalse).2

/-- The statements other than the two that call the scheduler. -/
theorem MutexKernel.exec_of_ne (hwait : k.pc t ≠ .wait) (hwake : k.pc t ≠ .wake) (ticks : Word) :
    k.exec tid t ticks = (execStatement tid k.view t).map k.write := by
  unfold MutexKernel.exec
  split
  · next hpc => exact absurd hpc hwait
  · next hpc => exact absurd hpc hwake
  · rfl

/-- Every statement of the kernel is one of the mutex and a run of the scheduler. -/
theorem KernelInv.exec (ids : ThreadIds tid) (h₀ : SchedInit s₀) (h : KernelInv tid may s₀ k)
    {ticks : Word} (hexec : k.exec tid t ticks = some k') : StatementRefines tid k k' t := by
  by_cases hwait : k.pc t = .wait
  · simp only [MutexKernel.exec, hwait] at hexec
    exact h.waitObjectAcquire h₀ hwait hexec
  by_cases hwake : k.pc t = .wake
  · simp only [MutexKernel.exec, hwake] at hexec
    exact h.releaseAndWakeNextThread ids h₀ hwake hexec
  rw [MutexKernel.exec_of_ne hwait hwake] at hexec
  obtain ⟨s', hstatement, rfl⟩ := Option.map_eq_some_iff.mp hexec
  obtain ⟨W, hinv⟩ := WaitInv.of_reachable ids h.mutex
  have hblocked := (hinv.executes ids hstatement).blocked_eq hwait hwake
  refine ⟨hstatement.trans (congrArg some (MutexKernel.view_eq rfl rfl rfl rfl fun x => ?_).symm),
    .refl, rfl, h.current⟩
  rw [hblocked]
  exact decide_eq_true_iff.symm

/-- The move of an added thread keeps all threads that use the mutex among the added ones. -/
theorem KernelInv.busy_goto (h : KernelInv tid may s₀ k) (hadded : t ∈ k.added) (pc : MutexPc) (x : τ)
    (hx : (k.goto t pc).pc x ≠ .idle) : x ∈ k.added := by
  by_cases hxt : x = t
  · exact hxt ▸ hadded
  · have hsame : (k.goto t pc).pc x = k.pc x := Function.update_of_ne hxt ..
    exact h.busy x fun hidle => hx (hsame.trans hidle)

/-- A step refines a run of either side, and keeps the rest of the invariant. -/
theorem KernelInv.refines (ids : ThreadIds tid) (h₀ : SchedInit s₀) (h : KernelInv tid may s₀ k)
    (hstep : KernelStep tid may k k') :
    KernelRefines tid may k k' ∧ (∀ t, k'.pc t ≠ .idle → t ∈ k'.added) ∧
      ∀ t, k'.sched.current = some t → k'.sched.state t ≠ .blocked := by
  have hready : ∀ t, k.sched.current = some t → k.view.blocked t = false := fun t ht =>
    decide_eq_false (h.current t ht)
  cases hstep with
  | add t sched hcreated hnew hadd =>
    obtain ⟨_, hcurrent, hstate⟩ := (h.live h₀).addThread hcreated hnew hadd
    have hblocked : ∀ x, sched.state x = .blocked ↔ k.sched.state x = .blocked := by
      intro x
      rw [hstate]
      exact blocked_added_iff hcreated
    have hview : MutexKernel.view { k with sched := sched, added := insert t k.added } = k.view :=
      MutexKernel.view_eq rfl rfl rfl rfl fun x => (hblocked x).trans decide_eq_true_iff.symm
    refine ⟨⟨hview ▸ .refl, .single (.add k.run t sched hcreated hnew hadd)⟩,
      fun x hx => Or.inr (h.busy x hx), fun u hu hfalse => ?_⟩
    exact h.current u (hcurrent.symm.trans hu) ((hblocked u).mp hfalse)
  | preempt ticks sched hyield =>
    obtain ⟨_, hstates, hcurrent⟩ := (h.live h₀).yield hyield
    have hview : MutexKernel.view { k with sched := sched } = k.view :=
      MutexKernel.view_eq rfl rfl rfl rfl fun x => (hstates x).trans decide_eq_true_iff.symm
    exact ⟨⟨hview ▸ .refl, .single (.yield k.run ticks sched hyield)⟩, h.busy, hcurrent⟩
  | acquire t hcurrent hadded hmay hidle =>
    exact ⟨⟨.single (.act (.acquire t) (hready t hcurrent) hmay (if_pos hidle)), .refl⟩,
      h.busy_goto hadded .compare, h.current⟩
  | release t hcurrent hadded hmay hidle hheld =>
    exact ⟨⟨.single (.act (.release t) (hready t hcurrent) hmay (if_pos ⟨hidle, hheld⟩)), .refl⟩,
      h.busy_goto hadded .uncount, h.current⟩
  | exec k' t ticks hcurrent hmay hexec =>
    have hrefines := h.exec ids h₀ hexec
    obtain ⟨W, hinv⟩ := WaitInv.of_reachable ids h.mutex
    have hexecutes := hinv.executes ids hrefines.mutex
    refine ⟨⟨.single (.act (.exec t) (hready t hcurrent) hmay hrefines.mutex), hrefines.sched⟩,
      fun x hx => ?_, hrefines.current⟩
    rw [hrefines.added]
    by_cases hxt : x = t
    · refine h.busy x fun hidle => ?_
      have hnone : execStatement tid k.view t = none := by
        unfold execStatement
        rw [show k.view.pc t = .idle from hxt ▸ hidle]
      exact Option.some_ne_none _ (hrefines.mutex.symm.trans hnone)
    · exact h.busy x fun hidle => hx ((hexecutes.pc_of_ne hxt).trans hidle)

/-- A run of the kernel refines a run of either side and keeps the invariant. -/
theorem KernelInv.run (ids : ThreadIds tid) (h₀ : SchedInit s₀) (h : KernelInv tid may s₀ k)
    (hrun : Relation.ReflTransGen (KernelStep tid may) k k') :
    KernelRefines tid may k k' ∧ KernelInv tid may s₀ k' := by
  induction hrun with
  | refl => exact ⟨⟨.refl, .refl⟩, h⟩
  | tail _ hstep ih =>
    obtain ⟨hrefines, hinv⟩ := ih
    obtain ⟨hnext, hbusy, hcurrent⟩ := hinv.refines ids h₀ hstep
    exact ⟨⟨hrefines.mutex.trans hnext.mutex, hrefines.sched.trans hnext.sched⟩,
      hinv.sched.trans hnext.sched, hinv.mutex.trans hnext.mutex, hbusy, hcurrent⟩

omit [DecidableEq τ] in
/-- Nobody is blocked before the first thread is added. -/
theorem MutexKernel.initial_view (h₀ : KernelInit s₀) : (initial s₀).view = mutexInit τ :=
  MutexKernel.view_eq rfl rfl rfl rfl fun t => iff_of_false (h₀.ready t) Bool.false_ne_true

/-- The invariant holds of every reachable kernel. -/
theorem KernelInv.of_reachable (ids : ThreadIds tid) (h₀ : KernelInit s₀)
    (hk : KernelReachable tid may s₀ k) : KernelInv tid may s₀ k := by
  have hinit : KernelInv tid may s₀ (.initial s₀) := by
    refine ⟨.refl, ?_, fun t ht => absurd rfl ht, fun t _ => h₀.ready t⟩
    rw [MutexKernel.initial_view h₀]
    exact .refl
  exact (hinit.run ids h₀.toSchedInit hk).2

end Refinement

section Results

variable {tid : τ → Word} {may : MutexSystem τ → τ → Prop} {s₀ : Scheduler τ} {k : MutexKernel τ}

/-- No statement of the current thread fails an assertion; it panics only if the thread has to wait
and every other thread is blocked. -/
theorem kernel_exec_returns (ids : ThreadIds tid) (h₀ : KernelInit s₀)
    (hk : KernelReachable tid may s₀ k) {t : τ} (hcurrent : k.sched.current = some t)
    (hbusy : k.pc t ≠ .idle) (ticks : Word) :
    (k.exec tid t ticks).isSome ∨ (k.pc t = .wait ∧ k.mutex.owner ≠ tid t ∧
      ∀ u ∈ k.added, u ≠ t → k.sched.state u = .blocked) := by
  have hinv := KernelInv.of_reachable ids h₀ hk
  by_cases hwait : k.pc t = .wait
  · have hexec : k.exec tid t ticks = k.waitObjectAcquire tid t ticks := by
      simp only [MutexKernel.exec, hwait]
    rw [hexec]
    by_cases howner : k.mutex.owner = tid t
    · exact Or.inl (Option.isSome_of_eq_some (if_neg (not_not_intro howner)))
    have hadded := hinv.busy t hbusy
    obtain ⟨s, hmake⟩ := (hinv.live h₀.toSchedInit).exists_makeBlocked hadded
    obtain ⟨hlive, _, hstate⟩ := (hinv.live h₀.toSchedInit).makeBlocked hadded hmake
    have hswitch : ∀ s', schedulerYield s ticks = some s' →
        (k.waitObjectAcquire tid t ticks).isSome := by
      intro s' hyield
      have hbind : k.waitObjectAcquire tid t ticks = _ := if_pos howner
      rw [hbind]
      simp only [MutexKernel.setOwner, hmake, hyield, Option.bind_eq_bind, Option.bind_some,
        Option.isSome_some]
    obtain hsome | hall := hlive.yield_isSome ticks
    · obtain ⟨s', hyield⟩ := Option.isSome_iff_exists.mp hsome
      exact Or.inl (hswitch s' hyield)
    · refine Or.inr ⟨hwait, howner, fun u hu hut => ?_⟩
      have hblocked := hall u hu
      rwa [hstate, Function.update_of_ne hut] at hblocked
  left
  by_cases hwake : k.pc t = .wake
  · simp only [MutexKernel.exec, hwake, Option.isSome_map, MutexKernel.releaseAndWakeNextThread]
    cases hnext : k.mutex.waitingThreads with
    | none => rfl
    | some next =>
      obtain ⟨s, hmake⟩ :=
        (hinv.live h₀.toSchedInit).exists_makeRunnable (hinv.next_added ids hnext)
      simp only [hmake, Option.bind_eq_bind, Option.bind_some, Option.isSome_some]
  · obtain ⟨W, hlist⟩ := WaitInv.of_reachable ids hinv.mutex
    obtain ⟨s', _, hexec, _⟩ := hlist.exec ids (decide_eq_false (hinv.current t hcurrent)) hbusy
    rw [MutexKernel.exec_of_ne hwait hwake, hexec]
    rfl

/-- What happens once all threads are added. -/
inductive KernelAct (τ : Type*)
  | preempt (ticks : Word)
  | acquire (t : τ)
  | release (t : τ)
  | exec (t : τ) (ticks : Word)

/-- Carry it out, if it can happen. -/
def MutexKernel.perform (tid : τ → Word) (k : MutexKernel τ) : KernelAct τ → Option (MutexKernel τ)
  | .preempt ticks => (schedulerYield k.sched ticks).map fun sched => { k with sched := sched }
  | .acquire t =>
    if k.sched.current = some t ∧ k.pc t = .idle then some (k.goto t .compare) else none
  | .release t =>
    if k.sched.current = some t ∧ k.pc t = .idle ∧ 0 < k.depth t then some (k.goto t .uncount)
    else none
  | .exec t ticks => if k.sched.current = some t then k.exec tid t ticks else none

theorem KernelReachable.perform (ids : ThreadIds tid) (h₀ : KernelInit s₀) {act : KernelAct τ}
    {k' : MutexKernel τ} (hk : KernelReachable tid (fun _ _ => True) s₀ k) (hall : ∀ t, t ∈ k.added)
    (h : k.perform tid act = some k') :
    KernelReachable tid (fun _ _ => True) s₀ k' ∧ ∀ t, t ∈ k'.added := by
  cases act with
  | preempt ticks =>
    obtain ⟨sched, hyield, rfl⟩ := Option.map_eq_some_iff.mp h
    exact ⟨hk.tail (.preempt k ticks sched hyield), hall⟩
  | acquire t =>
    obtain ⟨⟨hcurrent, hidle⟩, hk'⟩ := Option.ite_none_right_eq_some.mp h
    obtain rfl := Option.some.inj hk'
    exact ⟨hk.tail (.acquire k t hcurrent (hall t) trivial hidle), hall⟩
  | release t =>
    obtain ⟨⟨hcurrent, hidle, hheld⟩, hk'⟩ := Option.ite_none_right_eq_some.mp h
    obtain rfl := Option.some.inj hk'
    exact ⟨hk.tail (.release k t hcurrent (hall t) trivial hidle hheld), hall⟩
  | exec t ticks =>
    obtain ⟨hcurrent, hexec⟩ := Option.ite_none_right_eq_some.mp h
    have hadded := ((KernelInv.of_reachable ids h₀ hk).exec ids h₀.toSchedInit hexec).added
    exact ⟨hk.tail (.exec k k' t ticks hcurrent trivial hexec), hadded ▸ hall⟩

theorem KernelReachable.performs (ids : ThreadIds tid) (h₀ : KernelInit s₀) {acts : List (KernelAct τ)}
    {k' : MutexKernel τ} (hk : KernelReachable tid (fun _ _ => True) s₀ k) (hall : ∀ t, t ∈ k.added)
    (h : acts.foldlM (MutexKernel.perform tid) k = some k') :
    KernelReachable tid (fun _ _ => True) s₀ k' ∧ ∀ t, t ∈ k'.added := by
  induction acts generalizing k with
  | nil => exact Option.some.inj h ▸ ⟨hk, hall⟩
  | cons act acts ih =>
    rw [List.foldlM_cons] at h
    obtain ⟨k₁, hact, hrest⟩ := Option.bind_eq_some_iff.mp h
    obtain ⟨hk₁, hall₁⟩ := hk.perform ids h₀ hall hact
    exact ih hk₁ hall₁ hrest

/-- The first thread takes the mutex and is preempted, and the second comes to wait for it. -/
def untilWait : List (KernelAct Bool) :=
  [.preempt 1, .acquire false, .exec false 1, .exec false 1, .exec false 1, .exec false 1, .exec false 1,
    .preempt 2, .acquire true, .exec true 2, .exec true 2]

/-- The second waits, so the first goes on, up to the hand-over. -/
def untilWake : List (KernelAct Bool) :=
  [.exec true 3, .release false, .exec false 3, .exec false 3]

/-- Two threads, one of which has to wait, and is woken when the other releases the mutex. -/
theorem kernel_exec_returns_contended :
    (∃ k : MutexKernel Bool, KernelReachable twoIds (fun _ _ => True) .zeroed k ∧
      k.pc true = .wait ∧ k.mutex.owner = twoIds false ∧ (k.exec twoIds true 3).isSome) ∧
    ∃ k : MutexKernel Bool, KernelReachable twoIds (fun _ _ => True) .zeroed k ∧
      k.pc false = .wake ∧ k.sched.state true = .blocked ∧ (k.exec twoIds false 4).isSome := by
  have h₀ : KernelInit (Scheduler.zeroed : Scheduler Bool) :=
    ⟨Scheduler.zeroed_init, fun _ h => by cases h⟩
  let s₁ := (schedulerAddThread (Scheduler.zeroed : Scheduler Bool) false).get (by decide)
  let s₂ := (schedulerAddThread s₁ true).get (by decide)
  let k : MutexKernel Bool :=
    { MutexKernel.initial .zeroed with sched := s₂, added := insert true (insert false ∅) }
  have hfirst : KernelReachable twoIds (fun _ _ => True) .zeroed
      { MutexKernel.initial .zeroed with sched := s₁, added := insert false ∅ } :=
    .tail .refl (.add _ false s₁ rfl (Set.notMem_empty _) (Option.some_get _).symm)
  have hk : KernelReachable twoIds (fun _ _ => True) .zeroed k :=
    hfirst.tail (.add _ true s₂ (by decide) (by simp) (Option.some_get _).symm)
  have hall : ∀ t, t ∈ k.added := fun t => by cases t <;> simp [k]
  let kWait := (untilWait.foldlM (MutexKernel.perform twoIds) k).get (by decide)
  let kWake := ((untilWait ++ untilWake).foldlM (MutexKernel.perform twoIds) k).get (by decide)
  obtain ⟨hwait, hallWait⟩ : KernelReachable twoIds (fun _ _ => True) .zeroed kWait ∧
    ∀ t, t ∈ kWait.added := hk.performs twoIds_threadIds h₀ hall (Option.some_get _).symm
  obtain ⟨hwake, -⟩ : KernelReachable twoIds (fun _ _ => True) .zeroed kWake ∧
    ∀ t, t ∈ kWake.added := hk.performs twoIds_threadIds h₀ hall (Option.some_get _).symm
  refine ⟨⟨kWait, hwait, by decide, by decide, ?_⟩, kWake, hwake, by decide, by decide, ?_⟩
  · obtain hsome | ⟨-, -, hblocked⟩ := kernel_exec_returns twoIds_threadIds h₀ hwait (t := true)
      (by decide) (by decide) 3
    · exact hsome
    · exact absurd (hblocked false (hallWait false) (by decide)) (by decide)
  · obtain hsome | ⟨hpc, -⟩ := kernel_exec_returns twoIds_threadIds h₀ hwake (t := false) (by decide)
      (by decide) 4
    · exact hsome
    · exact absurd hpc (by decide)

end Results

end ChrisOS.Kern
