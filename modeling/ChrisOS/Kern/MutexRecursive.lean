import ChrisOS.Kern.MutexContract
import ChrisOS.Lib.CallRun

/-!
# The mutex as a recursive lock

Whole calls of `mutex_trylock`, `mutex_acquire` and `mutex_release`, made one after the other so
that none has to wait, against a lock that has a holder and a depth.

The compare-and-swap in `mutex_trylock` returns the owner it found, and the function compares that
with the caller: a mutex that was free is taken, but the call returns false and does not count.
`mutex_acquire` treats the two cases of a compare-and-swap the same way and recovers in
`scheduler_wait_object_acquire`. The two agree with the lock as long as `mutex_trylock` is called
only while somebody holds the mutex.
-/

namespace ChrisOS.Kern

open ChrisOS.Utils ChrisOS.Lib

/-- The calls of the mutex functions. -/
inductive MutexCall (τ : Type*)
  | trylock (t : τ)
  | acquire (t : τ)
  | release (t : τ)

/-- A recursive lock: who holds it and how often. -/
structure RecursiveLock (τ : Type*) where
  holder : Option τ
  depth : ℕ
deriving DecidableEq

section Lock

variable {τ : Type*} [DecidableEq τ]

/-- A lock nobody holds. -/
def RecursiveLock.free : RecursiveLock τ := ⟨none, 0⟩

/-- A thread can take the lock. -/
def RecursiveLock.AvailableTo (lock : RecursiveLock τ) (t : τ) : Prop :=
  lock.holder = none ∨ lock.holder = some t

instance (lock : RecursiveLock τ) (t : τ) : Decidable (lock.AvailableTo t) :=
  inferInstanceAs (Decidable (_ ∨ _))

/-- The lock taken once more. -/
def RecursiveLock.take (lock : RecursiveLock τ) (t : τ) : RecursiveLock τ :=
  ⟨some t, lock.depth + 1⟩

/-- The lock given up once. -/
def RecursiveLock.give (lock : RecursiveLock τ) : RecursiveLock τ :=
  ⟨if lock.depth = 1 then none else lock.holder, lock.depth - 1⟩

/-- What a call does to the lock, and what `trylock` returns. Only a thread that need not wait calls
`acquire`, and only the holder calls `release`. -/
def RecursiveLock.call (lock : RecursiveLock τ) :
    MutexCall τ → Option (Option Bool × RecursiveLock τ)
  | .trylock t =>
    if lock.AvailableTo t then some (some true, lock.take t) else some (some false, lock)
  | .acquire t => if lock.AvailableTo t then some (none, lock.take t) else none
  | .release t => if lock.holder = some t then some (none, lock.give) else none

/-- The owner field for a lock. -/
def RecursiveLock.ownerTid (tid : τ → Word) (lock : RecursiveLock τ) : Word :=
  (lock.holder.map tid).getD 0

/-- `mutex_trylock`. -/
def mutexTrylock (tid : τ → Word) (s : MutexSystem τ) (t : τ) : Bool × MutexSystem τ :=
  let result := syncValCompareAndSwap s.mutex.owner 0 (tid t)
  let s := s.setOwner result.2
  if result.1 = tid t then (true, countNested s t) else (false, s)

/-- Execute the statements of the function a thread is in until it returns. There is no result if
the thread has to wait. -/
def finishCall (tid : τ → Word) : ℕ → MutexSystem τ → τ → Option (MutexSystem τ)
  | 0, s, t => if s.pc t = .idle then some s else none
  | fuel + 1, s, t =>
    if s.pc t = .idle then some s
    else if s.blocked t then none
    else (execStatement tid s t).bind (finishCall tid fuel · t)

/-- `mutex_acquire`. -/
def mutexAcquire (tid : τ → Word) (fuel : ℕ) (s : MutexSystem τ) (t : τ) : Option (MutexSystem τ) :=
  finishCall tid fuel (s.goto t .compare) t

/-- `mutex_release`. -/
def mutexRelease (tid : τ → Word) (fuel : ℕ) (s : MutexSystem τ) (t : τ) : Option (MutexSystem τ) :=
  finishCall tid fuel (s.goto t .uncount) t

/-- A whole call, with what it returns. -/
def mutexCall (tid : τ → Word) (fuel : ℕ) (s : MutexSystem τ) :
    MutexCall τ → Option (Option Bool × MutexSystem τ)
  | .trylock t =>
    let result := mutexTrylock tid s t
    some (some result.1, result.2)
  | .acquire t => (mutexAcquire tid fuel s t).map fun s => (none, s)
  | .release t => (mutexRelease tid fuel s t).map fun s => (none, s)

/-- A call of `trylock` only finds a lock that is held, and no call that takes the lock brings its depth
past 32 bits. -/
def TrylocksHeld (lock : RecursiveLock τ) : MutexCall τ → Prop
  | .trylock t => lock.holder ≠ none ∧ (lock.holder = some t → lock.depth + 1 < 2 ^ 32)
  | .acquire _ => lock.depth + 1 < 2 ^ 32
  | .release _ => True

end Lock

/-- Every thread is outside the mutex functions and nobody waits. -/
structure Quiescent {τ : Type*} (s : MutexSystem τ) : Prop where
  queue : s.mutex.waitingThreads = none
  unlinked : ∀ t, s.waitQueue.next t = none
  idle : ∀ t, s.pc t = .idle
  ready : ∀ t, s.blocked t = false

/-- The mutex stands for the lock. -/
structure StandsFor {τ : Type*} (tid : τ → Word) (lock : RecursiveLock τ) (s : MutexSystem τ) :
    Prop where
  quiescent : Quiescent s
  owner : s.mutex.owner = lock.ownerTid tid
  nested : s.mutex.nested.toNat = lock.depth
  held : lock.holder = none ↔ lock.depth = 0

section Calls

variable {τ : Type*} [DecidableEq τ] {tid : τ → Word} {s s' : MutexSystem τ} {t : τ}

theorem finishCall_of_idle (h : s.pc t = .idle) (fuel : ℕ) : finishCall tid fuel s t = some s := by
  cases fuel <;> rw [finishCall, if_pos h]

theorem finishCall_of_exec (hexec : execStatement tid s t = some s') (hready : s.blocked t = false)
    (fuel : ℕ) : finishCall tid (fuel + 1) s t = finishCall tid fuel s' t := by
  have hbusy : s.pc t ≠ .idle := fun hidle => by simp [execStatement, hidle] at hexec
  have hrun : ¬ s.blocked t = true := fun h => Bool.false_ne_true (hready.symm.trans h)
  rw [finishCall, if_neg hbusy, if_neg hrun, hexec, Option.bind_some]

/-- After statements of one thread that leave the queue empty, everything is quiet again. -/
theorem Quiescent.of_goto (h : Quiescent s) (hqueue : s'.mutex.waitingThreads = none)
    (hunlinked : ∀ x, s'.waitQueue.next x = none) (hready : s'.blocked = s.blocked)
    (hpc : ∀ x, x ≠ t → s'.pc x = s.pc x) : Quiescent (s'.goto t .idle) where
  queue := hqueue
  unlinked := hunlinked
  idle x := by
    by_cases hx : x = t
    · rw [hx, MutexSystem.goto_pc_self]
    · rw [MutexSystem.goto_pc_of_ne _ hx, hpc x hx, h.idle x]
  ready x := by
    change s'.blocked x = false
    rw [hready, h.ready x]

/-- Counting leaves everything quiet. -/
theorem Quiescent.countNested (h : Quiescent s) : Quiescent (countNested s t) :=
  ⟨h.queue, h.unlinked, h.idle, h.ready⟩

/-- One thread on an otherwise empty list of waiting threads. -/
def MutexSystem.queued (s : MutexSystem τ) (t : τ) : MutexSystem τ :=
  { s with
    waitQueue := (s.waitQueue.setPrev t (some t)).setNext t none
    mutex := { s.mutex with waitingThreads := some t } }

theorem mutexAddObserver_of_empty (hqueue : s.mutex.waitingThreads = none)
    (hunlinked : s.waitQueue.next t = none) : mutexAddObserver s t = some (s.queued t) := by
  rw [mutexAddObserver, if_neg (not_not_intro hunlinked), hqueue]
  rfl

/-- The thread takes itself off the list, which is empty again. -/
theorem mutexRemoveObserver_of_queued (hprev : s.waitQueue.prev t = some t) :
    mutexRemoveObserver s t = some
      { s with
        waitQueue := (s.waitQueue.setNext t none).setPrev t none
        mutex := { s.mutex with waitingThreads := none } } := by
  rw [mutexRemoveObserver, dlDelete, hprev]
  simp only [if_true, Option.map_some]

variable {fuel : ℕ}

/-- `mutex_acquire` of a free mutex goes through the list of waiting threads and back. -/
theorem mutexAcquire_of_free (ids : ThreadIds tid) (h : Quiescent s) (hfree : s.mutex.owner = 0)
    (hfuel : 5 ≤ fuel) (t : τ) :
    ∃ s', mutexAcquire tid fuel s t = some s' ∧ Quiescent s' ∧ s'.mutex.owner = tid t ∧
      s'.mutex.nested = s.mutex.nested + 1 := by
  obtain ⟨n, rfl⟩ : ∃ n, fuel = n + 5 := ⟨fuel - 5, by omega⟩
  let taken := ((s.goto t .compare).setOwner (tid t)).goto t .addObserver
  let waiting := (taken.queued t).goto t .wait
  let woken := waiting.goto t .removeObserver
  let left := MutexSystem.goto
    { woken with
      waitQueue := (woken.waitQueue.setNext t none).setPrev t none
      mutex := { woken.mutex with waitingThreads := none } } t .count
  have hcompare : execStatement tid (s.goto t .compare) t = some taken := by
    obtain ⟨_, heq⟩ | ⟨hself, _⟩ | ⟨hheld, _⟩ := compareOwner_cases ids (s.goto t .compare) t
    · rw [execStatement, MutexSystem.goto_pc_self]
      exact congrArg some heq
    · exact absurd (hself.symm.trans hfree) (ids.ne_zero t)
    · exact absurd hfree hheld
  have hadd : execStatement tid taken t = some waiting := by
    rw [execStatement, MutexSystem.goto_pc_self]
    dsimp only
    rw [show mutexAddObserver taken t = _ from mutexAddObserver_of_empty h.queue (h.unlinked t)]
    rfl
  have hwait : execStatement tid waiting t = some woken := by
    obtain ⟨hzero, _⟩ | ⟨_, heq⟩ | ⟨_, hother, _⟩ := schedulerWaitObjectAcquire_cases ids waiting t
    · exact absurd hzero (ids.ne_zero t)
    · rw [execStatement, MutexSystem.goto_pc_self]
      exact congrArg some heq
    · exact absurd rfl hother
  have hremove : execStatement tid woken t = some left := by
    rw [execStatement, MutexSystem.goto_pc_self]
    dsimp only
    rw [show mutexRemoveObserver woken t = _ from
      mutexRemoveObserver_of_queued (Function.update_self ..)]
    rfl
  have hcount : execStatement tid left t = some ((countNested left t).goto t .idle) := by
    rw [execStatement, MutexSystem.goto_pc_self]
  refine ⟨(countNested left t).goto t .idle, ?_, ?_, rfl, rfl⟩
  · calc mutexAcquire tid (n + 5) s t
        = finishCall tid (n + 4) taken t := finishCall_of_exec hcompare (h.ready t) _
      _ = finishCall tid (n + 3) waiting t := finishCall_of_exec hadd (h.ready t) _
      _ = finishCall tid (n + 2) woken t := finishCall_of_exec hwait (h.ready t) _
      _ = finishCall tid (n + 1) left t := finishCall_of_exec hremove (h.ready t) _
      _ = finishCall tid n ((countNested left t).goto t .idle) t :=
        finishCall_of_exec hcount (h.ready t) _
      _ = some ((countNested left t).goto t .idle) :=
        finishCall_of_idle (MutexSystem.goto_pc_self ..) _
  · refine h.of_goto rfl (fun x => ?_) rfl fun x hx => ?_
    · change Function.update (Function.update s.waitQueue.next t none) t none x = none
      by_cases hx : x = t
      · rw [hx, Function.update_self]
      · rw [Function.update_of_ne hx, Function.update_of_ne hx, h.unlinked x]
    · simp only [left, woken, waiting, taken, countNested, MutexSystem.queued, MutexSystem.setOwner,
        MutexSystem.goto, Function.update_of_ne hx]

/-- `mutex_acquire` by the owner only counts. -/
theorem mutexAcquire_of_owner (ids : ThreadIds tid) (h : Quiescent s) (howner : s.mutex.owner = tid t)
    (hfuel : 2 ≤ fuel) :
    ∃ s', mutexAcquire tid fuel s t = some s' ∧ Quiescent s' ∧ s'.mutex.owner = tid t ∧
      s'.mutex.nested = s.mutex.nested + 1 := by
  obtain ⟨n, rfl⟩ : ∃ n, fuel = n + 2 := ⟨fuel - 2, by omega⟩
  let own := (s.goto t .compare).goto t .count
  have hcompare : execStatement tid (s.goto t .compare) t = some own := by
    obtain ⟨hfree, _⟩ | ⟨_, heq⟩ | ⟨_, hother, _⟩ := compareOwner_cases ids (s.goto t .compare) t
    · exact absurd (howner.symm.trans hfree) (ids.ne_zero t)
    · rw [execStatement, MutexSystem.goto_pc_self]
      exact congrArg some heq
    · exact absurd howner hother
  have hcount : execStatement tid own t = some ((countNested own t).goto t .idle) := by
    rw [execStatement, MutexSystem.goto_pc_self]
  refine ⟨(countNested own t).goto t .idle, ?_, ?_, howner, rfl⟩
  · calc mutexAcquire tid (n + 2) s t
        = finishCall tid (n + 1) own t := finishCall_of_exec hcompare (h.ready t) _
      _ = finishCall tid n ((countNested own t).goto t .idle) t :=
        finishCall_of_exec hcount (h.ready t) _
      _ = some ((countNested own t).goto t .idle) :=
        finishCall_of_idle (MutexSystem.goto_pc_self ..) _
  · refine h.of_goto h.queue h.unlinked rfl fun x hx => ?_
    simp only [own, countNested, MutexSystem.goto, Function.update_of_ne hx]

/-- `mutex_release` without waiting threads counts down and clears the owner at zero. -/
theorem mutexRelease_of_quiescent (tid : τ → Word) (h : Quiescent s) (hfuel : 3 ≤ fuel) (t : τ) :
    ∃ s', mutexRelease tid fuel s t = some s' ∧ Quiescent s' ∧
      s'.mutex.nested = s.mutex.nested - 1 ∧
      s'.mutex.owner = if s.mutex.nested - 1 = 0 then 0 else s.mutex.owner := by
  obtain ⟨n, rfl⟩ : ∃ n, fuel = n + 3 := ⟨fuel - 3, by omega⟩
  let counted := (uncountNested (s.goto t .uncount) t).goto t .test
  have hcount : execStatement tid (s.goto t .uncount) t = some counted := by
    rw [execStatement, MutexSystem.goto_pc_self]
  have hquiet : ∀ x, x ≠ t → counted.pc x = s.pc x := fun x hx => by
    simp only [counted, uncountNested, MutexSystem.goto, Function.update_of_ne hx]
  by_cases hlast : s.mutex.nested - 1 = 0
  · let last := counted.goto t .wake
    have htest : execStatement tid counted t = some last := by
      rw [execStatement, MutexSystem.goto_pc_self]
      dsimp only
      rw [show counted.mutex.nested = 0 from hlast, if_pos rfl]
    have hwake : execStatement tid last t = some ((last.setOwner 0).goto t .idle) := by
      rw [execStatement, MutexSystem.goto_pc_self, mutexReleaseAndWakeNextThread,
        show last.mutex.waitingThreads = none from h.queue]
    refine ⟨(last.setOwner 0).goto t .idle, ?_, ?_, rfl, (if_pos hlast).symm⟩
    · calc mutexRelease tid (n + 3) s t
          = finishCall tid (n + 2) counted t := finishCall_of_exec hcount (h.ready t) _
        _ = finishCall tid (n + 1) last t := finishCall_of_exec htest (h.ready t) _
        _ = finishCall tid n ((last.setOwner 0).goto t .idle) t :=
          finishCall_of_exec hwake (h.ready t) _
        _ = some ((last.setOwner 0).goto t .idle) :=
          finishCall_of_idle (MutexSystem.goto_pc_self ..) _
    · refine h.of_goto h.queue h.unlinked rfl fun x hx => ?_
      exact (MutexSystem.goto_pc_of_ne _ hx _).trans (hquiet x hx)
  · have htest : execStatement tid counted t = some (counted.goto t .idle) := by
      rw [execStatement, MutexSystem.goto_pc_self]
      dsimp only
      rw [if_neg (show ¬ counted.mutex.nested = 0 from hlast)]
    refine ⟨counted.goto t .idle, ?_, h.of_goto h.queue h.unlinked rfl hquiet, rfl,
      (if_neg hlast).symm⟩
    calc mutexRelease tid (n + 3) s t
        = finishCall tid (n + 2) counted t := finishCall_of_exec hcount (h.ready t) _
      _ = finishCall tid (n + 1) (counted.goto t .idle) t :=
        finishCall_of_exec htest (h.ready t) _
      _ = some (counted.goto t .idle) := finishCall_of_idle (MutexSystem.goto_pc_self ..) _

/-- What the compare-and-swap of `mutex_trylock` leads to. -/
theorem mutexTrylock_cases (ids : ThreadIds tid) (s : MutexSystem τ) (t : τ) :
    (s.mutex.owner = 0 ∧ mutexTrylock tid s t = (false, s.setOwner (tid t))) ∨
    (s.mutex.owner = tid t ∧ mutexTrylock tid s t = (true, countNested s t)) ∨
    (s.mutex.owner ≠ 0 ∧ s.mutex.owner ≠ tid t ∧ mutexTrylock tid s t = (false, s)) := by
  unfold mutexTrylock
  obtain ⟨hzero, hswap⟩ | ⟨hself, hswap⟩ | ⟨hzero, hself, hswap⟩ :=
    syncValCompareAndSwap_owner s.mutex.owner (tid t)
  · exact Or.inl ⟨hzero, by simp only [hswap, if_neg (ids.ne_zero t).symm]⟩
  · refine Or.inr (Or.inl ⟨hself, ?_⟩)
    simp only [hswap, if_pos hself]
    rfl
  · refine Or.inr (Or.inr ⟨hzero, hself, ?_⟩)
    simp only [hswap, if_neg hself]
    rfl

end Calls

section Correspondence

variable {τ : Type*} {tid : τ → Word} {lock : RecursiveLock τ} {s s' : MutexSystem τ} {t : τ}

theorem standsFor_init : StandsFor tid RecursiveLock.free (mutexInit τ) where
  quiescent := ⟨rfl, fun _ => rfl, fun _ => rfl, fun _ => rfl⟩
  owner := rfl
  nested := rfl
  held := iff_of_true rfl rfl

/-- The owner field while a thread holds the lock. -/
theorem StandsFor.owner_of_holder (h : StandsFor tid lock s) (hholder : lock.holder = some t) :
    s.mutex.owner = tid t := by
  rw [h.owner, RecursiveLock.ownerTid, hholder]
  rfl

/-- The owner field of a free lock. -/
theorem StandsFor.owner_of_free (h : StandsFor tid lock s) (hfree : lock.holder = none) :
    s.mutex.owner = 0 := by
  rw [h.owner, RecursiveLock.ownerTid, hfree]
  rfl

/-- A call that took the mutex once more. -/
theorem StandsFor.take (h : StandsFor tid lock s) (hdepth : lock.depth + 1 < 2 ^ 32)
    (hquiescent : Quiescent s') (howner : s'.mutex.owner = tid t)
    (hnested : s'.mutex.nested = s.mutex.nested + 1) : StandsFor tid (lock.take t) s' where
  quiescent := hquiescent
  owner := howner
  nested := by
    have hnested' := h.nested
    rw [hnested]
    change _ = lock.depth + 1
    bv_omega
  held := iff_of_false (Option.some_ne_none t) (Nat.succ_ne_zero _)

/-- A call that gave the mutex up once. -/
theorem StandsFor.give (h : StandsFor tid lock s) (hholder : lock.holder = some t)
    (hquiescent : Quiescent s') (hnested : s'.mutex.nested = s.mutex.nested - 1)
    (howner : s'.mutex.owner = if s.mutex.nested - 1 = 0 then 0 else s.mutex.owner) :
    StandsFor tid lock.give s' := by
  have hpos : lock.depth ≠ 0 := fun hzero => by
    rw [h.held.mpr hzero] at hholder
    cases hholder
  have hdepth : (s.mutex.nested - 1).toNat = lock.depth - 1 := by
    have := h.nested
    bv_omega
  have hlast : s.mutex.nested - 1 = 0 ↔ lock.depth = 1 := by
    have := h.nested
    bv_omega
  refine ⟨hquiescent, ?_, by rw [hnested, hdepth]; rfl, ?_⟩
  · rw [howner, h.owner_of_holder hholder, RecursiveLock.ownerTid, RecursiveLock.give]
    by_cases hone : lock.depth = 1
    · rw [if_pos (hlast.mpr hone), if_pos hone]
      rfl
    · rw [if_neg fun hzero => hone (hlast.mp hzero), if_neg hone, hholder]
      rfl
  · change (if lock.depth = 1 then none else lock.holder) = none ↔ lock.depth - 1 = 0
    by_cases hone : lock.depth = 1
    · simp [hone]
    · rw [if_neg hone, hholder]
      exact iff_of_false (Option.some_ne_none t) (by omega)

/-- A lock with a holder is available to the holder only. -/
theorem RecursiveLock.availableTo_iff {holder : τ} (hholder : lock.holder = some holder) :
    lock.AvailableTo t ↔ holder = t := by
  simp [RecursiveLock.AvailableTo, hholder]

end Correspondence

/-- Every call the lock allows and the condition admits does to the mutex what it does to the
lock. -/
theorem StandsFor.call {τ : Type*} [DecidableEq τ] {tid : τ → Word} (ids : ThreadIds tid) {fuel : ℕ}
    (hfuel : 5 ≤ fuel) (lock : RecursiveLock τ) (s : MutexSystem τ) (call : MutexCall τ)
    (o : Option Bool) (lock' : RecursiveLock τ) (h : StandsFor tid lock s)
    (hheld : TrylocksHeld lock call) (hcall : lock.call call = some (o, lock')) :
    ∃ s', mutexCall tid fuel s call = some (o, s') ∧ StandsFor tid lock' s' := by
  cases call with
  | trylock t =>
    obtain ⟨holder, hholder⟩ := Option.ne_none_iff_exists'.mp hheld.1
    have howner := h.owner_of_holder hholder
    simp only [RecursiveLock.call, RecursiveLock.availableTo_iff hholder] at hcall
    obtain ⟨hfree, _⟩ | ⟨hself, htry⟩ | ⟨_, hother, htry⟩ := mutexTrylock_cases ids s t
    · exact absurd (howner.symm.trans hfree) (ids.ne_zero holder)
    · obtain rfl : holder = t := ids.injective (howner.symm.trans hself)
      rw [if_pos rfl] at hcall
      cases hcall
      refine ⟨countNested s holder, by rw [mutexCall, htry], ?_⟩
      exact h.take (hheld.2 hholder) h.quiescent.countNested howner rfl
    · rw [if_neg fun hsame : holder = t => hother (hsame ▸ howner)] at hcall
      cases hcall
      exact ⟨s, by rw [mutexCall, htry], h⟩
  | acquire t =>
    rw [RecursiveLock.call] at hcall
    obtain ⟨havailable, heq⟩ := Option.ite_none_right_eq_some.mp hcall
    cases heq
    obtain ⟨s', hacquire, hquiescent, howner, hnested⟩ : ∃ s', mutexAcquire tid fuel s t = some s' ∧
        Quiescent s' ∧ s'.mutex.owner = tid t ∧ s'.mutex.nested = s.mutex.nested + 1 := by
      obtain hfree | hholder := havailable
      · exact mutexAcquire_of_free ids h.quiescent (h.owner_of_free hfree) hfuel t
      · exact mutexAcquire_of_owner ids h.quiescent (h.owner_of_holder hholder) (by omega)
    refine ⟨s', by rw [mutexCall, hacquire, Option.map_some], ?_⟩
    exact h.take hheld hquiescent howner hnested
  | release t =>
    rw [RecursiveLock.call] at hcall
    obtain ⟨hholder, heq⟩ := Option.ite_none_right_eq_some.mp hcall
    cases heq
    obtain ⟨s', hrelease, hquiescent, hnested, howner⟩ :=
      mutexRelease_of_quiescent tid h.quiescent (Nat.le_trans (by decide) hfuel) t
    refine ⟨s', by rw [mutexCall, hrelease, Option.map_some], ?_⟩
    exact h.give hholder hquiescent hnested howner

/-- Runs of calls from `mutex_init` that the lock allows, in which `mutex_trylock` is called only
while somebody holds the mutex and no depth passes 32 bits, return what the lock returns, and the
owner and the count are those of the lock. Called on the free mutex after such a run,
`mutex_trylock` returns false and leaves the caller the owner with a count of zero. -/
theorem mutex_refines_recursiveLock {τ : Type*} [DecidableEq τ] {tid : τ → Word}
    (ids : ThreadIds tid) {fuel : ℕ} (hfuel : 5 ≤ fuel) {calls : List (MutexCall τ)}
    {returns : List (Option Bool)} {lock : RecursiveLock τ}
    (hlock : runCalls RecursiveLock.call RecursiveLock.free calls = some (returns, lock))
    (hheld : Along RecursiveLock.call TrylocksHeld RecursiveLock.free calls) :
    ∃ s, runCalls (mutexCall tid fuel) (mutexInit τ) calls = some (returns, s) ∧
      s.mutex.owner = lock.ownerTid tid ∧ s.mutex.nested.toNat = lock.depth ∧
      (lock.holder = none → ∀ t, (mutexTrylock tid s t).1 = false ∧
        (mutexTrylock tid s t).2.mutex.owner = tid t ∧
        (mutexTrylock tid s t).2.mutex.nested = 0) := by
  obtain ⟨s, hrun, h⟩ := runCalls_simulates (StandsFor.call ids hfuel) standsFor_init hheld hlock
  refine ⟨s, hrun, h.owner, h.nested, fun hfree t => ?_⟩
  obtain ⟨_, htry⟩ | ⟨hself, _⟩ | ⟨hother, _⟩ := mutexTrylock_cases ids s t
  · rw [htry]
    refine ⟨rfl, rfl, BitVec.eq_of_toNat_eq ?_⟩
    exact h.nested.trans (h.held.mp hfree)
  · exact absurd (hself.symm.trans (h.owner_of_free hfree)) (ids.ne_zero t)
  · exact absurd (h.owner_of_free hfree) hother

/-- One thread acquires the mutex and takes it again, the other is refused, and both releases. -/
theorem mutex_refines_recursiveLock_refused :
    ∃ s, runCalls (mutexCall twoIds 5) (mutexInit Bool)
        [.acquire false, .trylock false, .trylock true, .release false, .release false] =
          some ([none, some true, some false, none, none], s) ∧
      s.mutex.owner = 0 ∧ s.mutex.nested.toNat = 0 := by
  have hlock : runCalls RecursiveLock.call RecursiveLock.free
      [.acquire false, .trylock false, .trylock true, .release false, .release false] =
        some ([none, some true, some false, none, none], (⟨none, 0⟩ : RecursiveLock Bool)) := by
    decide
  have hheld : Along RecursiveLock.call TrylocksHeld (RecursiveLock.free : RecursiveLock Bool)
      [.acquire false, .trylock false, .trylock true, .release false, .release false] := by
    simp [Along, TrylocksHeld, RecursiveLock.call, RecursiveLock.AvailableTo, RecursiveLock.free,
      RecursiveLock.take, RecursiveLock.give]
  obtain ⟨s, hrun, howner, hnested, _⟩ :=
    mutex_refines_recursiveLock twoIds_threadIds (Nat.le_refl 5) hlock hheld
  exact ⟨s, hrun, howner, hnested⟩

/-- `mutex_trylock` on the mutex as `mutex_init` leaves it: the lock would be taken and the call
would return true, but it returns false, with the caller as owner and a count of zero. -/
theorem mutexTrylock_free_returns_false :
    runCalls RecursiveLock.call RecursiveLock.free [.trylock false] =
        some ([some true], (⟨some false, 1⟩ : RecursiveLock Bool)) ∧
      ∃ s, runCalls (mutexCall twoIds 5) (mutexInit Bool) [.trylock false] =
          some ([some false], s) ∧
        s.mutex.owner = twoIds false ∧ s.mutex.nested = 0 :=
  ⟨by decide, _, rfl, rfl, rfl⟩

end ChrisOS.Kern
