import ChrisOS.Kern.MutexContract

/-!
# Waiting threads that are never woken

The compare-and-swap in `scheduler_wait_object_acquire` returns the value it found. If it
finds zero it makes its thread the owner, but zero is not the thread's identifier, so the
loop blocks the thread all the same; the owner is then blocked and nobody can release the
mutex. This is the only way a waiting thread is lost: as long as nobody executes that
statement while the mutex is free, every blocked thread waits for another owner.
-/

namespace ChrisOS.Kern

open ChrisOS.Utils ChrisOS.Lib

variable {τ : Type*} [DecidableEq τ]

/-- Nobody executes the compare-and-swap of the wait loop while the mutex is free. -/
def OwnedAtWait (s : MutexSystem τ) (t : τ) : Prop := s.pc t = .wait → s.mutex.owner ≠ 0

instance (s : MutexSystem τ) (t : τ) : Decidable (OwnedAtWait s t) :=
  inferInstanceAs (Decidable (_ → _))

/-- Every blocked thread waits for another thread that owns the mutex. -/
def WaitsForOwner (tid : τ → Word) (s : MutexSystem τ) : Prop :=
  ∀ t, s.blocked t = true → s.mutex.owner ≠ 0 ∧ s.mutex.owner ≠ tid t

variable {tid : τ → Word} {s s' : MutexSystem τ} {W : List τ}

/-- A hand-over wakes the new owner, or finds nobody waiting. -/
theorem WaitsForOwner.wake (ids : ThreadIds tid) (hwait : WaitInv s W) :
    WaitsForOwner tid (mutexReleaseAndWakeNextThread tid s) := by
  have hhead := hwait.rep.head_eq
  unfold mutexReleaseAndWakeNextThread
  cases hnext : s.mutex.waitingThreads with
  | none =>
    intro t ht
    have hmem : t ∈ W := (hwait.mem_iff t).mpr (Or.inl (hwait.blocked t ht))
    rw [hnext, eq_comm, List.head?_eq_none_iff] at hhead
    rw [hhead] at hmem
    cases hmem
  | some next =>
    intro t ht
    have hne : t ≠ next := by
      rintro rfl
      exact Bool.false_ne_true ((Function.update_self ..).symm.trans ht)
    exact ⟨ids.ne_zero next, fun heq => hne (ids.injective heq).symm⟩

variable {t : τ}

/-- Every statement but a wait on the free mutex keeps blocked threads waiting for an owner. -/
theorem WaitsForOwner.exec (ids : ThreadIds tid) (hwait : WaitInv s W) (h : WaitsForOwner tid s)
    (howned : OwnedAtWait s t)
    (hexec : execStatement tid s t = some s') : WaitsForOwner tid s' := by
  cases hwait.executes ids hexec with
  | take hpc hfree => exact fun x hx => absurd hfree (h x hx).1
  | takeAndBlock hpc hfree => exact absurd hfree (howned hpc)
  | block hpc hne hother =>
    intro x hx
    by_cases hxt : x = t
    · subst hxt
      exact ⟨hne, hother⟩
    · exact h x ((Function.update_of_ne hxt ..).symm.trans hx)
  | wake hpc => exact WaitsForOwner.wake ids hwait
  | recognise => exact h
  | miss => exact h
  | enqueue => exact h
  | enter => exact h
  | dequeue => exact h
  | count => exact h
  | uncount => exact h
  | again => exact h
  | last => exact h

/-- In every run without a wait on the free mutex, blocked threads wait for an owner. -/
theorem WaitsForOwner.of_reachable (ids : ThreadIds tid) (hs : MutexReachable tid OwnedAtWait s) :
    WaitsForOwner tid s := by
  induction hs with
  | refl => exact fun _ h => by cases h
  | @tail s s' hrun hstep ih =>
    obtain ⟨W, hwait⟩ := WaitInv.of_reachable ids hrun
    obtain ⟨t, _, howned, ⟨_, rfl⟩ | ⟨_, _, rfl⟩ | ⟨_, hexec⟩⟩ := hstep.exists_thread
    · exact ih
    · exact ih
    · exact WaitsForOwner.exec ids hwait ih howned hexec

/-- The owner is blocked, and no other thread is where it could release the mutex. -/
structure Stuck (tid : τ → Word) (s : MutexSystem τ) (t : τ) : Prop where
  blocked : s.blocked t = true
  owner : s.mutex.owner = tid t
  others : ∀ u, u ≠ t → s.depth u = 0 ∧ ¬ (s.pc u).Owns

/-- Another thread's move to a statement of a thread that waits keeps the owner stuck. -/
theorem Stuck.goto (h : Stuck tid s t) (u : τ) (pc : MutexPc) (hpc : ¬ pc.Owns) :
    Stuck tid (s.goto u pc) t := by
  refine ⟨h.blocked, h.owner, fun x hx => ⟨(h.others x hx).1, ?_⟩⟩
  by_cases hxu : x = u
  · rw [hxu, MutexSystem.goto_pc_self]
    exact hpc
  · rw [MutexSystem.goto_pc_of_ne s hxu]
    exact (h.others x hx).2

/-- Once the owner is stuck, every step leaves it stuck. -/
theorem Stuck.step (ids : ThreadIds tid) {may : MutexSystem τ → τ → Prop} (hwait : WaitInv s W)
    (h : Stuck tid s t)
    (hstep : MutexStep tid may s s') : Stuck tid s' t := by
  obtain ⟨u, hready, _, hcases⟩ := hstep.exists_thread
  have hut : u ≠ t := by
    rintro rfl
    exact Bool.false_ne_true (hready.symm.trans h.blocked)
  have hnot : s.mutex.owner ≠ tid u := fun heq => hut (ids.injective (heq.symm.trans h.owner))
  have hpcs : ∀ pc, s.pc u = pc → ¬ pc.Owns := fun pc hpc => hpc ▸ (h.others u hut).2
  obtain ⟨_, rfl⟩ | ⟨_, hheld, _⟩ | ⟨_, hexec⟩ := hcases
  · exact h.goto u .compare id
  · exact absurd (h.others u hut).1 (Nat.ne_of_gt hheld)
  cases hwait.executes ids hexec with
  | take hpc hfree => exact absurd (h.owner.symm.trans hfree) (ids.ne_zero t)
  | recognise hpc howner => exact absurd howner hnot
  | miss hpc _ _ => exact h.goto u .addObserver id
  | enqueue hpc queue head =>
    have hmoved := h.goto u .wait id
    exact { hmoved with }
  | takeAndBlock hpc hfree => exact absurd (h.owner.symm.trans hfree) (ids.ne_zero t)
  | enter hpc howner => exact absurd howner hnot
  | block hpc _ _ => exact ⟨(Function.update_of_ne hut.symm ..).trans h.blocked, h.owner, h.others⟩
  | dequeue hpc => exact absurd trivial (hpcs _ hpc)
  | count hpc => exact absurd trivial (hpcs _ hpc)
  | uncount hpc => exact absurd trivial (hpcs _ hpc)
  | again hpc => exact absurd trivial (hpcs _ hpc)
  | last hpc => exact absurd trivial (hpcs _ hpc)
  | wake hpc => exact absurd trivial (hpcs _ hpc)

/-- Once the owner is stuck, it is stuck in every later state. -/
theorem Stuck.run (ids : ThreadIds tid) {may : MutexSystem τ → τ → Prop} (hwait : WaitInv s W)
    (h : Stuck tid s t)
    (hrun : Relation.ReflTransGen (MutexStep tid may) s s') : Stuck tid s' t := by
  have hboth : (∃ W', WaitInv s' W') ∧ Stuck tid s' t := by
    induction hrun with
    | refl => exact ⟨⟨W, hwait⟩, h⟩
    | tail _ hstep ih =>
      obtain ⟨⟨W', hwait'⟩, h'⟩ := ih
      exact ⟨hwait'.step ids hstep, h'.step ids hwait' hstep⟩
  exact hboth.2

/-- A wait on the free mutex leaves its thread stuck. -/
theorem Stuck.of_wait (ids : ThreadIds tid) (hs : MutexReachable tid DepthBounded s)
    (hpc : s.pc t = .wait) (hready : s.blocked t = false)
    (hfree : s.mutex.owner = 0) :
    ∃ s', execStatement tid s t = some s' ∧ (∃ W, WaitInv s' W) ∧ Stuck tid s' t := by
  obtain ⟨W, hwait⟩ := WaitInv.of_reachable ids hs
  have hinv := OwnerInv.of_reachable ids hs
  have hnobody : ∀ u, ¬ (0 < s.depth u ∨ (s.pc u).Owns) := fun u hu =>
    ids.ne_zero u ((hinv.owner u hu).symm.trans hfree)
  obtain ⟨s', W', hexec, hwait'⟩ := hwait.exec ids hready (hpc ▸ by decide)
  refine ⟨s', hexec, ⟨W', hwait'⟩, ?_⟩
  rw [execStatement, hpc] at hexec
  cases hexec
  obtain ⟨_, heq⟩ | ⟨howner, _⟩ | ⟨howned, _⟩ := schedulerWaitObjectAcquire_cases ids s t
  · rw [heq]
    refine ⟨Function.update_self .., rfl, fun u _ => ⟨?_, fun howns => hnobody u (Or.inr howns)⟩⟩
    exact Nat.eq_zero_of_not_pos fun hpos => hnobody u (Or.inl hpos)
  · exact absurd (howner.symm.trans hfree) (ids.ne_zero t)
  · exact absurd hfree howned

/-- If nobody executes the compare-and-swap of the wait loop while the mutex is free, no thread is
ever blocked while the mutex is free or its own. A thread that does execute it then is blocked from
there on, whatever the threads do, with the mutex its own. -/
theorem mutex_waiters_stranded_only_if_free {tid : τ → Word} (ids : ThreadIds tid) :
    (∀ s, MutexReachable tid OwnedAtWait s → ∀ t, s.blocked t = true →
      s.mutex.owner ≠ 0 ∧ s.mutex.owner ≠ tid t) ∧
    ∀ s t, MutexReachable tid DepthBounded s → s.pc t = .wait → s.blocked t = false →
      s.mutex.owner = 0 → ∃ s', execStatement tid s t = some s' ∧
        ∀ may s'', Relation.ReflTransGen (MutexStep tid may) s' s'' →
          s''.blocked t = true ∧ s''.mutex.owner = tid t := by
  refine ⟨fun s hs => WaitsForOwner.of_reachable ids hs, fun s t hs hpc hready hfree => ?_⟩
  obtain ⟨s', hexec, ⟨W, hwait⟩, hstuck⟩ := Stuck.of_wait ids hs hpc hready hfree
  refine ⟨s', hexec, fun may s'' hrun => ?_⟩
  have hlater := hstuck.run ids hwait hrun
  exact ⟨hlater.blocked, hlater.owner⟩

/-- One thread holds the mutex and another waits for it, blocked. -/
theorem mutex_waiters_contended :
    ∃ s : MutexSystem Bool, MutexReachable twoIds OwnedAtWait s ∧ s.blocked true = true ∧
      s.mutex.owner ≠ 0 ∧ s.mutex.owner ≠ twoIds true := by
  let acts := freeAcquire false ++ heldAcquire true
  let s := (performAll twoIds OwnedAtWait (mutexInit Bool) acts).get (by decide)
  have hreach : MutexReachable twoIds OwnedAtWait s := performAll_run (Option.some_get _).symm
  have hblocked : s.blocked true = true := by decide
  exact ⟨s, hreach, hblocked,
    (mutex_waiters_stranded_only_if_free twoIds_threadIds).1 s hreach true hblocked⟩

/-- A thread fails its first compare-and-swap, the holder releases before the thread is on the
waiting list, and the thread then takes the free mutex and blocks for ever. -/
theorem mutex_waiter_stranded :
    ∃ s : MutexSystem Bool, MutexReachable twoIds (fun _ _ => True) s ∧ s.pc true = .wait ∧
      ∀ s', Relation.ReflTransGen (MutexStep twoIds fun _ _ => True) s s' →
        s'.blocked true = true ∧ s'.mutex.owner = twoIds true := by
  let overtaken : List (MutexAct Bool) := [.acquire true, .exec true, .release false, .exec false,
    .exec false, .exec false, .exec true, .exec true]
  let acts := freeAcquire false ++ overtaken
  let s := (performAll twoIds (fun _ _ => True) (mutexInit Bool) acts).get (by decide)
  have hreach : MutexReachable twoIds (fun _ _ => True) s := performAll_run (Option.some_get _).symm
  obtain ⟨W, hwait⟩ := WaitInv.of_reachable twoIds_threadIds hreach
  have hstuck : Stuck twoIds s true := by
    refine ⟨by decide, by decide, fun u hu => ?_⟩
    obtain rfl : u = false := by simpa using hu
    exact ⟨by decide, fun howns => howns⟩
  refine ⟨s, hreach, by decide, fun s' hrun => ?_⟩
  have hlater := hstuck.run twoIds_threadIds hwait hrun
  exact ⟨hlater.blocked, hlater.owner⟩

end ChrisOS.Kern
