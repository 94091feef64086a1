import ChrisOS.Lib.DList
import ChrisOS.Utils.Mem
import Mathlib.Logic.Relation

/-!
# The mutex

`kern/mutex.c` with `scheduler_wait_object_acquire`: a recursive mutex whose owner is written
by compare-and-swap, with a list of waiting threads threaded through the threads themselves.
The last release hands the mutex to the first waiting thread or clears the owner.

Any number of threads call `mutex_acquire` and `mutex_release` on one mutex. A program
counter per thread says which statement it executes next. Sections under a spinlock or the
scheduler lock run with interrupts off and are one step; between any two steps another thread
may run. `none` is a failed assertion or a dereferenced null pointer.
-/

namespace ChrisOS.Kern

open ChrisOS.Utils ChrisOS.Lib

/-- `__sync_val_compare_and_swap`: the value found, which is returned, and the value left. -/
def syncValCompareAndSwap (value old new : Word) : Word × Word :=
  (value, if value = old then new else value)

/-- A thread's compare-and-swap takes a free owner field. Its own and another thread's owner stay. -/
theorem syncValCompareAndSwap_owner (owner me : Word) :
    (owner = 0 ∧ syncValCompareAndSwap owner 0 me = (0, me)) ∨
    (owner = me ∧ syncValCompareAndSwap owner 0 me = (owner, owner)) ∨
    (owner ≠ 0 ∧ owner ≠ me ∧ syncValCompareAndSwap owner 0 me = (owner, owner)) := by
  rw [syncValCompareAndSwap]
  by_cases hzero : owner = 0
  · exact Or.inl ⟨hzero, by rw [if_pos hzero, hzero]⟩
  · rw [if_neg hzero]
    by_cases hself : owner = me
    · exact Or.inr (Or.inl ⟨hself, rfl⟩)
    · exact Or.inr (Or.inr ⟨hzero, hself, rfl⟩)

/-- Where a thread is: outside the mutex functions or before one of their statements. -/
inductive MutexPc
  | idle
  /-- `mutex_acquire`: the first compare-and-swap. -/
  | compare
  /-- `mutex_acquire`: the call of `mutex_add_observer`. -/
  | addObserver
  /-- `scheduler_wait_object_acquire`: one turn of its loop. -/
  | wait
  /-- `mutex_acquire`: the call of `mutex_remove_observer`. -/
  | removeObserver
  /-- `mutex_acquire`: the increment of `nested`, after which it returns. -/
  | count
  /-- `mutex_release`: the decrement of `nested`. -/
  | uncount
  /-- `mutex_release`: the test of `nested`. -/
  | test
  /-- `mutex_release_and_wake_next_thread`. -/
  | wake
deriving DecidableEq, Repr

/-- `struct mutex` without its spinlock. -/
structure Mutex (τ : Type*) where
  owner : Word
  nested : Word
  waitingThreads : Option τ

/-- The mutex, the wait queue fields of the threads, which threads are blocked, and where each
thread is. `depth` counts a thread's returned acquires less its begun releases; the code has no
such field. -/
structure MutexSystem (τ : Type*) where
  mutex : Mutex τ
  waitQueue : Links τ
  blocked : τ → Bool
  pc : τ → MutexPc
  depth : τ → ℕ

/-- `mutex_init`, with every thread outside. -/
def mutexInit (τ : Type*) : MutexSystem τ where
  mutex := ⟨0, 0, none⟩
  waitQueue := ⟨fun _ => none, fun _ => none⟩
  blocked := fun _ => false
  pc := fun _ => .idle
  depth := fun _ => 0

section Statements

variable {τ : Type*} [DecidableEq τ]

/-- Move a thread's program counter. -/
def MutexSystem.goto (s : MutexSystem τ) (t : τ) (pc : MutexPc) : MutexSystem τ :=
  { s with pc := Function.update s.pc t pc }

@[simp]
theorem MutexSystem.goto_pc_self (s : MutexSystem τ) (t : τ) (pc : MutexPc) :
    (s.goto t pc).pc t = pc := Function.update_self ..

theorem MutexSystem.goto_pc_of_ne (s : MutexSystem τ) {t x : τ} (h : x ≠ t) (pc : MutexPc) :
    (s.goto t pc).pc x = s.pc x := Function.update_of_ne h ..

/-- Write the owner field. -/
def MutexSystem.setOwner (s : MutexSystem τ) (owner : Word) : MutexSystem τ :=
  { s with mutex := { s.mutex with owner := owner } }

/-- `mutex_add_observer`. -/
def mutexAddObserver (s : MutexSystem τ) (t : τ) : Option (MutexSystem τ) :=
  if s.waitQueue.next t ≠ none then none
  else (dlAppend s.waitQueue s.mutex.waitingThreads t).map fun result =>
    { s with waitQueue := result.1, mutex := { s.mutex with waitingThreads := result.2 } }

/-- `mutex_remove_observer`. -/
def mutexRemoveObserver (s : MutexSystem τ) (t : τ) : Option (MutexSystem τ) :=
  (dlDelete s.waitQueue s.mutex.waitingThreads t).map fun result =>
    { s with
      waitQueue := (result.1.setNext t none).setPrev t none
      mutex := { s.mutex with waitingThreads := result.2 } }

/-- The first statement of `mutex_acquire`. -/
def compareOwner (tid : τ → Word) (s : MutexSystem τ) (t : τ) : MutexSystem τ :=
  let result := syncValCompareAndSwap s.mutex.owner 0 (tid t)
  (s.setOwner result.2).goto t (if result.1 ≠ tid t then .addObserver else .count)

/-- One turn of the loop in `scheduler_wait_object_acquire`: unless the owner was already this
thread, the thread is blocked and another one runs. -/
def schedulerWaitObjectAcquire (tid : τ → Word) (s : MutexSystem τ) (t : τ) : MutexSystem τ :=
  let result := syncValCompareAndSwap s.mutex.owner 0 (tid t)
  let s := s.setOwner result.2
  if result.1 ≠ tid t then { s with blocked := Function.update s.blocked t true }
  else s.goto t .removeObserver

/-- `mutex_release_and_wake_next_thread`: the first waiting thread stays on the list. -/
def mutexReleaseAndWakeNextThread (tid : τ → Word) (s : MutexSystem τ) : MutexSystem τ :=
  match s.mutex.waitingThreads with
  | some next =>
    let s := s.setOwner (tid next)
    { s with blocked := Function.update s.blocked next false }
  | none => s.setOwner 0

/-- The last statement of `mutex_acquire`. -/
def countNested (s : MutexSystem τ) (t : τ) : MutexSystem τ :=
  { s with
    mutex := { s.mutex with nested := s.mutex.nested + 1 }
    depth := Function.update s.depth t (s.depth t + 1) }

/-- The first statement of `mutex_release`. -/
def uncountNested (s : MutexSystem τ) (t : τ) : MutexSystem τ :=
  { s with
    mutex := { s.mutex with nested := s.mutex.nested - 1 }
    depth := Function.update s.depth t (s.depth t - 1) }

/-- Execute the next statement of a thread inside `mutex_acquire` or `mutex_release`. -/
def execStatement (tid : τ → Word) (s : MutexSystem τ) (t : τ) : Option (MutexSystem τ) :=
  match s.pc t with
  | .idle => none
  | .compare => some (compareOwner tid s t)
  | .addObserver => (mutexAddObserver s t).map (·.goto t .wait)
  | .wait => some (schedulerWaitObjectAcquire tid s t)
  | .removeObserver => (mutexRemoveObserver s t).map (·.goto t .count)
  | .count => some ((countNested s t).goto t .idle)
  | .uncount => some ((uncountNested s t).goto t .test)
  | .test => some (s.goto t (if s.mutex.nested = 0 then .wake else .idle))
  | .wake => some ((mutexReleaseAndWakeNextThread tid s).goto t .idle)

/-- What a thread does next: call a function or go on in the one it is in. -/
inductive MutexAct (τ : Type*)
  | acquire (t : τ)
  | release (t : τ)
  | exec (t : τ)

/-- The thread that acts. -/
def MutexAct.thread : MutexAct τ → τ
  | .acquire t => t
  | .release t => t
  | .exec t => t

/-- Perform an act. A thread calls only from outside, and releases only what it holds. -/
def perform (tid : τ → Word) (s : MutexSystem τ) : MutexAct τ → Option (MutexSystem τ)
  | .acquire t => if s.pc t = .idle then some (s.goto t .compare) else none
  | .release t => if s.pc t = .idle ∧ 0 < s.depth t then some (s.goto t .uncount) else none
  | .exec t => execStatement tid s t

/-- One step of the system, by a thread that is not blocked; `may` restricts who acts when. -/
inductive MutexStep (tid : τ → Word) (may : MutexSystem τ → τ → Prop) :
    MutexSystem τ → MutexSystem τ → Prop
  | act {s s' : MutexSystem τ} (act : MutexAct τ) (hready : s.blocked act.thread = false)
      (hmay : may s act.thread) (h : perform tid s act = some s') : MutexStep tid may s s'

/-- What a step is. -/
theorem MutexStep.exists_thread {tid : τ → Word} {may : MutexSystem τ → τ → Prop}
    {s s' : MutexSystem τ} (hstep : MutexStep tid may s s') :
    ∃ t, s.blocked t = false ∧ may s t ∧
      ((s.pc t = .idle ∧ s' = s.goto t .compare) ∨
        (s.pc t = .idle ∧ 0 < s.depth t ∧ s' = s.goto t .uncount) ∨
        (s.pc t ≠ .idle ∧ execStatement tid s t = some s')) := by
  obtain ⟨act, hready, hmay, hact⟩ := hstep
  refine ⟨act.thread, hready, hmay, ?_⟩
  cases act with
  | acquire t =>
    obtain ⟨hidle, heq⟩ := Option.ite_none_right_eq_some.mp hact
    exact Or.inl ⟨hidle, (Option.some.inj heq).symm⟩
  | release t =>
    obtain ⟨⟨hidle, hheld⟩, heq⟩ := Option.ite_none_right_eq_some.mp hact
    exact Or.inr (Or.inl ⟨hidle, hheld, (Option.some.inj heq).symm⟩)
  | exec t =>
    have hbusy : s.pc t ≠ .idle := fun hidle => by simp [perform, execStatement, hidle] at hact
    exact Or.inr (Or.inr ⟨hbusy, hact⟩)

/-- The states of runs from `mutex_init`. -/
def MutexReachable (tid : τ → Word) (may : MutexSystem τ → τ → Prop) (s : MutexSystem τ) : Prop :=
  Relation.ReflTransGen (MutexStep tid may) (mutexInit τ) s

/-- Perform a schedule of acts, or fail at the first that is not a step. -/
def performAll (tid : τ → Word) (may : MutexSystem τ → τ → Prop) [∀ s t, Decidable (may s t)] :
    MutexSystem τ → List (MutexAct τ) → Option (MutexSystem τ)
  | s, [] => some s
  | s, act :: rest =>
    if s.blocked act.thread = false ∧ may s act.thread then
      (perform tid s act).bind (performAll tid may · rest)
    else none

/-- A schedule that does not fail is a run. -/
theorem performAll_run {tid : τ → Word} {may : MutexSystem τ → τ → Prop}
    [∀ s t, Decidable (may s t)] {s s' : MutexSystem τ} {acts : List (MutexAct τ)}
    (h : performAll tid may s acts = some s') : Relation.ReflTransGen (MutexStep tid may) s s' := by
  induction acts generalizing s with
  | nil =>
    cases h
    exact .refl
  | cons act rest ih =>
    rw [performAll] at h
    split at h
    · next hstep =>
      obtain ⟨s₁, hact, hrest⟩ := Option.bind_eq_some_iff.mp h
      exact .head (.act act hstep.1 hstep.2 hact) (ih hrest)
    · cases h

end Statements

end ChrisOS.Kern
