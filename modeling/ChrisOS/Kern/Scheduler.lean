import ChrisOS.Lib.DList
import ChrisOS.Utils.Mem

/-!
# The thread scheduler

`kern/scheduler.c` with the parts of `kern/thread.c` it needs: a round-robin scheduler over
two intrusive lists that share one pair of link fields. A thread is a node of any type, its
fields are functions of it. Which list a thread is unlinked from follows from its state
field alone.

Every function runs with interrupts off under the scheduler lock, so a call is one step.
`none` is a failed assertion, a panic or a dereferenced null pointer. The stacks behind a
context switch, names and exit codes are left out.
-/

namespace ChrisOS.Kern

open ChrisOS.Utils ChrisOS.Lib

/-- `enum thread_state`. -/
inductive ThreadState
  | created
  | running
  | runnable
  | blocked
  | dead
deriving DecidableEq, Repr

/-- The two lists `_runnable_threads` and `_blocked_threads`. -/
inductive Queue
  | runnable
  | blocked
deriving DecidableEq, Repr

/-- The scheduler's variables and the fields of threads it uses. -/
structure Scheduler (τ : Type*) where
  links : Links τ
  state : τ → ThreadState
  timeSlice : τ → Word
  head : Queue → Option τ
  current : Option τ
  lastScheduledTimeTicks : Word

/-- `TIME_SLICE`. -/
def timeSliceTicks : Word := 1

section Functions

variable {τ : Type*} [DecidableEq τ]

/-- Write a thread's state field. -/
def Scheduler.setState (s : Scheduler τ) (t : τ) (state : ThreadState) : Scheduler τ :=
  { s with state := Function.update s.state t state }

/-- Append a thread to a queue it is not the head of. -/
def linkThread (q : Queue) (s : Scheduler τ) (t : τ) : Option (Scheduler τ) :=
  if s.head q = some t then none
  else (dlAppend s.links (s.head q) t).map fun result =>
    { s with links := result.1, head := Function.update s.head q result.2 }

/-- Unlink a thread from a queue and clear its link fields. -/
def unlinkThread (q : Queue) (s : Scheduler τ) (t : τ) : Option (Scheduler τ) :=
  (dlDelete s.links (s.head q) t).map fun result =>
    { s with
      links := (result.1.setNext t none).setPrev t none
      head := Function.update s.head q result.2 }

/-- `scheduler_add_runnable_thread`, which also grants a new time slice. -/
def schedulerAddRunnableThread (s : Scheduler τ) (t : τ) : Option (Scheduler τ) :=
  linkThread .runnable { s with timeSlice := Function.update s.timeSlice t timeSliceTicks } t

/-- `scheduler_add_blocked_thread`. -/
def schedulerAddBlockedThread (s : Scheduler τ) (t : τ) : Option (Scheduler τ) :=
  linkThread .blocked s t

/-- `scheduler_remove_runnable_thread`. -/
def schedulerRemoveRunnableThread (s : Scheduler τ) (t : τ) : Option (Scheduler τ) :=
  unlinkThread .runnable s t

/-- `scheduler_remove_blocked_thread`. -/
def schedulerRemoveBlockedThread (s : Scheduler τ) (t : τ) : Option (Scheduler τ) :=
  unlinkThread .blocked s t

/-- `scheduler_remove_thread`: the state field says which list the thread is on. -/
def schedulerRemoveThread (s : Scheduler τ) (t : τ) : Option (Scheduler τ) :=
  if s.state t = .running ∨ s.state t = .runnable then schedulerRemoveRunnableThread s t
  else schedulerRemoveBlockedThread s t

/-- `scheduler_make_runnable`. -/
def schedulerMakeRunnable (s : Scheduler τ) (t : τ) : Option (Scheduler τ) :=
  if s.state t ≠ .runnable then do
    let s ← schedulerRemoveThread s t
    schedulerAddRunnableThread (s.setState t .runnable) t
  else some s

/-- `scheduler_make_blocked`. -/
def schedulerMakeBlocked (s : Scheduler τ) (t : τ) : Option (Scheduler τ) :=
  if s.state t ≠ .blocked then do
    let s ← schedulerRemoveThread s t
    let s := s.setState t .blocked
    if s.head .blocked = some t then none else schedulerAddBlockedThread s t
  else some s

/-- `scheduler_add_thread`: a created thread becomes runnable first. -/
def schedulerAddThread (s : Scheduler τ) (t : τ) : Option (Scheduler τ) :=
  if s.state t = .running then none
  else
    let s := if s.state t = .created then s.setState t .runnable else s
    if s.state t = .runnable then
      if s.head .runnable = some t then none else schedulerAddRunnableThread s t
    else if s.head .blocked = some t then none else schedulerAddBlockedThread s t

/-- The second half of `scheduler_next_thread`: take the head of the runnable list and move it
to the back. -/
def pickNextThread (s : Scheduler τ) : Option (τ × Scheduler τ) :=
  match s.head .runnable with
  | none => none
  | some next => do
    let s ← schedulerRemoveRunnableThread s next
    let s ← schedulerAddRunnableThread s next
    some (next, s.setState next .running)

/-- `scheduler_next_thread`, where `ticks` is what `ticks_since_boot` returns. -/
def schedulerNextThread (s : Scheduler τ) (ticks : Word) : Option (τ × Scheduler τ) :=
  let elapsedTicks := ticks - s.lastScheduledTimeTicks
  let s := { s with lastScheduledTimeTicks := ticks }
  match s.current with
  | some old =>
    let s := { s with timeSlice := Function.update s.timeSlice old (s.timeSlice old - elapsedTicks) }
    if s.state old = .running then
      if s.timeSlice old > 0 then some (old, s)
      else pickNextThread (s.setState old .runnable)
    else pickNextThread s
  | none => pickNextThread s

/-- `scheduler_yield`: choose a thread and switch to it. -/
def schedulerYield (s : Scheduler τ) (ticks : Word) : Option (Scheduler τ) :=
  (schedulerNextThread s ticks).map fun result => { result.2 with current := some result.1 }

/-- `thread_exit` up to the return of the switch it ends in. -/
def threadExit (s : Scheduler τ) (t : τ) (ticks : Word) : Option (Scheduler τ) :=
  schedulerYield (s.setState t .dead) ticks

end Functions

end ChrisOS.Kern
