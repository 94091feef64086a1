import ChrisOS.Drivers.TtyQueue
import ChrisOS.Kern.SchedulerLive
import Mathlib.Data.Finset.Insert

/-!
# The keyboard thread and a reader

`tty_send_key_event` in one thread and `tty_getc` in another, one statement at a time. Nothing in
`drivers/tty.c` is locked: between any two statements, the bytes of a `memmove` included, the
current thread may be switched. Calls of the scheduler are one step, because they disable
interrupts. Each thread has a program counter; a reader that finds nothing to read puts an
observer on the console's list, blocks and yields.

Observers are kept apart from the line's data, and a freed observer keeps its contents until its
memory is used for another one.
-/

namespace ChrisOS.Drivers

open ChrisOS.Lib ChrisOS.Utils ChrisOS.Kern

/-- Where the keyboard thread is: outside `tty_send_key_event`, or before one of the statements. The
character of `tty_line_append_char` is a newline just when `tty_line_newline` is its caller. -/
inductive KeyPc
  | idle
  /-- `tty_line_append_char` of a backspace: the test for something to erase. -/
  | edit
  | eraseWritePos
  | eraseLength
  /-- `tty_line_reserve_space`: the test for space. -/
  | reserve (c : BitVec 8)
  | realloc (c : BitVec 8) (newCapacity : Word)
  | setData (c : BitVec 8) (newData newCapacity : Word)
  | setCapacity (c : BitVec 8) (newCapacity : Word)
  /-- `tty_line_append_char`: the character is stored. -/
  | store (c : BitVec 8)
  | incWritePos (c : BitVec 8)
  | incLength (c : BitVec 8)
  /-- `tty_compact_buffer`: the call of `memmove`, and its loops. -/
  | move
  | copyUp (dest src len i : Word)
  | copyDown (dest src i : Word)
  | cutLength
  | cutWritePos
  | zeroReadPos
  /-- `tty_notify_chars_available`: the loop begins. -/
  | notify
  | wake (elt : Word)
  | next (elt : Word)
deriving DecidableEq, Repr

/-- `tty_send_key_event` up to the first statement on the line. -/
def TtyKeyEvent.start (event : TtyKeyEvent) : KeyPc :=
  if event.types then
    if event.character = backspace then .edit else .reserve event.character
  else .idle

/-- Execute a statement on the line buffer; no result when an assertion fails, or when the next
statement is not one on the buffer. -/
def keyStatement (krealloc : Krealloc) (b : TtyBuffer) : KeyPc → Option (TtyBuffer × KeyPc)
  | .idle => none
  | .edit => some (b, if b.line.readPos < b.line.writePos then .eraseWritePos else .idle)
  | .eraseWritePos =>
    some ({ b with line := { b.line with writePos := b.line.writePos - 1 } }, .eraseLength)
  | .eraseLength => some ({ b with line := { b.line with length := b.line.length - 1 } }, .idle)
  | .reserve c =>
    some (b, if ttyLineWriteSpaceAvailable b.line < 1 then
      .realloc c (ttyLineNewCapacity b.line 1) else .store c)
  | .realloc c newCapacity =>
    let result := krealloc b.mem b.line.data newCapacity
    some ({ b with mem := result.2 },
      if result.1 ≠ 0 then .setData c result.1 newCapacity else .idle)
  | .setData c newData newCapacity =>
    some ({ b with line := { b.line with data := newData } }, .setCapacity c newCapacity)
  | .setCapacity c newCapacity =>
    some ({ b with line := { b.line with capacity := newCapacity } }, .store c)
  | .store c =>
    if ttyLineWriteSpaceAvailable b.line > 0 then
      some ({ b with mem := Function.update b.mem (b.line.data + b.line.writePos) c },
        .incWritePos c)
    else none
  | .incWritePos c =>
    some ({ b with line := { b.line with writePos := b.line.writePos + 1 } }, .incLength c)
  | .incLength c =>
    some ({ b with line := { b.line with length := b.line.length + 1 } },
      if c = ttyNewLineChar then .move else .idle)
  | .move =>
    let dest := b.line.data
    let src := b.line.data + b.line.readPos
    some (b, if dest < src then .copyUp dest src b.line.length 0
      else .copyDown dest src b.line.length)
  | .copyUp dest src len i =>
    if i < len then
      some ({ b with mem := Function.update b.mem (dest + i) (b.mem (src + i)) },
        .copyUp dest src len (i + 1))
    else some (b, .cutLength)
  | .copyDown dest src i =>
    if i > 0 then
      some ({ b with mem := Function.update b.mem (dest + (i - 1)) (b.mem (src + (i - 1))) },
        .copyDown dest src (i - 1))
    else some (b, .cutLength)
  | .cutLength =>
    some ({ b with line := { b.line with length := b.line.length - b.line.readPos } }, .cutWritePos)
  | .cutWritePos =>
    some ({ b with line := { b.line with writePos := b.line.writePos - b.line.readPos } },
      .zeroReadPos)
  | .zeroReadPos => some ({ b with line := { b.line with readPos := 0 } }, .notify)
  | .notify | .wake _ | .next _ => none

/-- Where the reader is: outside `tty_getc`, or before one of the statements. -/
inductive ReaderPc
  | idle
  /-- `tty_wait_chars_available`: the first test. -/
  | check
  | new
  /-- `LL_PREPEND` of an observer: its link, then the list's head. -/
  | link (observer : Word)
  | prepend (observer : Word)
  | block (observer : Word)
  | yield (observer : Word)
  | recheck (observer : Word)
  /-- `LL_DELETE` of the observer, and its loop. -/
  | delete (observer : Word)
  | unlink (observer tmp : Word)
  | free (observer : Word)
  /-- `tty_getc` after its wait: its own test, the read and the increment. -/
  | test
  | read
  | advance (c : BitVec 8)
deriving DecidableEq, Repr

/-- The scheduler with the threads added to it, the line buffer, the list of observers and the two
threads' program counters. -/
structure TtyKernel (τ : Type*) where
  sched : Scheduler τ
  added : Finset τ
  buffer : TtyBuffer
  observers : Word
  observerThread : Word → τ
  observerNext : Word → Word
  keyPc : KeyPc
  readerPc : ReaderPc

section Functions

variable {τ : Type*} [DecidableEq τ]

/-- Execute the keyboard thread's next statement. -/
def TtyKernel.execKey (krealloc : Krealloc) (k : TtyKernel τ) : Option (TtyKernel τ) :=
  match k.keyPc with
  | .notify =>
    some { k with keyPc := if k.observers ≠ 0 then .wake k.observers else .idle }
  | .wake elt => (schedulerMakeRunnable k.sched (k.observerThread elt)).map fun sched =>
    { k with sched := sched, keyPc := .next elt }
  | .next elt =>
    let elt := k.observerNext elt
    some { k with keyPc := if elt ≠ 0 then .wake elt else .idle }
  | pc => (keyStatement krealloc k.buffer pc).map fun result =>
    { k with buffer := result.1, keyPc := result.2 }

/-- Execute the reader's next statement; `ticks` is what `ticks_since_boot` returns in a switch and
`address` what `kmalloc` returns for an observer. -/
def TtyKernel.execReader (reader : τ) (k : TtyKernel τ) (ticks address : Word) :
    Option (TtyKernel τ) :=
  match k.readerPc with
  | .idle => none
  | .check =>
    some { k with readerPc := if ttyLineReadCharsAvailable k.buffer.line = 0 then .new else .test }
  | .new =>
    if address ≠ 0 then
      some { k with
        observerThread := Function.update k.observerThread address reader
        observerNext := Function.update k.observerNext address 0
        readerPc := .link address }
    else none
  | .link observer =>
    some { k with
      observerNext := Function.update k.observerNext observer k.observers
      readerPc := .prepend observer }
  | .prepend observer => some { k with observers := observer, readerPc := .block observer }
  | .block observer => (schedulerMakeBlocked k.sched reader).map fun sched =>
    { k with sched := sched, readerPc := .yield observer }
  | .yield observer => (schedulerYield k.sched ticks).map fun sched =>
    { k with sched := sched, readerPc := .recheck observer }
  | .recheck observer =>
    some { k with readerPc :=
      if ttyLineReadCharsAvailable k.buffer.line = 0 then .block observer else .delete observer }
  | .delete observer =>
    if k.observers = observer then
      some { k with observers := k.observerNext k.observers, readerPc := .free observer }
    else some { k with readerPc := .unlink observer k.observers }
  | .unlink observer tmp =>
    if k.observerNext tmp ≠ 0 ∧ k.observerNext tmp ≠ observer then
      some { k with readerPc := .unlink observer (k.observerNext tmp) }
    else if k.observerNext tmp ≠ 0 then
      some { k with
        observerNext := Function.update k.observerNext tmp (k.observerNext observer)
        readerPc := .free observer }
    else some { k with readerPc := .free observer }
  | .free _ => some { k with readerPc := .test }
  | .test =>
    some { k with readerPc := if ttyLineReadCharsAvailable k.buffer.line = 0 then .idle else .read }
  | .read =>
    some { k with readerPc := .advance (k.buffer.mem (k.buffer.line.data + k.buffer.line.readPos)) }
  | .advance _ =>
    some { k with
      buffer := { k.buffer with line := { k.buffer.line with
        readPos := k.buffer.line.readPos + 1 } }
      readerPc := .idle }

/-- What happens next. -/
inductive TtyAct (τ : Type*)
  /-- A created thread is added. -/
  | add (t : τ)
  /-- The current thread is switched. -/
  | preempt (ticks : Word)
  /-- The current thread, outside the functions of this module, blocks itself and yields. -/
  | sleep (ticks : Word)
  /-- A thread is woken by something else. -/
  | wake (t : τ)
  /-- The keyboard thread calls `tty_send_key_event`. -/
  | key (event : TtyKeyEvent)
  /-- The reader calls `tty_getc`. -/
  | getc
  /-- The current thread executes its next statement. -/
  | exec (ticks address : Word)
deriving DecidableEq, Repr

/-- A thread is outside the functions of this module. -/
def TtyKernel.outside (reader keyboard : τ) (k : TtyKernel τ) (t : τ) : Prop :=
  (t = reader → k.readerPc = .idle) ∧ (t = keyboard → k.keyPc = .idle)

instance (reader keyboard : τ) (k : TtyKernel τ) (t : τ) :
    Decidable (k.outside reader keyboard t) :=
  inferInstanceAs (Decidable (_ ∧ _))

/-- Perform an act. Threads act once they are added. -/
def TtyKernel.perform (reader keyboard : τ) (krealloc : Krealloc) (k : TtyKernel τ) :
    TtyAct τ → Option (TtyKernel τ)
  | .add t =>
    if k.sched.state t = .created ∧ t ∉ k.added then
      (schedulerAddThread k.sched t).map fun sched =>
        { k with sched := sched, added := insert t k.added }
    else none
  | .preempt ticks => (schedulerYield k.sched ticks).map fun sched => { k with sched := sched }
  | .sleep ticks => k.sched.current.bind fun t =>
    if t ∈ k.added ∧ k.outside reader keyboard t then
      (schedulerMakeBlocked k.sched t).bind fun sched =>
        (schedulerYield sched ticks).map fun sched => { k with sched := sched }
    else none
  | .wake t =>
    if t ∈ k.added then
      (schedulerMakeRunnable k.sched t).map fun sched => { k with sched := sched }
    else none
  | .key event =>
    if k.sched.current = some keyboard ∧ keyboard ∈ k.added ∧ k.keyPc = .idle then
      some { k with keyPc := event.start }
    else none
  | .getc =>
    if k.sched.current = some reader ∧ reader ∈ k.added ∧ k.readerPc = .idle then
      some { k with readerPc := .check }
    else none
  | .exec ticks address => k.sched.current.bind fun t =>
    if t ∈ k.added then
      if t = keyboard then k.execKey krealloc
      else if t = reader then k.execReader reader ticks address
      else none
    else none

/-- `krealloc` may be called while a reader looks at the old data, whose bytes it leaves alone. -/
structure Krealloc.Keeps (krealloc : Krealloc) (b : TtyBuffer) : Prop
    extends krealloc.Preserves b where
  intact : ∀ size, ∀ i < b.line.capacity.toNat,
    (krealloc b.mem b.line.data size).2 (b.line.data + BitVec.ofNat 32 i) =
      b.mem (b.line.data + BitVec.ofNat 32 i)

/-- One step, restricted by `may`. -/
def TtyStep (reader keyboard : τ) (may : TtyKernel τ → TtyAct τ → Bool) (k k' : TtyKernel τ) :
    Prop :=
  ∃ act krealloc, may k act = true ∧ krealloc.Keeps k.buffer ∧
    k.perform reader keyboard krealloc act = some k'

/-- No threads added and nothing typed. -/
def TtyKernel.initial (s : Scheduler τ) (mem : ByteMem 32) (observerThread : Word → τ)
    (observerNext : Word → Word) : TtyKernel τ where
  sched := s
  added := ∅
  buffer := ttyInit mem
  observers := 0
  observerThread := observerThread
  observerNext := observerNext
  keyPc := .idle
  readerPc := .idle

/-- The states of runs. -/
def TtyKernelReachable (reader keyboard : τ) (may : TtyKernel τ → TtyAct τ → Bool)
    (k : TtyKernel τ) : Prop :=
  ∃ s mem observerThread observerNext, KernelInit s ∧
    Relation.ReflTransGen (TtyStep reader keyboard may)
      (.initial s mem observerThread observerNext) k

/-- Perform a schedule of acts with `krealloc` in place, or fail at the first that is not a step. -/
def TtyKernel.performAll (reader keyboard : τ) (may : TtyKernel τ → TtyAct τ → Bool) :
    TtyKernel τ → List (TtyAct τ) → Option (TtyKernel τ)
  | k, [] => some k
  | k, act :: rest =>
    if may k act = true ∧ (k.buffer.line.data = 0x1000 ∨ k.buffer.line.capacity = 0) then
      (k.perform reader keyboard inPlace act).bind (performAll reader keyboard may · rest)
    else none

/-- A schedule that does not fail is a run. -/
theorem TtyKernel.performAll_run {reader keyboard : τ} {may : TtyKernel τ → TtyAct τ → Bool}
    {k k' : TtyKernel τ} {acts : List (TtyAct τ)}
    (h : k.performAll reader keyboard may acts = some k') :
    Relation.ReflTransGen (TtyStep reader keyboard may) k k' := by
  induction acts generalizing k with
  | nil =>
    cases h
    exact .refl
  | cons act rest ih =>
    obtain ⟨⟨hmay, hblock⟩, hbind⟩ := Option.ite_none_right_eq_some.mp h
    obtain ⟨k₁, hact, hrest⟩ := Option.bind_eq_some_iff.mp hbind
    have hkeeps : inPlace.Keeps k.buffer :=
      { toPreserves := inPlace_preserves hblock, intact := fun _ _ _ => rfl }
    exact .head ⟨act, inPlace, hmay, hkeeps, hact⟩ (ih hrest)

end Functions

section Alone

variable {krealloc : Krealloc} {b : TtyBuffer}

/-- The keyboard thread's statements, one after another. -/
def KeyRun (krealloc : Krealloc) : TtyBuffer × KeyPc → TtyBuffer × KeyPc → Prop :=
  Relation.ReflTransGen fun x y => keyStatement krealloc x.1 x.2 = some y

/-- One statement first. -/
theorem KeyRun.step {b₁ : TtyBuffer} {pc pc₁ : KeyPc} {y : TtyBuffer × KeyPc}
    (h : keyStatement krealloc b pc = some (b₁, pc₁)) (hrun : KeyRun krealloc (b₁, pc₁) y) :
    KeyRun krealloc (b, pc) y :=
  .head h hrun

/-- The loop of `kmemcpy_b_fwd`. -/
theorem KeyRun.copyUp (line : TtyLine) (mem : ByteMem 32) (dest src len : Word) :
    KeyRun krealloc (⟨line, mem⟩, .copyUp dest src len 0)
      (⟨line, kmemcpyBFwd mem dest src len⟩, .cutLength) := by
  have hloop : ∀ n : ℕ, n ≤ len.toNat → KeyRun krealloc (⟨line, mem⟩, .copyUp dest src len 0)
      (⟨line, Lib.copyUp mem dest src n⟩, .copyUp dest src len (BitVec.ofNat 32 n)) := by
    intro n hn
    induction n with
    | zero => exact .refl
    | succ n ih =>
      refine (ih (by omega)).tail ?_
      have hlt : BitVec.ofNat 32 n < len := by
        rw [BitVec.lt_def, BitVec.toNat_ofNat]
        exact Nat.lt_of_le_of_lt (Nat.mod_le _ _) (by omega)
      rw [keyStatement, if_pos hlt, Lib.copyUp, BitVec.ofNat_add]
      rfl
  refine (hloop len.toNat (Nat.le_refl _)).tail ?_
  rw [BitVec.ofNat_toNat, BitVec.setWidth_eq, keyStatement, if_neg (BitVec.lt_irrefl len)]
  rfl

/-- The loop of `kmemcpy_b_rev`. -/
theorem KeyRun.copyDown (line : TtyLine) (mem : ByteMem 32) (dest src len : Word) :
    KeyRun krealloc (⟨line, mem⟩, .copyDown dest src len)
      (⟨line, kmemcpyBRev mem dest src len⟩, .cutLength) := by
  have hloop : ∀ n : ℕ, n < 2 ^ 32 → ∀ mem, KeyRun krealloc
      (⟨line, mem⟩, .copyDown dest src (BitVec.ofNat 32 n))
      (⟨line, Lib.copyDown mem dest src n⟩, .cutLength) := by
    intro n hn
    induction n with
    | zero => exact fun mem => .single rfl
    | succ n ih =>
      intro mem
      refine .head ?_ (ih (by omega) _)
      have hpos : BitVec.ofNat 32 (n + 1) > 0 := by
        rw [gt_iff_lt, BitVec.lt_def, BitVec.toNat_ofNat, Nat.mod_eq_of_lt hn]
        exact Nat.succ_pos n
      have hpred : BitVec.ofNat 32 (n + 1) - 1 = BitVec.ofNat 32 n := by
        rw [BitVec.ofNat_add]
        exact BitVec.add_sub_cancel _ _
      rw [keyStatement, if_pos hpos, hpred]
  have hrun := hloop len.toNat len.isLt mem
  rwa [BitVec.ofNat_toNat, BitVec.setWidth_eq] at hrun

/-- `tty_line_append_char` of a character that is not a backspace, up to its last statement. -/
theorem KeyRun.append {c : BitVec 8} (hc : c ≠ backspace) {b' : TtyBuffer} {ok : Bool}
    (h : ttyLineAppendChar krealloc b c = some (b', ok)) :
    KeyRun krealloc (b, .reserve c)
      (b', if ok then if c = ttyNewLineChar then .move else .idle else .idle) := by
  -- the store and the two increments
  have hput : ∀ b : TtyBuffer, ttyLineWriteSpaceAvailable b.line > 0 → KeyRun krealloc (b, .store c)
      (⟨{ b.line with writePos := b.line.writePos + 1, length := b.line.length + 1 },
        Function.update b.mem (b.line.data + b.line.writePos) c⟩,
        if c = ttyNewLineChar then .move else .idle) := by
    intro b hspace
    exact KeyRun.step (if_pos hspace) (KeyRun.step rfl (KeyRun.step rfl .refl))
  rw [ttyLineAppendChar, if_neg hc, ttyLineReserveSpace] at h
  by_cases hfull : ttyLineWriteSpaceAvailable b.line < 1
  · rw [if_pos hfull] at h
    have hreserve : keyStatement krealloc b (.reserve c) =
        some (b, .realloc c (ttyLineNewCapacity b.line 1)) := by
      rw [keyStatement, if_pos hfull]
    by_cases hfailed : (krealloc b.mem b.line.data (ttyLineNewCapacity b.line 1)).1 = 0
    · dsimp only at h
      rw [if_neg (not_not_intro hfailed)] at h
      cases h
      refine KeyRun.step hreserve (.single ?_)
      rw [keyStatement]
      dsimp only
      rw [if_neg (not_not_intro hfailed)]
      rfl
    · dsimp only at h
      rw [if_pos hfailed, if_pos rfl] at h
      obtain ⟨hspace, h⟩ := Option.ite_none_right_eq_some.mp h
      cases h
      have hrealloc : keyStatement krealloc b (.realloc c (ttyLineNewCapacity b.line 1)) =
          some ({ b with mem := (krealloc b.mem b.line.data (ttyLineNewCapacity b.line 1)).2 },
            .setData c (krealloc b.mem b.line.data (ttyLineNewCapacity b.line 1)).1
              (ttyLineNewCapacity b.line 1)) := by
        rw [keyStatement, if_pos hfailed]
      exact KeyRun.step hreserve (KeyRun.step hrealloc (KeyRun.step rfl (KeyRun.step rfl
        (hput _ hspace))))
  · rw [if_neg hfull] at h
    dsimp only at h
    rw [if_pos rfl] at h
    obtain ⟨hspace, h⟩ := Option.ite_none_right_eq_some.mp h
    cases h
    refine KeyRun.step ?_ (hput b hspace)
    rw [keyStatement, if_neg hfull]

end Alone

end ChrisOS.Drivers
