import ChrisOS.Drivers.TtyObservers

/-!
# Readers that miss a newline

A reader that finds nothing to read puts itself on the list of observers and blocks; the newline
that ends a line wakes the observers. The two are not synchronised. A newline typed after the
reader has looked and before it has blocked wakes nobody, and the reader sleeps with a finished
line in the buffer until the next newline.

Without such a newline, and as long as reading a character does not overlap with erasing one or
with compacting the buffer, a reader that sleeps has no newline to read.
-/

namespace ChrisOS.Drivers

open ChrisOS.Lib ChrisOS.Utils ChrisOS.Kern

/-- The reader has found nothing to read and has not blocked yet. -/
def ReaderPc.deciding : ReaderPc → Bool
  | .new | .link _ | .prepend _ | .block _ => true
  | _ => false

/-- The reader has found something to read and has not read it yet. -/
def ReaderPc.reading : ReaderPc → Bool
  | .read | .advance _ => true
  | _ => false

variable {τ : Type*} [DecidableEq τ]

section Orderly

variable {reader keyboard : τ} {krealloc : Krealloc} {k k' : TtyKernel τ} {act : TtyAct τ}

/-- Between the reader's finding nothing to read and its blocking no statement of `tty_line_newline`
is executed; a character is not read while another is erased or the buffer is compacted; and the
buffer's capacity does not overflow when it is doubled. -/
def TtyKernel.orderly (reader keyboard : τ) (k : TtyKernel τ) : TtyAct τ → Bool
  | .exec _ _ =>
    if k.sched.current = some keyboard then
      !(k.keyPc.inNewline && k.readerPc.deciding) && !(k.keyPc.rewrites && k.readerPc.reading) &&
        k.buffer.line.capacity.toNat < 2 ^ 31
    else if k.sched.current = some reader then !(k.readerPc = .test && k.keyPc.rewriting)
    else true
  | _ => true

/-- The reader has found nothing to read, and has not been woken since. -/
def TtyKernel.Waiting (reader : τ) (k : TtyKernel τ) : Prop :=
  k.readerPc.deciding = true ∨ k.sched.state reader = .blocked ∧ k.readerPc.waits = true

/-- A notification is to come, or has come to the observer of the blocked reader, or no newline is
unread. -/
def TtyKernel.Covered (reader : τ) (k : TtyKernel τ) : Prop :=
  (k.keyPc.willNotify = true ∨ NoLine k.buffer) ∨
    k.keyPc = .wake k.readerPc.linked ∧ k.sched.state reader = .blocked

/-- What holds in orderly runs. -/
structure TtyGood (reader : τ) (k : TtyKernel τ) : Prop where
  line : LineOk k.buffer k.keyPc
  reading : k.readerPc.reading = true →
    k.buffer.line.readPos < k.buffer.line.length ∧ k.keyPc.rewriting = false
  waiting : k.Waiting reader → k.Covered reader

/-- A reader that has not blocked yet is not blocked. -/
theorem TtyBase.not_blocked (h : TtyBase reader k) (hdeciding : k.readerPc.deciding = true) :
    k.sched.state reader ≠ .blocked := by
  intro hblocked
  obtain hidle | hwaits := h.blocked hblocked
  · rw [hidle] at hdeciding
    cases hdeciding
  · cases hpc : k.readerPc with
    | yield | recheck =>
      rw [hpc] at hdeciding
      cases hdeciding
    | _ =>
      rw [hpc] at hwaits
      cases hwaits

/-- For a reader that has not blocked yet, no notification can be under way. -/
theorem TtyGood.covered (h : TtyGood reader k) (hbase : TtyBase reader k)
    (hdeciding : k.readerPc.deciding = true) : k.keyPc.willNotify = true ∨ NoLine k.buffer :=
  (h.waiting (Or.inl hdeciding)).resolve_right fun hwoken => hbase.not_blocked hdeciding hwoken.2

omit [DecidableEq τ] in
/-- A reader waits with no newline unread, unless a notification is to come or under way. -/
theorem TtyGood.noLine (h : TtyGood reader k) (hw : k.Waiting reader)
    (hwill : k.keyPc.willNotify = false) (hwake : ∀ elt, k.keyPc ≠ .wake elt) :
    NoLine k.buffer := by
  obtain (hnotify | hno) | ⟨hwoken, _⟩ := h.waiting hw
  · exact absurd (hwill.symm.trans hnotify) Bool.false_ne_true
  · exact hno
  · exact absurd hwoken (hwake _)

variable {pc : KeyPc}

/-- Notifications are sent from within `tty_line_newline`. -/
theorem KeyPc.willNotify_of_not_inNewline (h : pc.inNewline = false) : pc.willNotify = false := by
  cases pc with
  | incLength c => exact h
  | move | copyUp | copyDown | cutLength | cutWritePos | zeroReadPos | notify => cases h
  | _ => rfl

/-- The scheduler changed, and did not block a waiting reader. -/
theorem TtyGood.frame (h : TtyGood reader k) (hbase : TtyBase reader k) {s : Scheduler τ}
    {added : Finset τ} (hblocked : s.state reader = .blocked → k.readerPc.waits = true →
      k.sched.state reader = .blocked) :
    TtyGood reader { k with sched := s, added := added } where
  line := h.line
  reading := h.reading
  waiting := fun hw => by
    obtain hdeciding | ⟨hb, hwaits⟩ := hw
    · exact Or.inl (h.covered hbase hdeciding)
    · obtain hcovered | ⟨hwake, _⟩ := h.waiting (Or.inr ⟨hblocked hb hwaits, hwaits⟩)
      · exact Or.inl hcovered
      · exact Or.inr ⟨hwake, hb⟩

omit [DecidableEq τ] in
/-- The reader moved on without being blocked. -/
theorem TtyGood.readerMoved (h : TtyGood reader k) (hready : k.sched.state reader ≠ .blocked)
    {observers : Word} {thread : Word → τ} {next : Word → Word} {pc : ReaderPc}
    (hreading : pc.reading = true →
      k.buffer.line.readPos < k.buffer.line.length ∧ k.keyPc.rewriting = false)
    (hdeciding : pc.deciding = true → k.keyPc.willNotify = true ∨ NoLine k.buffer) :
    TtyGood reader ⟨k.sched, k.added, k.buffer, observers, thread, next, k.keyPc, pc⟩ where
  line := h.line
  reading := hreading
  waiting := fun hw => by
    obtain hd | ⟨hb, _⟩ := hw
    · exact Or.inl (hdeciding hd)
    · exact absurd hb hready

omit [DecidableEq τ] in
/-- The reader looked for characters. Where there were none, there is no line. -/
theorem TtyGood.readerLooked (h : TtyGood reader k) (hready : k.sched.state reader ≠ .blocked)
    {pc pc' : ReaderPc} (hnone : pc.reading = false) (hsome : pc'.reading = false)
    (hdecided : pc'.deciding = false) :
    TtyGood reader
      { k with readerPc := if ttyLineReadCharsAvailable k.buffer.line = 0 then pc else pc' } := by
  split
  · rename_i hzero
    exact h.readerMoved hready (fun hr => absurd (hnone.symm.trans hr) Bool.false_ne_true)
      fun _ => noLine_of_not_available h.line hzero
  · exact h.readerMoved hready (fun hr => absurd (hsome.symm.trans hr) Bool.false_ne_true)
      fun hd => absurd (hdecided.symm.trans hd) Bool.false_ne_true

/-- Outside the statements that rewrite the buffer the positions are in order. -/
theorem LineOk.readPos_le {b : TtyBuffer} (h : LineOk b pc) (hpc : pc.rewriting = false) :
    b.line.readPos ≤ b.line.length := by
  cases pc with
  | eraseWritePos | eraseLength | copyUp | copyDown | cutLength | cutWritePos | zeroReadPos =>
    cases hpc
  | _ => exact h.1

/-- Reading a character keeps the positions in order, if the buffer is not being rewritten. -/
theorem LineOk.advance {b : TtyBuffer} (h : LineOk b pc) (hlt : b.line.readPos < b.line.length)
    (hpc : pc.rewriting = false) :
    LineOk { b with line := { b.line with readPos := b.line.readPos + 1 } } pc := by
  have hnext : b.line.readPos + 1 ≤ b.line.length := by bv_omega
  cases pc with
  | eraseWritePos | eraseLength | copyUp | copyDown | cutLength | cutWritePos | zeroReadPos =>
    cases hpc
  | _ => exact ⟨hnext, h.2⟩

/-- While a character is read, the statements that do not rewrite the buffer leave it there. -/
theorem keyStatement_reading {b b' : TtyBuffer} {pc pc' : KeyPc} (h : LineOk b pc)
    (hlt : b.line.readPos < b.line.length) (hpc : pc.rewrites = false)
    (hstatement : keyStatement krealloc b pc = some (b', pc')) :
    b'.line.readPos < b'.line.length ∧ pc'.rewriting = false := by
  cases pc with
  | edit | eraseWritePos | eraseLength | move | copyUp | copyDown | cutLength | cutWritePos
  | zeroReadPos => cases hpc
  | idle | notify | wake | next => cases hstatement
  | setData | setCapacity | incWritePos =>
    cases hstatement
    exact ⟨hlt, rfl⟩
  | reserve | realloc =>
    cases hstatement
    exact ⟨hlt, by split <;> rfl⟩
  | store =>
    obtain ⟨_, hstatement⟩ := Option.ite_none_right_eq_some.mp hstatement
    cases hstatement
    exact ⟨hlt, rfl⟩
  | incLength =>
    cases hstatement
    have hroom := h.2.1
    refine ⟨?_, by split <;> rfl⟩
    dsimp only
    bv_omega

/-- What is asked of an orderly statement of the keyboard thread. -/
theorem orderly_keyboard (hcurrent : k.sched.current = some keyboard) {ticks address : Word}
    (h : k.orderly reader keyboard (.exec ticks address) = true) :
    (k.keyPc.inNewline = true → k.readerPc.deciding = false) ∧
      (k.readerPc.reading = true → k.keyPc.rewrites = false) ∧
      k.buffer.line.capacity.toNat < 2 ^ 31 := by
  rw [TtyKernel.orderly, if_pos hcurrent] at h
  obtain ⟨hboth, hcapacity⟩ := Bool.and_eq_true_iff.mp h
  obtain ⟨hnewline, hrewrites⟩ := Bool.and_eq_true_iff.mp hboth
  refine ⟨fun hin => ?_, fun hreading => ?_, of_decide_eq_true hcapacity⟩
  · rw [hin] at hnewline
    simpa using hnewline
  · rw [hreading] at hrewrites
    simpa using hrewrites

/-- Every orderly step keeps a waiting reader covered. -/
theorem TtyGood.step (hbase : TtyBase reader k) (h : TtyGood reader k)
    (hk : krealloc.Keeps k.buffer) (horderly : k.orderly reader keyboard act = true)
    (hmove : TtyMove reader keyboard krealloc k act k') : TtyGood reader k' := by
  cases hmove with
  | add t s hcreated hcurrent hstate =>
    refine h.frame hbase fun hb _ => ?_
    rw [hstate] at hb
    exact blocked_of_woken hb
  | switch ticks s hstate hcurrent => exact h.frame hbase fun hb _ => (hstate reader).mp hb
  | sleep t ticks s houtside hstate hcurrent =>
    refine h.frame hbase fun hb hwaits => ((hstate reader).mp hb).resolve_left fun ht => ?_
    rw [houtside.1 ht.symm] at hwaits
    cases hwaits
  | wake t s hcurrent hstate =>
    refine h.frame hbase fun hb _ => ?_
    rw [hstate] at hb
    exact blocked_of_woken hb
  | key event hidle =>
    have hline := h.line
    rw [hidle] at hline
    have hstart : LineOk k.buffer event.start ∧ event.start.rewriting = false := by
      unfold TtyKeyEvent.start
      split
      · split
        · exact ⟨hline, rfl⟩
        · exact ⟨hline, rfl⟩
      · exact ⟨hline, rfl⟩
    refine ⟨hstart.1, fun hreading => ⟨(h.reading hreading).1, hstart.2⟩, fun hw => ?_⟩
    exact Or.inl (Or.inr (h.noLine hw (by rw [hidle]; rfl) (by simp [hidle])))
  | getc hcurrent hadded hidle =>
    exact h.readerMoved (hbase.ready hcurrent (by simp [hidle])) (fun hr => by cases hr)
      fun hd => by cases hd
  | statement ticks address b pc hcurrent hstatement =>
    obtain ⟨_, hrewrites, hcapacity⟩ := orderly_keyboard hcurrent horderly
    refine ⟨keyStatement_lineOk h.line hk (fun _ _ => hcapacity) hstatement, fun hreading => ?_,
      fun hw => ?_⟩
    · exact keyStatement_reading h.line (h.reading hreading).1 (hrewrites hreading) hstatement
    · obtain hcovered | ⟨hwake, _⟩ := h.waiting hw
      · exact Or.inl (keyStatement_noLine h.line hk hcovered hstatement)
      · rw [hwake] at hstatement
        cases hstatement
  | notify ticks address hcurrent hpc =>
    obtain ⟨hnewline, _, _⟩ := orderly_keyboard hcurrent horderly
    have hdeciding := hnewline (by rw [hpc]; rfl)
    have hline := h.line
    rw [hpc] at hline
    refine ⟨?_, fun hreading => ⟨(h.reading hreading).1, by dsimp only; split <;> rfl⟩, fun hw => ?_⟩
    · dsimp only
      split
      · exact hline
      · exact hline
    · obtain hd | ⟨hb, hwaits⟩ := hw
      · exact absurd (hdeciding.symm.trans hd) Bool.false_ne_true
      · -- the blocked reader's observer is the first
        have hzero : k.observers ≠ 0 := by
          rw [hbase.observers]
          refine (hbase.observer k.readerPc.linked ?_).1
          cases hreader : k.readerPc with
          | yield | recheck => rfl
          | _ =>
            dsimp only at hwaits
            rw [hreader] at hwaits
            cases hwaits
        refine Or.inr ⟨?_, hb⟩
        dsimp only
        rw [if_pos hzero, hbase.observers]
  | wakeObserver ticks address elt s hcurrent hpc hcurrent' hstate =>
    obtain ⟨hnewline, _, _⟩ := orderly_keyboard hcurrent horderly
    have hdeciding := hnewline (by rw [hpc]; rfl)
    have hline := h.line
    rw [hpc] at hline
    refine ⟨hline, fun hreading => ⟨(h.reading hreading).1, rfl⟩, fun hw => ?_⟩
    obtain hd | ⟨hb, _⟩ := hw
    · exact absurd (hdeciding.symm.trans hd) Bool.false_ne_true
    · dsimp only at hb
      rw [hstate, Function.update_self] at hb
      cases hb
  | next ticks address elt hcurrent hpc =>
    have hline := h.line
    rw [hpc] at hline
    refine ⟨hline, fun hreading => ⟨(h.reading hreading).1, rfl⟩, fun hw => ?_⟩
    exact Or.inl (Or.inr (h.noLine hw (by rw [hpc]; rfl) (by simp [hpc])))
  | check ticks address hcurrent hadded hpc =>
    exact h.readerLooked (hbase.ready hcurrent (by simp [hpc])) rfl rfl rfl
  | new ticks address hcurrent hadded hpc haddress =>
    exact h.readerMoved (hbase.ready hcurrent (by simp [hpc])) (fun hr => by cases hr)
      fun _ => h.covered hbase (by rw [hpc]; rfl)
  | link ticks address observer hcurrent hadded hpc =>
    exact h.readerMoved (hbase.ready hcurrent (by simp [hpc])) (fun hr => by cases hr)
      fun _ => h.covered hbase (by rw [hpc]; rfl)
  | prepend ticks address observer hcurrent hadded hpc =>
    exact h.readerMoved (hbase.ready hcurrent (by simp [hpc])) (fun hr => by cases hr)
      fun _ => h.covered hbase (by rw [hpc]; rfl)
  | block ticks address observer s hcurrent hadded hpc hcurrent' hstate =>
    exact ⟨h.line, (fun hr => by cases hr), fun _ => Or.inl (h.covered hbase (by rw [hpc]; rfl))⟩
  | yield ticks address observer s hcurrent hadded hpc hstate hcurrent' =>
    refine ⟨h.line, (fun hr => by cases hr), fun hw => ?_⟩
    obtain hd | ⟨hb, _⟩ := hw
    · cases hd
    · obtain hcovered | ⟨hwake, _⟩ := h.waiting (Or.inr ⟨(hstate reader).mp hb, by rw [hpc]; rfl⟩)
      · exact Or.inl hcovered
      · rw [hpc] at hwake
        exact Or.inr ⟨hwake, hb⟩
  | recheck ticks address observer hcurrent hadded hpc =>
    exact h.readerLooked (hbase.ready hcurrent (by simp [hpc])) rfl rfl rfl
  | delete ticks address observer hcurrent hadded hpc =>
    exact h.readerMoved (hbase.ready hcurrent (by simp [hpc])) (fun hr => by cases hr)
      fun hd => by cases hd
  | free ticks address observer hcurrent hadded hpc =>
    exact h.readerMoved (hbase.ready hcurrent (by simp [hpc])) (fun hr => by cases hr)
      fun hd => by cases hd
  | test ticks address hcurrent hother hadded hpc =>
    have hready := hbase.ready hcurrent (by simp [hpc])
    have hkeyboard : k.sched.current ≠ some keyboard := fun heq =>
      hother (Option.some.inj (hcurrent.symm.trans heq))
    have hrewriting : k.keyPc.rewriting = false := by
      rw [TtyKernel.orderly, if_neg hkeyboard, if_pos hcurrent, hpc] at horderly
      simpa using horderly
    split
    · exact h.readerMoved hready (fun hr => by cases hr) fun hd => by cases hd
    · rename_i hsome
      refine h.readerMoved hready (fun _ => ⟨?_, hrewriting⟩) fun hd => by cases hd
      have hle := h.line.readPos_le hrewriting
      unfold ttyLineReadCharsAvailable at hsome
      bv_omega
  | read ticks address hcurrent hadded hpc =>
    exact h.readerMoved (hbase.ready hcurrent (by simp [hpc]))
      (fun _ => h.reading (by rw [hpc]; rfl)) fun hd => by cases hd
  | advance ticks address c hcurrent hadded hpc =>
    have hready := hbase.ready hcurrent (by simp [hpc])
    obtain ⟨hlt, hrewriting⟩ := h.reading (by rw [hpc]; rfl)
    refine ⟨h.line.advance hlt hrewriting, (fun hr => by cases hr), fun hw => ?_⟩
    obtain hd | ⟨hb, _⟩ := hw
    · cases hd
    · exact absurd hb hready

end Orderly

section Runs

variable {reader keyboard : τ} {k k' : TtyKernel τ} {may : TtyKernel τ → TtyAct τ → Bool}

/-- The invariant in every state of every orderly run. -/
theorem TtyGood.of_reachable
    (h : TtyKernelReachable reader keyboard (TtyKernel.orderly reader keyboard) k) :
    TtyGood reader k := by
  obtain ⟨s, mem, observerThread, observerNext, hinit, hrun⟩ := h
  have hinitial : TtyBase reader (.initial s mem observerThread observerNext) :=
    TtyBase.initial hinit mem observerThread observerNext
  induction hrun with
  | refl =>
    refine ⟨⟨Nat.zero_le _, rfl, Nat.zero_le _⟩, (fun hr => by cases hr), fun hw => ?_⟩
    obtain hd | ⟨hb, _⟩ := hw
    · cases hd
    · exact absurd hb (hinit.ready reader)
  | tail hrun hstep ih =>
    obtain ⟨act, krealloc, horderly, hk, hact⟩ := hstep
    have hbase := hinitial.run hrun
    exact TtyGood.step hbase ih hk horderly (hbase.perform hact).1

/-- The reader is not woken, and no statement of `tty_line_newline` is executed. -/
def TtyKernel.quiet (reader keyboard : τ) (k : TtyKernel τ) : TtyAct τ → Bool
  | .wake t => t ≠ reader
  | .exec _ _ => !(k.sched.current = some keyboard && k.keyPc.inNewline)
  | _ => true

/-- Until the next newline nothing wakes a reader that has blocked. -/
theorem TtyBase.asleep_of_quiet (h : TtyBase reader k) (hblocked : k.sched.state reader = .blocked)
    (hrun : Relation.ReflTransGen (TtyStep reader keyboard (TtyKernel.quiet reader keyboard)) k k') :
    k'.sched.state reader = .blocked := by
  induction hrun with
  | refl => exact hblocked
  | @tail k₁ k₂ hrun hstep ih =>
    obtain ⟨act, krealloc, hquiet, _, hact⟩ := hstep
    obtain ⟨hmove, _⟩ := (h.run hrun).perform hact
    cases hmove with
    | add t s hcreated hcurrent hstate =>
      dsimp only
      rw [hstate]
      exact (blocked_added_iff hcreated).mpr ih
    | switch ticks s hstate hcurrent => exact (hstate reader).mpr ih
    | sleep t ticks s houtside hstate hcurrent => exact (hstate reader).mpr (Or.inr ih)
    | wake t s hcurrent hstate =>
      have ht : t ≠ reader := by simpa [TtyKernel.quiet] using hquiet
      dsimp only
      rw [hstate, Function.update_of_ne ht.symm, ih]
    | wakeObserver ticks address elt s hcurrent hpc hcurrent' hstate =>
      rw [TtyKernel.quiet, hpc, decide_eq_true hcurrent] at hquiet
      exact absurd hquiet Bool.false_ne_true
    | block ticks address observer s hcurrent hadded hpc hcurrent' hstate =>
      dsimp only
      rw [hstate, Function.update_self]
    | yield ticks address observer s hcurrent hadded hpc hstate hcurrent' =>
      exact (hstate reader).mpr ih
    | _ => exact ih

end Runs

/-- In orderly runs a reader blocked in `tty_wait_chars_available` has no newline to read once the
keyboard thread is outside `tty_line_newline`. In any run a reader that gets to its
`scheduler_make_blocked` blocks, whatever is in the buffer, and sleeps until something wakes it or
the next newline is typed. -/
theorem tty_reader_asleep_only_if_interleaved {reader keyboard : τ} (hne : reader ≠ keyboard) :
    (∀ k, TtyKernelReachable reader keyboard (TtyKernel.orderly reader keyboard) k →
      k.sched.state reader = .blocked → k.readerPc.waits = true → k.keyPc.inNewline = false →
      ttyNewLineChar ∉ k.buffer.unread) ∧
    ∀ k observer, TtyKernelReachable reader keyboard (fun _ _ => true) k →
      k.sched.current = some reader → k.readerPc = .block observer → ∀ krealloc ticks address,
        ∃ k', k.perform reader keyboard krealloc (.exec ticks address) = some k' ∧
          k'.buffer = k.buffer ∧ k'.keyPc = k.keyPc ∧ k'.readerPc.waits = true ∧
          ∀ k'', Relation.ReflTransGen
            (TtyStep reader keyboard (TtyKernel.quiet reader keyboard)) k' k'' →
              k''.sched.state reader = .blocked := by
  constructor
  · intro k hk hblocked hwaits hnewline
    rw [← noLine_iff]
    have hwake : ∀ elt, k.keyPc ≠ .wake elt := by
      intro elt hpc
      rw [hpc] at hnewline
      cases hnewline
    exact (TtyGood.of_reachable hk).noLine (Or.inr ⟨hblocked, hwaits⟩)
      (KeyPc.willNotify_of_not_inNewline hnewline) hwake
  · intro k observer hk hcurrent hpc krealloc ticks address
    have hbase := TtyBase.of_reachable hk
    have hadded : reader ∈ k.added := hbase.added.resolve_left (by simp [hpc])
    obtain ⟨s, hmake⟩ := hbase.live.exists_makeBlocked (Finset.mem_coe.mpr hadded)
    obtain ⟨hlive, hcurrent', hstate⟩ :=
      hbase.live.makeBlocked (Finset.mem_coe.mpr hadded) hmake
    have hmove : TtyMove reader keyboard krealloc k (.exec ticks address)
        { k with sched := s, readerPc := .yield observer } :=
      .block ticks address observer s hcurrent hadded hpc hcurrent' hstate
    refine ⟨{ k with sched := s, readerPc := .yield observer }, ?_, rfl, rfl, rfl, fun k'' hrun => ?_⟩
    · simp [TtyKernel.perform, TtyKernel.execReader, hcurrent, hadded, hne, hpc, hmake]
    · refine (hbase.step hmove hlive).asleep_of_quiet ?_ hrun
      dsimp only
      rw [hstate, Function.update_self]

/-- A reader called `false` and a keyboard thread called `true`. -/
def ttyThreads : TtyKernel Bool :=
  .initial Scheduler.zeroed (fun _ => 0) (fun _ => true) fun _ => 0

theorem ttyThreads_reachable {may : TtyKernel Bool → TtyAct Bool → Bool} {k : TtyKernel Bool}
    (hrun : Relation.ReflTransGen (TtyStep false true may) ttyThreads k) :
    TtyKernelReachable false true may k :=
  ⟨_, _, _, _, ⟨Scheduler.zeroed_init, fun _ h => by cases h⟩, hrun⟩

/-- The reader is switched to and calls `tty_getc`, which finds nothing. -/
def readerChecks : List (TtyAct Bool) := [.add false, .add true, .preempt 1, .getc, .exec 1 0]

/-- The reader puts its observer on the list and blocks. -/
def readerBlocks (ticks : Word) : List (TtyAct Bool) := List.replicate 4 (.exec ticks 0x2000)

/-- The reader sleeps and the keyboard thread stores a character. -/
def sleepsThenTyped : TtyKernel Bool :=
  (ttyThreads.performAll false true (TtyKernel.orderly false true)
    (readerChecks ++ readerBlocks 1 ++ [.exec 2 0, .key (keyDown 0x61)] ++
      List.replicate 7 (.exec 2 0))).get (by decide +kernel)

/-- The keyboard thread handles a whole newline before the reader has blocked. -/
def typedThenSleeps : TtyKernel Bool :=
  (ttyThreads.performAll false true (fun _ _ => true)
    (readerChecks ++ [.preempt 2, .key (keyDown ttyNewLineChar)] ++
      List.replicate 14 (.exec 2 0) ++ [.preempt 3] ++ readerBlocks 3)).get (by decide +kernel)

/-- A reader sleeps while the first character of a line is typed. -/
theorem tty_reader_asleep_typed :
    ∃ k : TtyKernel Bool, TtyKernelReachable false true (TtyKernel.orderly false true) k ∧
      k.sched.state false = .blocked ∧ k.buffer.unread = [0x61] ∧
      ttyNewLineChar ∉ k.buffer.unread := by
  have hreach : TtyKernelReachable false true (TtyKernel.orderly false true) sleepsThenTyped :=
    ttyThreads_reachable (TtyKernel.performAll_run (Option.some_get _).symm)
  have hblocked : sleepsThenTyped.sched.state false = .blocked := by decide +kernel
  exact ⟨sleepsThenTyped, hreach, hblocked, by decide +kernel,
    (tty_reader_asleep_only_if_interleaved (by decide)).1 _ hreach hblocked (by decide +kernel)
      (by decide +kernel)⟩

/-- A newline is typed after the reader has found nothing to read and before it has put its observer
on the list: the reader sleeps with a finished line unread until the next newline. -/
theorem tty_reader_misses_newline :
    ∃ k : TtyKernel Bool, TtyKernelReachable false true (fun _ _ => true) k ∧
      k.sched.state false = .blocked ∧ k.readerPc.waits = true ∧ k.keyPc = .idle ∧
      ttyNewLineChar ∈ k.buffer.unread ∧
      ∀ k', Relation.ReflTransGen (TtyStep false true (TtyKernel.quiet false true)) k k' →
        k'.sched.state false = .blocked := by
  have hreach : TtyKernelReachable false true (fun _ _ => true) typedThenSleeps :=
    ttyThreads_reachable (TtyKernel.performAll_run (Option.some_get _).symm)
  have hblocked : typedThenSleeps.sched.state false = .blocked := by decide +kernel
  exact ⟨typedThenSleeps, hreach, hblocked, by decide +kernel, by decide +kernel, by decide +kernel,
    fun k' hrun => (TtyBase.of_reachable hreach).asleep_of_quiet hblocked hrun⟩

end ChrisOS.Drivers
