import ChrisOS.Drivers.TtyStatements

/-!
# The list of observers

What every step of the two threads can do, and what holds in all runs: with one reader the list
of observers is empty or has the reader's observer on it, and the reader is blocked by its own
doing only.
-/

namespace ChrisOS.Drivers

open ChrisOS.Lib ChrisOS.Utils ChrisOS.Kern

/-- The reader has blocked, and has not looked again. -/
def ReaderPc.waits : ReaderPc → Bool
  | .yield _ | .recheck _ => true
  | _ => false

/-- The observer that is on the list. -/
def ReaderPc.linked : ReaderPc → Word
  | .block observer | .yield observer | .recheck observer | .delete observer => observer
  | _ => 0

/-- The observer that is on the list or is about to be. -/
def ReaderPc.observer : ReaderPc → Option Word
  | .link observer | .prepend observer | .block observer | .yield observer | .recheck observer
  | .delete observer => some observer
  | _ => none

variable {τ : Type*} [DecidableEq τ]

/-- What holds in all runs: the reader is blocked by its own doing only, and the list of observers is
empty or has its observer on it. -/
structure TtyBase (reader : τ) (k : TtyKernel τ) : Prop where
  live : SchedLive (k.added : Set τ) k.sched
  added : k.readerPc = .idle ∨ reader ∈ k.added
  blocked : k.sched.state reader = .blocked → k.readerPc = .idle ∨ k.readerPc.waits = true
  current : k.sched.current = some reader → k.sched.state reader = .blocked →
    ∃ observer, k.readerPc = .yield observer
  observers : k.observers = k.readerPc.linked
  observer : ∀ observer, k.readerPc.observer = some observer →
    observer ≠ 0 ∧ k.observerThread observer = reader ∧ k.observerNext observer = 0
  links : ∀ observer tmp, k.readerPc ≠ .unlink observer tmp
  walk : ∀ elt, k.keyPc = .wake elt ∨ k.keyPc = .next elt →
    reader ∈ k.added ∧ k.observerThread elt = reader ∧ k.observerNext elt = 0

/-- Everything a step can do, with its effect on who is blocked and who is current. -/
inductive TtyMove (reader keyboard : τ) (krealloc : Krealloc) (k : TtyKernel τ) :
    TtyAct τ → TtyKernel τ → Prop
  | add (t : τ) (s : Scheduler τ) (hcreated : k.sched.state t = .created)
      (hcurrent : s.current = k.sched.current)
      (hstate : s.state = Function.update k.sched.state t .runnable) :
      TtyMove reader keyboard krealloc k (.add t) { k with sched := s, added := insert t k.added }
  | switch (ticks : Word) (s : Scheduler τ)
      (hstate : ∀ x, s.state x = .blocked ↔ k.sched.state x = .blocked)
      (hcurrent : ∀ x, s.current = some x → s.state x ≠ .blocked) :
      TtyMove reader keyboard krealloc k (.preempt ticks) { k with sched := s }
  | sleep (t : τ) (ticks : Word) (s : Scheduler τ) (houtside : k.outside reader keyboard t)
      (hstate : ∀ x, s.state x = .blocked ↔ x = t ∨ k.sched.state x = .blocked)
      (hcurrent : ∀ x, s.current = some x → s.state x ≠ .blocked) :
      TtyMove reader keyboard krealloc k (.sleep ticks) { k with sched := s }
  | wake (t : τ) (s : Scheduler τ) (hcurrent : s.current = k.sched.current)
      (hstate : s.state = Function.update k.sched.state t .runnable) :
      TtyMove reader keyboard krealloc k (.wake t) { k with sched := s }
  | key (event : TtyKeyEvent) (hidle : k.keyPc = .idle) :
      TtyMove reader keyboard krealloc k (.key event) { k with keyPc := event.start }
  | getc (hcurrent : k.sched.current = some reader) (hadded : reader ∈ k.added)
      (hidle : k.readerPc = .idle) :
      TtyMove reader keyboard krealloc k .getc { k with readerPc := .check }
  | statement (ticks address : Word) (b : TtyBuffer) (pc : KeyPc)
      (hcurrent : k.sched.current = some keyboard)
      (hstatement : keyStatement krealloc k.buffer k.keyPc = some (b, pc)) :
      TtyMove reader keyboard krealloc k (.exec ticks address) { k with buffer := b, keyPc := pc }
  | notify (ticks address : Word) (hcurrent : k.sched.current = some keyboard)
      (hpc : k.keyPc = .notify) :
      TtyMove reader keyboard krealloc k (.exec ticks address)
        { k with keyPc := if k.observers ≠ 0 then .wake k.observers else .idle }
  | wakeObserver (ticks address elt : Word) (s : Scheduler τ)
      (hcurrent : k.sched.current = some keyboard) (hpc : k.keyPc = .wake elt)
      (hcurrent' : s.current = k.sched.current)
      (hstate : s.state = Function.update k.sched.state reader .runnable) :
      TtyMove reader keyboard krealloc k (.exec ticks address)
        { k with sched := s, keyPc := .next elt }
  | next (ticks address elt : Word) (hcurrent : k.sched.current = some keyboard)
      (hpc : k.keyPc = .next elt) :
      TtyMove reader keyboard krealloc k (.exec ticks address) { k with keyPc := .idle }
  | check (ticks address : Word) (hcurrent : k.sched.current = some reader)
      (hadded : reader ∈ k.added) (hpc : k.readerPc = .check) :
      TtyMove reader keyboard krealloc k (.exec ticks address)
        { k with readerPc := if ttyLineReadCharsAvailable k.buffer.line = 0 then .new else .test }
  | new (ticks address : Word) (hcurrent : k.sched.current = some reader)
      (hadded : reader ∈ k.added) (hpc : k.readerPc = .new) (haddress : address ≠ 0) :
      TtyMove reader keyboard krealloc k (.exec ticks address)
        { k with
          observerThread := Function.update k.observerThread address reader
          observerNext := Function.update k.observerNext address 0
          readerPc := .link address }
  | link (ticks address observer : Word) (hcurrent : k.sched.current = some reader)
      (hadded : reader ∈ k.added) (hpc : k.readerPc = .link observer) :
      TtyMove reader keyboard krealloc k (.exec ticks address)
        { k with
          observerNext := Function.update k.observerNext observer k.observers
          readerPc := .prepend observer }
  | prepend (ticks address observer : Word) (hcurrent : k.sched.current = some reader)
      (hadded : reader ∈ k.added) (hpc : k.readerPc = .prepend observer) :
      TtyMove reader keyboard krealloc k (.exec ticks address)
        { k with observers := observer, readerPc := .block observer }
  | block (ticks address observer : Word) (s : Scheduler τ)
      (hcurrent : k.sched.current = some reader) (hadded : reader ∈ k.added)
      (hpc : k.readerPc = .block observer) (hcurrent' : s.current = k.sched.current)
      (hstate : s.state = Function.update k.sched.state reader .blocked) :
      TtyMove reader keyboard krealloc k (.exec ticks address)
        { k with sched := s, readerPc := .yield observer }
  | yield (ticks address observer : Word) (s : Scheduler τ)
      (hcurrent : k.sched.current = some reader) (hadded : reader ∈ k.added)
      (hpc : k.readerPc = .yield observer)
      (hstate : ∀ x, s.state x = .blocked ↔ k.sched.state x = .blocked)
      (hcurrent' : ∀ x, s.current = some x → s.state x ≠ .blocked) :
      TtyMove reader keyboard krealloc k (.exec ticks address)
        { k with sched := s, readerPc := .recheck observer }
  | recheck (ticks address observer : Word) (hcurrent : k.sched.current = some reader)
      (hadded : reader ∈ k.added) (hpc : k.readerPc = .recheck observer) :
      TtyMove reader keyboard krealloc k (.exec ticks address)
        { k with readerPc := if ttyLineReadCharsAvailable k.buffer.line = 0 then .block observer
          else .delete observer }
  | delete (ticks address observer : Word) (hcurrent : k.sched.current = some reader)
      (hadded : reader ∈ k.added) (hpc : k.readerPc = .delete observer) :
      TtyMove reader keyboard krealloc k (.exec ticks address)
        { k with observers := 0, readerPc := .free observer }
  | free (ticks address observer : Word) (hcurrent : k.sched.current = some reader)
      (hadded : reader ∈ k.added) (hpc : k.readerPc = .free observer) :
      TtyMove reader keyboard krealloc k (.exec ticks address) { k with readerPc := .test }
  | test (ticks address : Word) (hcurrent : k.sched.current = some reader)
      (hother : reader ≠ keyboard) (hadded : reader ∈ k.added) (hpc : k.readerPc = .test) :
      TtyMove reader keyboard krealloc k (.exec ticks address)
        { k with readerPc := if ttyLineReadCharsAvailable k.buffer.line = 0 then .idle else .read }
  | read (ticks address : Word) (hcurrent : k.sched.current = some reader)
      (hadded : reader ∈ k.added) (hpc : k.readerPc = .read) :
      TtyMove reader keyboard krealloc k (.exec ticks address)
        { k with readerPc :=
          .advance (k.buffer.mem (k.buffer.line.data + k.buffer.line.readPos)) }
  | advance (ticks address : Word) (c : BitVec 8) (hcurrent : k.sched.current = some reader)
      (hadded : reader ∈ k.added) (hpc : k.readerPc = .advance c) :
      TtyMove reader keyboard krealloc k (.exec ticks address)
        { k with
          buffer := { k.buffer with line := { k.buffer.line with
            readPos := k.buffer.line.readPos + 1 } }
          readerPc := .idle }

section Moves

variable {reader keyboard : τ} {krealloc : Krealloc} {k k' : TtyKernel τ}

/-- What a statement of the keyboard thread does. -/
theorem TtyBase.execKey (h : TtyBase reader k) (hcurrent : k.sched.current = some keyboard)
    (ticks address : Word) (hexec : k.execKey krealloc = some k') :
    TtyMove reader keyboard krealloc k (.exec ticks address) k' ∧
      SchedLive (k'.added : Set τ) k'.sched := by
  have hstatement : ∀ {k'}, (keyStatement krealloc k.buffer k.keyPc).map
      (fun result => { k with buffer := result.1, keyPc := result.2 }) = some k' →
      TtyMove reader keyboard krealloc k (.exec ticks address) k' ∧
        SchedLive (k'.added : Set τ) k'.sched := by
    intro k' hmap
    obtain ⟨⟨b, pc⟩, hstatement, rfl⟩ := Option.map_eq_some_iff.mp hmap
    exact ⟨.statement ticks address b pc hcurrent hstatement, h.live⟩
  rw [TtyKernel.execKey] at hexec
  cases hpc : k.keyPc with
  | notify =>
    simp only [hpc] at hexec
    cases hexec
    exact ⟨.notify ticks address hcurrent hpc, h.live⟩
  | wake elt =>
    simp only [hpc] at hexec
    obtain ⟨hadded, hthread, _⟩ := h.walk elt (Or.inl hpc)
    rw [hthread] at hexec
    obtain ⟨s, hmake, rfl⟩ := Option.map_eq_some_iff.mp hexec
    obtain ⟨hlive, hcurrent', hstate⟩ := h.live.makeRunnable (Finset.mem_coe.mpr hadded) hmake
    exact ⟨.wakeObserver ticks address elt s hcurrent hpc hcurrent' hstate, hlive⟩
  | next elt =>
    simp only [hpc] at hexec
    obtain ⟨_, _, hnext⟩ := h.walk elt (Or.inr hpc)
    rw [hnext] at hexec
    cases hexec
    exact ⟨.next ticks address elt hcurrent hpc, h.live⟩
  | _ =>
    simp only [hpc] at hexec
    exact hstatement (hpc ▸ hexec)

/-- What a statement of the reader does. -/
theorem TtyBase.execReader (h : TtyBase reader k) (hcurrent : k.sched.current = some reader)
    (hadded : reader ∈ k.added) (hother : reader ≠ keyboard) (ticks address : Word)
    (hexec : k.execReader reader ticks address = some k') :
    TtyMove reader keyboard krealloc k (.exec ticks address) k' ∧
      SchedLive (k'.added : Set τ) k'.sched := by
  rw [TtyKernel.execReader] at hexec
  cases hpc : k.readerPc with
  | idle =>
    simp only [hpc] at hexec
    cases hexec
  | check =>
    simp only [hpc] at hexec
    cases hexec
    exact ⟨.check ticks address hcurrent hadded hpc, h.live⟩
  | new =>
    simp only [hpc] at hexec
    obtain ⟨haddress, hexec⟩ := Option.ite_none_right_eq_some.mp hexec
    cases hexec
    exact ⟨.new ticks address hcurrent hadded hpc haddress, h.live⟩
  | link observer =>
    simp only [hpc] at hexec
    cases hexec
    exact ⟨.link ticks address observer hcurrent hadded hpc, h.live⟩
  | prepend observer =>
    simp only [hpc] at hexec
    cases hexec
    exact ⟨.prepend ticks address observer hcurrent hadded hpc, h.live⟩
  | block observer =>
    simp only [hpc] at hexec
    obtain ⟨s, hmake, rfl⟩ := Option.map_eq_some_iff.mp hexec
    obtain ⟨hlive, hcurrent', hstate⟩ := h.live.makeBlocked (Finset.mem_coe.mpr hadded) hmake
    exact ⟨.block ticks address observer s hcurrent hadded hpc hcurrent' hstate, hlive⟩
  | yield observer =>
    simp only [hpc] at hexec
    obtain ⟨s, hyield, rfl⟩ := Option.map_eq_some_iff.mp hexec
    obtain ⟨hlive, hstate, hcurrent'⟩ := h.live.yield hyield
    exact ⟨.yield ticks address observer s hcurrent hadded hpc hstate hcurrent', hlive⟩
  | recheck observer =>
    simp only [hpc] at hexec
    cases hexec
    exact ⟨.recheck ticks address observer hcurrent hadded hpc, h.live⟩
  | delete observer =>
    have hobservers : k.observers = observer := by rw [h.observers, hpc]; rfl
    obtain ⟨_, _, hnext⟩ := h.observer observer (by rw [hpc]; rfl)
    simp only [hpc] at hexec
    rw [if_pos hobservers, hobservers, hnext] at hexec
    cases hexec
    exact ⟨.delete ticks address observer hcurrent hadded hpc, h.live⟩
  | unlink observer tmp => exact absurd hpc (h.links observer tmp)
  | free observer =>
    simp only [hpc] at hexec
    cases hexec
    exact ⟨.free ticks address observer hcurrent hadded hpc, h.live⟩
  | test =>
    simp only [hpc] at hexec
    cases hexec
    exact ⟨.test ticks address hcurrent hother hadded hpc, h.live⟩
  | read =>
    simp only [hpc] at hexec
    cases hexec
    exact ⟨.read ticks address hcurrent hadded hpc, h.live⟩
  | advance c =>
    simp only [hpc] at hexec
    cases hexec
    exact ⟨.advance ticks address c hcurrent hadded hpc, h.live⟩

/-- What an act does. -/
theorem TtyBase.perform (h : TtyBase reader k) {act : TtyAct τ}
    (hact : k.perform reader keyboard krealloc act = some k') :
    TtyMove reader keyboard krealloc k act k' ∧ SchedLive (k'.added : Set τ) k'.sched := by
  cases act with
  | add t =>
    obtain ⟨⟨hcreated, hnew⟩, hact⟩ := Option.ite_none_right_eq_some.mp hact
    obtain ⟨s, hadd, rfl⟩ := Option.map_eq_some_iff.mp hact
    obtain ⟨hlive, hcurrent, hstate⟩ := h.live.addThread hcreated (by simpa using hnew) hadd
    exact ⟨.add t s hcreated hcurrent hstate, by simpa using hlive⟩
  | preempt ticks =>
    obtain ⟨s, hyield, rfl⟩ := Option.map_eq_some_iff.mp hact
    obtain ⟨hlive, hstate, hcurrent⟩ := h.live.yield hyield
    exact ⟨.switch ticks s hstate hcurrent, hlive⟩
  | sleep ticks =>
    obtain ⟨t, _, hact⟩ := Option.bind_eq_some_iff.mp hact
    obtain ⟨⟨hadded, houtside⟩, hact⟩ := Option.ite_none_right_eq_some.mp hact
    obtain ⟨s₁, hmake, hact⟩ := Option.bind_eq_some_iff.mp hact
    obtain ⟨s, hyield, rfl⟩ := Option.map_eq_some_iff.mp hact
    obtain ⟨hlive₁, _, hstate₁⟩ := h.live.makeBlocked (Finset.mem_coe.mpr hadded) hmake
    obtain ⟨hlive, hstate, hcurrent⟩ := hlive₁.yield hyield
    refine ⟨.sleep t ticks s houtside (fun x => ?_) hcurrent, hlive⟩
    rw [hstate, hstate₁]
    by_cases hx : x = t
    · simp [hx]
    · simp [hx]
  | wake t =>
    obtain ⟨hadded, hact⟩ := Option.ite_none_right_eq_some.mp hact
    obtain ⟨s, hmake, rfl⟩ := Option.map_eq_some_iff.mp hact
    obtain ⟨hlive, hcurrent, hstate⟩ := h.live.makeRunnable (Finset.mem_coe.mpr hadded) hmake
    exact ⟨.wake t s hcurrent hstate, hlive⟩
  | key event =>
    obtain ⟨⟨_, _, hidle⟩, hact⟩ := Option.ite_none_right_eq_some.mp hact
    cases hact
    exact ⟨.key event hidle, h.live⟩
  | getc =>
    obtain ⟨⟨hcurrent, hadded, hidle⟩, hact⟩ := Option.ite_none_right_eq_some.mp hact
    cases hact
    exact ⟨.getc hcurrent hadded hidle, h.live⟩
  | exec ticks address =>
    obtain ⟨t, hcurrent, hact⟩ := Option.bind_eq_some_iff.mp hact
    obtain ⟨hadded, hact⟩ := Option.ite_none_right_eq_some.mp hact
    by_cases hkeyboard : t = keyboard
    · subst hkeyboard
      rw [if_pos rfl] at hact
      exact h.execKey hcurrent ticks address hact
    · rw [if_neg hkeyboard] at hact
      obtain ⟨rfl, hact⟩ := Option.ite_none_right_eq_some.mp hact
      exact h.execReader hcurrent hadded hkeyboard ticks address hact

end Moves

section Base

variable {reader keyboard : τ} {krealloc : Krealloc} {k k' : TtyKernel τ} {act : TtyAct τ}

/-- A current reader that is not about to yield is not blocked. -/
theorem TtyBase.ready (h : TtyBase reader k) (hcurrent : k.sched.current = some reader)
    (hpc : ∀ observer, k.readerPc ≠ .yield observer) : k.sched.state reader ≠ .blocked := by
  intro hblocked
  obtain ⟨observer, hyield⟩ := h.current hcurrent hblocked
  exact hpc observer hyield

/-- The scheduler changed, and the reader was neither blocked nor made current. -/
theorem TtyBase.frame (h : TtyBase reader k) {s : Scheduler τ} {added : Finset τ}
    (hlive : SchedLive (added : Set τ) s) (hadded : k.added ⊆ added)
    (hblocked : s.state reader = .blocked → k.sched.state reader = .blocked)
    (hcurrent : s.current = some reader → s.state reader = .blocked →
      k.sched.current = some reader) :
    TtyBase reader { k with sched := s, added := added } where
  live := hlive
  added := h.added.imp id (hadded ·)
  blocked := fun hb => h.blocked (hblocked hb)
  current := fun hc hb => h.current (hcurrent hc hb) (hblocked hb)
  observers := h.observers
  observer := h.observer
  links := h.links
  walk := fun elt helt => ⟨hadded (h.walk elt helt).1, (h.walk elt helt).2⟩

/-- A thread other than a blocked reader was woken, or the reader was. -/
theorem TtyBase.wake (h : TtyBase reader k) {s : Scheduler τ} {added : Finset τ} {t : τ}
    (hlive : SchedLive (added : Set τ) s) (hadded : k.added ⊆ added)
    (hcurrent : s.current = k.sched.current)
    (hstate : s.state = Function.update k.sched.state t .runnable) :
    TtyBase reader { k with sched := s, added := added } := by
  refine h.frame hlive hadded (fun hb => ?_) fun hc _ => hcurrent ▸ hc
  rw [hstate] at hb
  exact blocked_of_woken hb

/-- Only the line and the keyboard thread's program counter changed, and it does not walk the
observers, or walks the reader's. -/
theorem TtyBase.keyMoved (h : TtyBase reader k) (b : TtyBuffer) (pc : KeyPc)
    (hwalk : ∀ elt, pc = .wake elt ∨ pc = .next elt →
      reader ∈ k.added ∧ k.observerThread elt = reader ∧ k.observerNext elt = 0) :
    TtyBase reader { k with buffer := b, keyPc := pc } :=
  { h with walk := hwalk }

/-- The reader moved on without being blocked. -/
theorem TtyBase.readerMoved (h : TtyBase reader k) (hready : k.sched.state reader ≠ .blocked)
    (hadded : reader ∈ k.added) (b : TtyBuffer) {observers : Word} {thread : Word → τ}
    {next : Word → Word} {pc : ReaderPc} (hobservers : observers = pc.linked)
    (hobserver : ∀ observer, pc.observer = some observer →
      observer ≠ 0 ∧ thread observer = reader ∧ next observer = 0)
    (hlinks : ∀ observer tmp, pc ≠ .unlink observer tmp)
    (hwalk : ∀ elt, k.observerThread elt = reader → k.observerNext elt = 0 →
      thread elt = reader ∧ next elt = 0) :
    TtyBase reader ⟨k.sched, k.added, b, observers, thread, next, k.keyPc, pc⟩ where
  live := h.live
  added := Or.inr hadded
  blocked := fun hb => absurd hb hready
  current := fun _ hb => absurd hb hready
  observers := hobservers
  observer := hobserver
  links := hlinks
  walk := fun elt helt =>
    ⟨hadded, hwalk elt (h.walk elt helt).2.1 (h.walk elt helt).2.2⟩

/-- The reader moved on between two statements before and after which it has no observer. -/
theorem TtyBase.readerMoved_alone (h : TtyBase reader k) (hcurrent : k.sched.current = some reader)
    (hyield : ∀ observer, k.readerPc ≠ .yield observer) (hadded : reader ∈ k.added) (b : TtyBuffer)
    {pc : ReaderPc} (hlinked : k.readerPc.linked = pc.linked) (hobserver : pc.observer = none)
    (hlinks : ∀ observer tmp, pc ≠ .unlink observer tmp) :
    TtyBase reader { k with buffer := b, readerPc := pc } := by
  refine h.readerMoved (h.ready hcurrent hyield) hadded b (h.observers.trans hlinked)
    (fun observer ho => ?_) hlinks fun _ ht hn => ⟨ht, hn⟩
  rw [hobserver] at ho
  cases ho

/-- Every step keeps what holds in all runs. -/
theorem TtyBase.step (h : TtyBase reader k) (hmove : TtyMove reader keyboard krealloc k act k')
    (hlive : SchedLive (k'.added : Set τ) k'.sched) : TtyBase reader k' := by
  cases hmove with
  | add t s hcreated hcurrent hstate =>
    exact h.wake hlive (Finset.subset_insert t k.added) hcurrent hstate
  | switch ticks s hstate hcurrent =>
    exact h.frame hlive (Finset.Subset.refl _) (hstate reader).mp
      fun hc hb => absurd hb (hcurrent reader hc)
  | sleep t ticks s houtside hstate hcurrent =>
    have hframe : ∀ hb : s.state reader = .blocked,
        k.readerPc = .idle ∨ k.readerPc.waits = true := by
      intro hb
      obtain rfl | hb := (hstate reader).mp hb
      · exact Or.inl (houtside.1 rfl)
      · exact h.blocked hb
    exact ⟨hlive, h.added, hframe, fun hc hb => absurd hb (hcurrent reader hc), h.observers,
      h.observer, h.links, h.walk⟩
  | wake t s hcurrent hstate => exact h.wake hlive (Finset.Subset.refl _) hcurrent hstate
  | key event hidle =>
    refine h.keyMoved k.buffer event.start fun elt helt => ?_
    unfold TtyKeyEvent.start at helt
    split at helt
    · split at helt <;> simp at helt
    · simp at helt
  | getc hcurrent hadded hidle =>
    exact h.readerMoved_alone hcurrent (by simp [hidle]) hadded k.buffer (by rw [hidle]; rfl) rfl
      (by simp)
  | statement ticks address b pc hcurrent hstatement =>
    refine h.keyMoved b pc fun elt helt => ?_
    obtain ⟨hwake, hnext⟩ := keyStatement_not_walking hstatement elt
    exact absurd helt (not_or.mpr ⟨hwake, hnext⟩)
  | notify ticks address hcurrent hpc =>
    refine h.keyMoved k.buffer _ fun elt helt => ?_
    by_cases hnone : k.observers = 0
    · simp [hnone] at helt
    · -- the observer on the list is the reader's
      rw [if_pos hnone] at helt
      obtain rfl : k.observers = elt := by simpa using helt
      rw [h.observers] at hnone ⊢
      have hadded : reader ∈ k.added := h.added.resolve_left fun hidle => hnone (by rw [hidle]; rfl)
      have hobserver : k.readerPc.observer = some k.readerPc.linked := by
        cases hreader : k.readerPc with
        | block | yield | recheck | delete => rfl
        | _ => exact absurd (by rw [hreader]; rfl) hnone
      exact ⟨hadded, (h.observer _ hobserver).2⟩
  | wakeObserver ticks address elt s hcurrent hpc hcurrent' hstate =>
    have hwalk := h.walk elt (Or.inl hpc)
    refine (h.wake hlive (Finset.Subset.refl _) hcurrent' hstate).keyMoved k.buffer _ fun x hx => ?_
    obtain rfl : elt = x := by simpa using hx
    exact hwalk
  | next ticks address elt hcurrent hpc =>
    exact h.keyMoved k.buffer _ fun x hx => by simp at hx
  | check ticks address hcurrent hadded hpc =>
    split
    · exact h.readerMoved_alone hcurrent (by simp [hpc]) hadded k.buffer (by rw [hpc]; rfl) rfl
        (by simp)
    · exact h.readerMoved_alone hcurrent (by simp [hpc]) hadded k.buffer (by rw [hpc]; rfl) rfl
        (by simp)
  | new ticks address hcurrent hadded hpc haddress =>
    have hready := h.ready hcurrent (by simp [hpc])
    have hnone : k.observers = 0 := by rw [h.observers, hpc]; rfl
    refine h.readerMoved hready hadded k.buffer hnone (fun observer ho => ?_) (by simp)
      fun elt ht hn => ?_
    · cases ho
      exact ⟨haddress, Function.update_self .., Function.update_self ..⟩
    · by_cases helt : elt = address
      · rw [helt]
        exact ⟨Function.update_self .., Function.update_self ..⟩
      · rw [Function.update_of_ne helt, Function.update_of_ne helt]
        exact ⟨ht, hn⟩
  | link ticks address observer hcurrent hadded hpc =>
    have hready := h.ready hcurrent (by simp [hpc])
    have hnone : k.observers = 0 := by rw [h.observers, hpc]; rfl
    obtain ⟨hzero, hthread, hnext⟩ := h.observer observer (by rw [hpc]; rfl)
    -- the list is empty, so the link stays null
    have hsame : Function.update k.observerNext observer k.observers = k.observerNext := by
      rw [hnone, ← hnext, Function.update_eq_self]
    rw [hsame]
    refine h.readerMoved hready hadded k.buffer hnone (fun o ho => ?_) (by simp) fun _ ht hn => ⟨ht, hn⟩
    cases ho
    exact ⟨hzero, hthread, hnext⟩
  | prepend ticks address observer hcurrent hadded hpc =>
    have hready := h.ready hcurrent (by simp [hpc])
    refine h.readerMoved hready hadded k.buffer rfl (fun o ho => ?_) (by simp) fun _ ht hn => ⟨ht, hn⟩
    exact h.observer o (by rw [hpc]; exact ho)
  | block ticks address observer s hcurrent hadded hpc hcurrent' hstate =>
    refine ⟨hlive, Or.inr hadded, fun _ => Or.inr rfl, fun _ _ => ⟨observer, rfl⟩, ?_,
      fun o ho => h.observer o (by rw [hpc]; exact ho), by simp, h.walk⟩
    rw [h.observers, hpc]
    rfl
  | yield ticks address observer s hcurrent hadded hpc hstate hcurrent' =>
    refine ⟨hlive, Or.inr hadded, fun _ => Or.inr rfl,
      fun hc hb => absurd hb (hcurrent' reader hc), ?_,
      fun o ho => h.observer o (by rw [hpc]; exact ho), by simp, h.walk⟩
    rw [h.observers, hpc]
    rfl
  | recheck ticks address observer hcurrent hadded hpc =>
    have hready := h.ready hcurrent (by simp [hpc])
    have hlinked : k.observers = observer := by rw [h.observers, hpc]; rfl
    have hobserver : ∀ o, some observer = some o →
        o ≠ 0 ∧ k.observerThread o = reader ∧ k.observerNext o = 0 :=
      fun o ho => h.observer o (by rw [hpc]; exact ho)
    split
    · exact h.readerMoved hready hadded k.buffer hlinked hobserver (by simp) fun _ ht hn => ⟨ht, hn⟩
    · exact h.readerMoved hready hadded k.buffer hlinked hobserver (by simp) fun _ ht hn => ⟨ht, hn⟩
  | delete ticks address observer hcurrent hadded hpc =>
    have hready := h.ready hcurrent (by simp [hpc])
    exact h.readerMoved hready hadded k.buffer rfl (fun _ ho => by cases ho) (by simp)
      fun _ ht hn => ⟨ht, hn⟩
  | free ticks address observer hcurrent hadded hpc =>
    exact h.readerMoved_alone hcurrent (by simp [hpc]) hadded k.buffer (by rw [hpc]; rfl) rfl
      (by simp)
  | test ticks address hcurrent hother hadded hpc =>
    split
    · exact h.readerMoved_alone hcurrent (by simp [hpc]) hadded k.buffer (by rw [hpc]; rfl) rfl
        (by simp)
    · exact h.readerMoved_alone hcurrent (by simp [hpc]) hadded k.buffer (by rw [hpc]; rfl) rfl
        (by simp)
  | read ticks address hcurrent hadded hpc =>
    exact h.readerMoved_alone hcurrent (by simp [hpc]) hadded k.buffer (by rw [hpc]; rfl) rfl
      (by simp)
  | advance ticks address c hcurrent hadded hpc =>
    exact h.readerMoved_alone hcurrent (by simp [hpc]) hadded _ (by rw [hpc]; rfl) rfl (by simp)

end Base

section Runs

variable {reader keyboard : τ} {k k' : TtyKernel τ} {may : TtyKernel τ → TtyAct τ → Bool}

/-- Nothing has happened yet. -/
theorem TtyBase.initial {s : Scheduler τ} (h : KernelInit s) (mem : ByteMem 32)
    (observerThread : Word → τ) (observerNext : Word → Word) :
    TtyBase reader (.initial s mem observerThread observerNext) where
  live := by
    rw [TtyKernel.initial, Finset.coe_empty]
    exact h.toSchedInit.live
  added := Or.inl rfl
  blocked := fun hb => absurd hb (h.ready reader)
  current := fun _ hb => absurd hb (h.ready reader)
  observers := rfl
  observer := fun _ ho => by cases ho
  links := fun _ _ => by simp [TtyKernel.initial]
  walk := fun _ helt => by simp [TtyKernel.initial] at helt

/-- Every run keeps what holds in all runs. -/
theorem TtyBase.run (h : TtyBase reader k)
    (hrun : Relation.ReflTransGen (TtyStep reader keyboard may) k k') : TtyBase reader k' := by
  induction hrun with
  | refl => exact h
  | tail _ hstep ih =>
    obtain ⟨act, krealloc, _, _, hact⟩ := hstep
    obtain ⟨hmove, hlive⟩ := ih.perform hact
    exact ih.step hmove hlive

/-- The invariant in every state of every run. -/
theorem TtyBase.of_reachable (h : TtyKernelReachable reader keyboard may k) : TtyBase reader k := by
  obtain ⟨s, mem, observerThread, observerNext, hinit, hrun⟩ := h
  exact (TtyBase.initial hinit mem observerThread observerNext).run hrun

end Runs

end ChrisOS.Drivers
