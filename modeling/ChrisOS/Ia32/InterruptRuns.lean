import ChrisOS.Ia32.Isrs

/-!
# Code that is interrupted

Code that runs while interrupts arrive at any places, any number of times, computes what it computes
without them. It may be kernel or user code. Needed of it is that it does not look at what is below the
stack pointer or belongs to the handlers, and that its data segments are the same one, which the stubs
load into all of them; needed of the handlers is that they return where they are entered in the run and
keep to their own memory and to the stack below the saved registers.
-/

namespace ChrisOS.Ia32

open ChrisOS.Utils ChrisOS.Lib ChrisOS.Lib.X86

/-- A place in the text and the machine there. -/
abbrev Running := Word × Machine

section Runs

variable (site : IsrLabel → Word) (behind : IsrFunction → Word)
  (callee : IsrFunction → Machine → Option Machine) (stack : TaskStack)
  (step : Running → Option Running)

/-- The next instruction of the code, or an interrupt through a gate, with the error code the processor
pushes. -/
inductive RunEvent
  | step
  | interrupt (gate : ℕ × IsrLabel × BitVec 8) (err : Option Word)

/-- The interrupts are those with a gate, and the processor pushes an error code for those that have
one. -/
def RunEvent.Valid : RunEvent → Prop
  | .step => True
  | .interrupt gate err => gate ∈ interruptGates ∧ err.isSome = pushesErrorCode gate.1

instance RunEvent.decidableValid : ∀ e : RunEvent, Decidable e.Valid
  | .step => inferInstanceAs (Decidable True)
  | .interrupt _ _ => inferInstanceAs (Decidable (_ ∧ _))

def RunEvent.isStep : RunEvent → Bool
  | .step => true
  | .interrupt _ _ => false

/-- One event. -/
def RunEvent.run (c : Running) : RunEvent → Option Running
  | .step => step c
  | .interrupt gate err =>
    (isrProgram site behind callee).run 25 (isrs gate.2.1)
      (c.2.interrupt stack gdtKernelCode32Segment err c.1)

/-- A run with interrupts. -/
def runEvents : List RunEvent → Running → Option Running
  | [], c => some c
  | e :: events, c => (e.run site behind callee stack step c).bind (runEvents events)

/-- A run without them. -/
def runSteps : ℕ → Running → Option Running
  | 0, c => some c
  | n + 1, c => (step c).bind (runSteps n)

/-- The places of a run where a C function is entered: the stub of an interrupt of the run calls it. -/
def Entered (events : List RunEvent) (c : Running) (f : IsrFunction) (entry : Machine) : Prop :=
  ∃ done gate err b, done ++ [.interrupt gate err] <+: events ∧
    runEvents site behind callee stack step done c = some b ∧ f = stubFunction gate.1 ∧
    let errCode := err.getD (stubErrorCode gate.1)
    HandlerEntry b.2 stack gdtKernelCode32Segment (behind f)
      (savedRegisters b.2 (stubNumber gate.1) errCode b.1
        (stubEsp b.2 stack (stubNumber gate.1) errCode b.1)) entry

variable {site behind callee stack step} in
/-- What is entered later in a run is entered in it. -/
theorem Entered.cons {e : RunEvent} {events : List RunEvent} {c b : Running} {f : IsrFunction}
    {entry : Machine} (hrun : e.run site behind callee stack step c = some b)
    (h : Entered site behind callee stack step events b f entry) :
    Entered site behind callee stack step (e :: events) c f entry := by
  obtain ⟨done, gate, err, d, hdone, hreach, hf, hentry⟩ := h
  refine ⟨e :: done, gate, err, d, List.cons_prefix_cons.mpr ⟨rfl, hdone⟩, ?_, hf, hentry⟩
  rw [runEvents, hrun, Option.bind_some, hreach]

end Runs

section Assumptions

/-- Two runs are at the same place with the same registers, and agree on the bytes that are live. -/
structure SameLive (live : Running → Word → Prop) (c c' : Running) : Prop where
  eip : c'.1 = c.1
  reg : c'.2.reg = c.2.reg
  seg : c'.2.seg = c.2.seg
  eflags : c'.2.eflags = c.2.eflags
  mem : ∀ x, live c x → c'.2.mem x = c.2.mem x

/-- The handlers return where they are entered, and change nothing but their own memory and the `depth`
bytes below the stack pointer they are entered with. -/
def HandlersReturn (callee : IsrFunction → Machine → Option Machine)
    (entered : IsrFunction → Machine → Prop) (own : Word → Prop) (depth : ℕ) : Prop :=
  ∀ f entry, entered f entry → ∃ after, callee f entry = some after ∧ HandlerReturns entry after ∧
    ∀ x, ¬ own x → ¬ Below (entry.reg .esp) depth x → after.mem x = entry.mem x

/-- Code that may be interrupted, in the states `inv` it goes through: which bytes it depends on, and that
they are neither the handlers' nor where an interrupt is put on the stack. -/
structure Interruptible (stack : TaskStack) (own : Word → Prop) (depth : ℕ)
    (step : Running → Option Running) (live : Running → Word → Prop) (inv : Running → Prop) : Prop where
  step_live : ∀ {c c' d}, inv c → SameLive live c c' → step c = some d →
    ∃ d', step c' = some d' ∧ SameLive live d d'
  step_inv : ∀ {c d}, inv c → step c = some d → inv d
  data : ∀ {c}, inv c → c.2.seg = segFile (c.2.seg .cs) (c.2.seg .ss) (c.2.seg .ds)
  stack_free : ∀ {c x}, inv c → Below ((c.2.interruptStack stack).reg .esp) 72 x → ¬ own x
  live_kept : ∀ {c x}, inv c → live c x →
    ¬ own x ∧ ¬ Below ((c.2.interruptStack stack).reg .esp) (72 + depth) x

end Assumptions

section Unnoticed

variable {site : IsrLabel → Word} {behind : IsrFunction → Word}
  {callee : IsrFunction → Machine → Option Machine} {stack : TaskStack} {own : Word → Prop}
  {depth : ℕ} {step : Running → Option Running} {live : Running → Word → Prop}
  {inv : Running → Prop}

/-- A handler that keeps to its memory leaves the saved registers. -/
theorem HandlerEntry.frame_kept {m : Machine} {selector : BitVec 16} {ret : Word} {regs : Registers}
    {entry after : Machine} (hentry : HandlerEntry m stack selector ret regs entry)
    (hlen : regs.words.length ≤ 17) (hdepth : depth + 72 ≤ 2 ^ 32)
    (hesp : after.reg .esp = entry.reg .esp + 4)
    (hown : ∀ x, Below ((m.interruptStack stack).reg .esp) 72 x → ¬ own x)
    (hmem : ∀ x, ¬ own x → ¬ Below (entry.reg .esp) depth x → after.mem x = entry.mem x) :
    Holds after.mem (after.reg .esp) regs.words := by
  rw [hesp]
  apply hentry.frame.2.congr (by omega)
  intro x hx
  have hbase := hentry.esp
  generalize (m.interruptStack stack).reg .esp = base at hbase hown
  generalize entry.reg .esp = esp at *
  generalize regs.words.length = n at *
  subst hbase
  apply hmem
  · apply hown
    unfold Below
    bv_omega
  · unfold Below
    bv_omega

/-- One interrupt leaves the code where it was. -/
theorem SameLive.interrupt (hcode : Interruptible stack own depth step live inv)
    (hdepth : depth + 72 ≤ 2 ^ 32) {c c' : Running} (hinv : inv c) (hsame : SameLive live c c')
    {gate : ℕ × IsrLabel × BitVec 8} {err : Option Word} {events : List RunEvent}
    (hevent : (RunEvent.interrupt gate err).Valid)
    (hcallee : HandlersReturn callee
      (Entered site behind callee stack step (.interrupt gate err :: events) c') own depth) :
    ∃ d, (RunEvent.interrupt gate err).run site behind callee stack step c' = some d ∧
      SameLive live c d := by
  obtain ⟨entry, hentry, hrun⟩ := interrupt_resumes site behind callee hevent.1 c'.2 stack
    hevent.2 c'.1
  obtain ⟨after, hcall, hret, hmem⟩ := hcallee (stubFunction gate.1) entry
    ⟨[], gate, err, c', ⟨events, rfl⟩, rfl, rfl, hentry⟩
  have hbase : (c'.2.interruptStack stack).reg .esp = (c.2.interruptStack stack).reg .esp := by
    have hcpl : c'.2.cpl = c.2.cpl := by rw [Machine.cpl, Machine.cpl, hsame.seg]
    by_cases hzero : c.2.cpl = 0 <;> simp [Machine.interruptStack, hcpl, hzero, hsame.reg]
  have hlen := savedRegisters_length c'.2 (stubNumber gate.1) (err.getD (stubErrorCode gate.1)) c'.1
    (stubEsp c'.2 stack (stubNumber gate.1) (err.getD (stubErrorCode gate.1)) c'.1)
  have hframe := hentry.frame_kept hlen hdepth hret.esp
    (fun x hx => hcode.stack_free hinv (hbase ▸ hx)) hmem
  refine ⟨_, hrun after _ hcall hret hframe (savedRegisters_returnable _ _ _ _ _) 25
    (Nat.le_refl _), ?_⟩
  rw [savedRegisters_resume hentry hret]
  constructor
  · exact hsame.eip
  · exact hsame.reg
  · change segFile _ _ _ = c.2.seg
    rw [hsame.seg, ← hcode.data hinv]
  · exact hsame.eflags
  · intro x hx
    obtain ⟨hown, hbelow⟩ := hcode.live_kept hinv hx
    rw [← hbase] at hbelow
    change after.mem x = c.2.mem x
    rw [hmem x hown, hentry.mem x, hsame.mem x hx]
    · unfold Below at hbelow ⊢
      omega
    · rw [hentry.esp]
      unfold Below at hbelow ⊢
      generalize (savedRegisters _ _ _ _ _).words.length = n at hlen
      bv_omega

/-- **Interrupts are not noticed.** Wherever they arrive in a run, it ends at the place and with the
registers and the live memory of the run of the code alone. -/
theorem interrupts_unnoticed (hcode : Interruptible stack own depth step live inv)
    (hdepth : depth + 72 ≤ 2 ^ 32) {events : List RunEvent} (hevents : ∀ e ∈ events, e.Valid)
    {c c' d : Running} (hinv : inv c) (hsame : SameLive live c c')
    (hcallee : HandlersReturn callee (Entered site behind callee stack step events c') own depth)
    (hrun : runSteps step (events.countP RunEvent.isStep) c = some d) :
    ∃ d', runEvents site behind callee stack step events c' = some d' ∧ SameLive live d d' := by
  induction events generalizing c c' with
  | nil =>
    cases hrun
    exact ⟨c', rfl, hsame⟩
  | cons e events ih =>
    rw [List.forall_mem_cons] at hevents
    cases e with
    | step =>
      rw [List.countP_cons_of_pos rfl, runSteps, Option.bind_eq_some_iff] at hrun
      obtain ⟨b, hstep, hrest⟩ := hrun
      obtain ⟨b', hstep', hsame'⟩ := hcode.step_live hinv hsame hstep
      obtain ⟨d', hrun', hd⟩ := ih hevents.2 (hcode.step_inv hinv hstep) hsame'
        (fun f entry h => hcallee f entry (h.cons hstep')) hrest
      refine ⟨d', ?_, hd⟩
      rw [runEvents, RunEvent.run, hstep', Option.bind_some, hrun']
    | interrupt gate err =>
      rw [List.countP_cons_of_neg Bool.false_ne_true] at hrun
      obtain ⟨b', hint, hsame'⟩ := hsame.interrupt hcode hdepth hinv hevents.1 hcallee
      obtain ⟨d', hrun', hd⟩ := ih hevents.2 hinv hsame'
        (fun f entry h => hcallee f entry (h.cons hint)) hrun
      refine ⟨d', ?_, hd⟩
      rw [runEvents, hint, Option.bind_some, hrun']

/-- Kernel code that adds up a word in memory. -/
def addWord (c : Running) : Option Running :=
  some (c.1 + 1, c.2.setReg .eax (c.2.reg .eax + load32 c.2.mem 0x5000#32))

/-- Handlers that count in a word of their own. -/
def countInterrupts (_ : IsrFunction) (entry : Machine) : Option Machine :=
  some { entry.drop with mem := store32 entry.mem 0x6000 (load32 entry.mem 0x6000 + 1) }

/-- The kernel about to add. -/
def kernelMachine : Machine where
  reg := regFile 0 0 0 0 0x9000 0 0 0
  seg := segFile 0x08 0x10 0x10
  eflags := 0x202
  cr2 := 0
  mem := store32 (fun _ => 0) 0x5000 7

theorem interruptible_addWord :
    Interruptible ⟨0x10, 0x8000⟩ (fun x => (x - 0x6000).toNat < 4) 64 addWord
      (fun _ x => (x - 0x5000).toNat < 4)
      (fun c => c.2.reg .esp = 0x9000 ∧ c.2.seg = segFile 0x08 0x10 0x10) := by
  have hbase : ∀ c : Running, c.2.reg .esp = 0x9000 ∧ c.2.seg = segFile 0x08 0x10 0x10 →
      (c.2.interruptStack ⟨0x10, 0x8000⟩).reg .esp = 0x9000 := by
    rintro c ⟨hesp, hseg⟩
    have hcpl : c.2.cpl = 0 := by
      rw [Machine.cpl, hseg]
      rfl
    rw [Machine.interruptStack, if_pos hcpl, hesp]
  constructor
  · rintro c c' d - hsame hstep
    cases hstep
    have hload : load32 c'.2.mem 0x5000#32 = load32 c.2.mem 0x5000#32 := by
      apply load32_congr
      intro i hi
      apply hsame.mem
      bv_omega
    exact ⟨_, rfl, by rw [hsame.eip], by simp [hload, hsame.reg], hsame.seg, hsame.eflags, hsame.mem⟩
  · rintro c d ⟨hesp, hseg⟩ hstep
    cases hstep
    exact ⟨by simpa using hesp, hseg⟩
  · rintro c ⟨-, hseg⟩
    rw [hseg]
    rfl
  · intro c x hinv hx
    rw [hbase c hinv, Below] at hx
    bv_omega
  · intro c x hinv hx
    rw [hbase c hinv, Below]
    bv_omega

theorem handlersReturn_countInterrupts (entered : IsrFunction → Machine → Prop) :
    HandlersReturn countInterrupts entered (fun x => (x - 0x6000).toNat < 4) 64 := by
  intro f entry _
  refine ⟨_, rfl, ⟨by simp [Machine.drop], rfl, rfl⟩, fun x hx _ => ?_⟩
  apply storeLE_of_ne
  intro i hi heq
  apply hx
  bv_omega

/-- Two interrupts while the word is added twice. -/
theorem interrupts_unnoticed_addWord :
    ∃ d, runEvents (fun _ => 0) (fun _ => 0) countInterrupts ⟨0x10, 0x8000⟩ addWord
      [.step, .interrupt (14, .isr 14, 0x8e) (some 2), .interrupt (32, .irq 0, 0x8e) none, .step]
      (0x1000, kernelMachine) = some d ∧ d.1 = 0x1002 ∧ d.2.reg .eax = 14 := by
  have hevents : ∀ e ∈ [RunEvent.step, .interrupt (14, .isr 14, 0x8e) (some 2),
      .interrupt (32, .irq 0, 0x8e) none, .step], e.Valid := by
    decide +kernel
  obtain ⟨d, hrun, hsame⟩ := interrupts_unnoticed interruptible_addWord (by decide) hevents
    (c := (0x1000, kernelMachine)) ⟨rfl, rfl⟩ ⟨rfl, rfl, rfl, rfl, fun _ _ => rfl⟩
    (handlersReturn_countInterrupts _) rfl
  refine ⟨d, hrun, hsame.eip, ?_⟩
  rw [hsame.reg]
  decide

end Unnoticed

end ChrisOS.Ia32
