import ChrisOS.Ia32.Stack
import ChrisOS.Lib.X86
import Mathlib.Logic.Relation

/-!
# Switching stacks

`stack_switch` of `ia32/stack_asm.S` lays a `struct context` on the stack it leaves, stores a pointer to
it and goes on with another one. Threads that give each other the processor this way are coroutines: to
each of them `stack_switch` is a call that returns, with its registers, flags and stack as they were,
whatever the others have done in between.
-/

namespace ChrisOS.Ia32

open ChrisOS.Utils ChrisOS.Lib ChrisOS.Lib.X86

section Text

/-- The labels of `stack_asm.S`. -/
inductive StackLabel
  | stackSwitch
  | oldContext
  | newContext

/-- An instruction of `stack_asm.S`, which calls nothing. -/
abbrev StackInstr := Instr StackLabel Empty

/-- The text from `_new_context` on. -/
def newContextText : List StackInstr :=
  [.load 20 .ebp .eax, .movReg .eax .esp, .popReg .edi, .popReg .esi, .popReg .ebx, .popReg .ebp, .iret]

/-- The text from `_old_context` on. -/
def oldContextText : List StackInstr :=
  [.load 16 .ebp .eax, .test .eax .eax, .jz .newContext, .store .esp .eax] ++ newContextText

/-- The code in front of `_old_context`: it turns the call into a far one, whose return address is behind
the code segment and the flags, and saves the registers a function keeps. -/
def saveContext : List StackInstr :=
  [.popReg .eax, .pushf, .pushSeg .cs, .pushReg .eax, .pushReg .ebp, .movReg .esp .ebp, .pushReg .ebx,
    .pushReg .esi, .pushReg .edi]

/-- The text at each label. -/
def stackText : StackLabel → List StackInstr
  | .stackSwitch => saveContext ++ oldContextText
  | .oldContext => oldContextText
  | .newContext => newContextText

/-- `stack_asm.S` as a program. -/
def stackProgram : Program StackLabel Empty where
  text := stackText
  site := fun _ => 0
  behind := Empty.elim
  callee := Empty.elim

/-- `stack_switch`: where it returns to, and the machine there. -/
def stackSwitch (fuel : ℕ) (m : Machine) : Option (Word × Machine) :=
  stackProgram.run fuel (stackText .stackSwitch) m

end Text

section Call

/-- `struct context`: the registers a function keeps, and where to go on. -/
@[ext]
structure Context where
  edi : Word
  esi : Word
  ebx : Word
  ebp : Word
  eip : Word
  cs : Word
  eflags : Word

/-- The words of the structure in memory. -/
def Context.words (c : Context) : List Word := [c.edi, c.esi, c.ebx, c.ebp, c.eip, c.cs, c.eflags]

/-- What a call of `stack_switch` that is to return to `ret` saves. -/
def Context.ofCall (m : Machine) (ret : Word) : Context :=
  ⟨m.reg .edi, m.reg .esi, m.reg .ebx, m.reg .ebp, ret, (m.seg .cs).setWidth 32, m.eflags⟩

/-- Memory once the context is on the stack, over the return address of the call. -/
def contextPushed (m : Machine) (ret : Word) : ByteMem 32 :=
  (m.drop.pushAll (Context.ofCall m ret).words.reverse).mem

/-- Memory once the pointer to it is stored, unless there is no old context. -/
def contextStored (m : Machine) (ret old : Word) : ByteMem 32 :=
  if old = 0 then contextPushed m ret else store32 (contextPushed m ret) old (m.reg .esp - 24)

/-- The code in front of `_old_context`. -/
theorem execAll_saveContext (m : Machine) :
    execAll stackProgram.site saveContext m = some
      { m with
        reg := regFile m.top (m.reg .ecx) (m.reg .edx) (m.reg .ebx) (m.reg .esp - 24)
          (m.reg .esp - 12) (m.reg .esi) (m.reg .edi)
        mem := contextPushed m m.top } := by
  refine congrArg some (Machine.ext ?_ ?_ ?_ ?_ ?_)
  · funext r
    cases r <;> simp [Machine.pop, Machine.drop, Machine.push, regFile] <;> bv_omega
  · simp [Machine.pop, Machine.drop]
  · simp [Machine.pop, Machine.drop]
  · simp [Machine.pop, Machine.drop]
  · simp [Machine.pop, Machine.drop, Machine.push, contextPushed, Context.ofCall, Context.words]

/-- The context is pushed over the return address and below it. -/
theorem contextPushed_of_not_below (m : Machine) (ret : Word) {x : Word}
    (hx : ¬ Below (m.reg .esp + 4) 28 x) : contextPushed m ret x = m.mem x := by
  apply pushAll_mem_of_not_below
  simpa [Machine.drop, Context.words] using hx

variable {m : Machine}

/-- The text from `_new_context` on. -/
theorem run_newContextText {new : Word} {c : Context} (hcpl : m.cpl = 0)
    (hnew : load32 m.mem (m.reg .ebp + 20) = new) (hctx : Holds m.mem new c.words)
    (hcs : (c.cs.setWidth 16).toNat % 4 = 0) :
    stackProgram.run 7 newContextText m = some (c.eip,
      { m with
        reg := regFile new (m.reg .ecx) (m.reg .edx) c.ebx (new + 28) c.ebp c.esi c.edi
        seg := Function.update m.seg .cs (c.cs.setWidth 16)
        eflags := c.eflags }) := by
  obtain ⟨hedi, hesi, hebx, hebp, hiret⟩ := hctx
  let popped : Machine :=
    { m with reg := regFile new (m.reg .ecx) (m.reg .edx) c.ebx (new + 4 + 4 + 4 + 4) c.ebp c.esi c.edi }
  have hpops : execAll stackProgram.site (newContextText.take 6) m = some popped := by
    refine congrArg some (Machine.ext ?_ rfl rfl rfl rfl)
    funext r
    cases r <;> simp only [Machine.pop, Machine.top, Machine.drop, Machine.setReg, popped,
      Function.update_self, Function.update_of_ne, ne_eq, reduceCtorEq, not_false_eq_true, regFile,
      hnew, hedi, hesi, hebx, hebp]
  have hrun := stackProgram.run_straight
    (show (newContextText.take 6).all Instr.straight = true by decide) 1 [.iret] m
  refine hrun.trans ?_
  rw [hpops, Option.bind_some]
  change popped.iret = _
  rw [iret_same (m := popped) hiret hcpl hcs]
  congr 2
  apply Machine.ext
  · funext r
    cases r <;> simp [popped, regFile]
    bv_omega
  all_goals rfl

/-- The machine at the jump to `_new_context`. -/
def atJump (m : Machine) (ret old : Word) : Machine :=
  { m with
    reg := regFile old (m.reg .ecx) (m.reg .edx) (m.reg .ebx) (m.reg .esp - 24) (m.reg .esp - 12)
      (m.reg .esi) (m.reg .edi)
    eflags := logicFlags m.eflags (old &&& old)
    mem := contextPushed m ret }

/-- The code up to the jump to `_new_context`. -/
def untilJump : List StackInstr := saveContext ++ [.load 16 .ebp .eax, .test .eax .eax]

variable {ret old new : Word}

theorem execAll_untilJump (hargs : Holds m.mem (m.reg .esp) [ret, old, new]) :
    execAll stackProgram.site untilJump m = some (atJump m ret old) := by
  have htop : m.top = ret := hargs.1
  have hold : load32 (contextPushed m ret) (m.reg .esp - 12 + 16) = old := by
    rw [← hargs.2.1, show m.reg .esp - 12 + 16 = m.reg .esp + 4 by bv_omega]
    apply load32_congr
    intro i hi
    apply contextPushed_of_not_below
    unfold Below
    bv_omega
  rw [untilJump, execAll_append, execAll_saveContext, htop, Option.bind_some]
  simp only [execAll, Instr.exec, Option.bind_some, Machine.setReg, regFile, hold,
    Function.update_self]
  congr 2
  funext r
  cases r <;> simp [regFile]

/-- The run goes on at `_new_context`, or stores the pointer first. -/
theorem run_untilJump (hargs : Holds m.mem (m.reg .esp) [ret, old, new]) (more : ℕ) :
    stackProgram.run (more + 1 + untilJump.length) (stackText .stackSwitch) m =
      stackProgram.run more (if old = 0 then newContextText else .store .esp .eax :: newContextText)
        (atJump m ret old) := by
  have hzero : (atJump m ret old).eflags.getLsbD 6 = decide (old = 0) := by
    rw [atJump, getLsbD_logicFlags, BitVec.and_self]
    rfl
  have hrun := stackProgram.run_straight (show untilJump.all Instr.straight = true by decide)
    (more + 1) (.jz .newContext :: .store .esp .eax :: newContextText) m
  refine hrun.trans ?_
  rw [execAll_untilJump hargs, Option.bind_some]
  change stackProgram.run more
    (if (atJump m ret old).eflags.getLsbD 6 then newContextText else _) _ = _
  rw [hzero]
  simp only [decide_eq_true_eq]

/-- A call of `stack_switch`: it goes on with the context at `new`. -/
theorem stackSwitch_call {c : Context} (hargs : Holds m.mem (m.reg .esp) [ret, old, new])
    (hcpl : m.cpl = 0)
    (hnew : load32 (contextStored m ret old) (m.reg .esp + 8) = new)
    (hctx : Holds (contextStored m ret old) new c.words)
    (hcs : (c.cs.setWidth 16).toNat % 4 = 0) {fuel : ℕ} (hfuel : 20 ≤ fuel) :
    stackSwitch fuel m = some (c.eip,
      { m with
        reg := regFile new (m.reg .ecx) (m.reg .edx) c.ebx (new + 28) c.ebp c.esi c.edi
        seg := Function.update m.seg .cs (c.cs.setWidth 16)
        eflags := c.eflags
        mem := contextStored m ret old }) := by
  have hnew' : load32 (contextStored m ret old) (m.reg .esp - 12 + 20) = new := by
    rwa [show m.reg .esp - 12 + 20 = m.reg .esp + 8 by bv_omega]
  have hall : stackProgram.run 20 (stackText .stackSwitch) m = some (c.eip,
      { m with
        reg := regFile new (m.reg .ecx) (m.reg .edx) c.ebx (new + 28) c.ebp c.esi c.edi
        seg := Function.update m.seg .cs (c.cs.setWidth 16)
        eflags := c.eflags
        mem := contextStored m ret old }) := by
    refine (run_untilJump hargs 8).trans ?_
    by_cases hnull : old = 0
    · have hmem : contextStored m ret old = contextPushed m ret := if_pos hnull
      rw [hmem] at hnew' hctx ⊢
      rw [if_pos hnull]
      exact Program.run_mono _ (run_newContextText (m := atJump m ret old) hcpl hnew' hctx hcs) 1
    · have hmem : contextStored m ret old = store32 (contextPushed m ret) old (m.reg .esp - 24) :=
        if_neg hnull
      rw [hmem] at hnew' hctx ⊢
      let stored : Machine :=
        { atJump m ret old with mem := store32 (contextPushed m ret) old (m.reg .esp - 24) }
      have hstored : Instr.exec stackProgram.site (atJump m ret old) (.store .esp .eax : StackInstr) =
          some stored := rfl
      rw [if_neg hnull, Program.run_exec _ rfl 7, hstored, Option.bind_some,
        run_newContextText (m := stored) hcpl hnew' hctx hcs]
      rfl
  have hmore := stackProgram.run_mono hall (fuel - 20)
  rwa [Nat.add_sub_cancel' hfuel] at hmore

/-- The context that is pushed. -/
theorem holds_contextPushed (m : Machine) (ret : Word) :
    Holds (contextPushed m ret) (m.reg .esp - 24) (Context.ofCall m ret).words := by
  have hholds := holds_pushAll m.drop (show 4 * (Context.ofCall m ret).words.reverse.length ≤ 2 ^ 32
    from Nat.le_of_ble_eq_true rfl)
  rw [List.reverse_reverse, pushAll_reg, Function.update_self] at hholds
  have hesp : m.drop.reg .esp - BitVec.ofNat 32 (4 * (Context.ofCall m ret).words.reverse.length) =
      m.reg .esp - 24 := by
    simp only [Machine.drop, setReg_reg, Function.update_self, List.length_reverse, Context.words,
      List.length_cons, List.length_nil]
    bv_omega
  rwa [hesp] at hholds

end Call

section Coroutines

variable {τ : Type}

/-- Where threads are kept: the place of each one's `stack_context`, and the bytes of its stack. -/
structure ThreadLayout (τ : Type) where
  slot : τ → Word
  onStack : τ → Word → Prop
  slot_ne_zero : ∀ t, slot t ≠ 0
  slot_injective : ∀ {t u : τ} {x : Word}, (x - slot t).toNat < 4 → (x - slot u).toNat < 4 → t = u
  slot_off_stack : ∀ {t u : τ} {x : Word}, (x - slot t).toNat < 4 → ¬ onStack u x
  stack_injective : ∀ {t u : τ} {x : Word}, onStack t x → onStack u x → t = u

/-- A thread that has given the processor away: its context, the stack pointer it goes on with, and memory
at that time. -/
structure Suspended where
  context : Context
  esp : Word
  mem : ByteMem 32

/-- The thread that runs, where it is, and the threads that do not. -/
structure Coroutines (τ : Type) where
  current : τ
  eip : Word
  machine : Machine
  suspended : τ → Option Suspended

/-- The running thread is about to call `stack_switch(&current->stack_context, t->stack_context)`, with
room on its stack for a context. -/
structure Calls (layout : ThreadLayout τ) (s : Coroutines τ) (t : τ) (ret : Word) : Prop where
  cpl : s.machine.cpl = 0
  args : Holds s.machine.mem (s.machine.reg .esp)
    [ret, layout.slot s.current, load32 s.machine.mem (layout.slot t)]
  room : ∀ x, (x - (s.machine.reg .esp - 24)).toNat < 36 → layout.onStack s.current x

/-- What a call of `stack_switch` leaves of the thread that makes it. -/
def Suspended.ofCall (m : Machine) (ret : Word) : Suspended :=
  ⟨Context.ofCall m ret, m.reg .esp + 4, contextPushed m ret⟩

/-- Memory after `t->stack_context = stack_init(...)`. -/
def spawnMem (mem : ByteMem 32) (slot cs eflags stack size func data : Word) : ByteMem 32 :=
  let init := stackInit cs eflags mem stack size func data
  store32 init.2 slot init.1

/-- What `stack_init` leaves of a new thread; three registers are what was on the stack. -/
def Suspended.ofSpawn (mem : ByteMem 32) (slot cs eflags stack size func data : Word) : Suspended where
  context :=
    { edi := load32 mem (stackContext stack size)
      esi := load32 mem (stackContext stack size + 4)
      ebx := load32 mem (stackContext stack size + 8)
      ebp := 0
      eip := func
      cs := cs
      eflags := clearInterruptFlag eflags }
  esp := stackContext stack size + 28
  mem := spawnMem mem slot cs eflags stack size func data

/-- A thread that is suspended can go on. -/
structure Waits (layout : ThreadLayout τ) (mem : ByteMem 32) (t : τ) (w : Suspended) : Prop where
  pointer : load32 mem (layout.slot t) = w.esp - 28
  holds : Holds w.mem (w.esp - 28) w.context.words
  level : (w.context.cs.setWidth 16).toNat % 4 = 0
  room : ∀ x, (x - (w.esp - 28)).toNat < 28 → layout.onStack t x
  kept : ∀ x, layout.onStack t x → mem x = w.mem x

/-- All suspended threads can go on, and the running one is not among them. -/
structure CoInv (layout : ThreadLayout τ) (s : Coroutines τ) : Prop where
  current : s.suspended s.current = none
  waits : ∀ t w, s.suspended t = some w → Waits layout s.machine.mem t w

variable {layout : ThreadLayout τ} {s s' : Coroutines τ} {t : τ} {w : Suspended}

/-- Threads wait as long as their stacks and pointers are left alone. -/
theorem Waits.mono {mem mem' : ByteMem 32} (hw : Waits layout mem t w)
    (hkeep : ∀ x, layout.onStack t x ∨ (x - layout.slot t).toNat < 4 → mem' x = mem x) :
    Waits layout mem' t w where
  pointer := (load32_of_bytes fun x hx => hkeep x (.inr hx)).trans hw.pointer
  holds := hw.holds
  level := hw.level
  room := hw.room
  kept := fun x hx => (hkeep x (.inl hx)).trans (hw.kept x hx)

variable {ret x : Word}

/-- A call of `stack_switch` writes to the caller's stack and to its pointer. -/
theorem Calls.contextStored_eq (hcalls : Calls layout s t ret) (hstack : ¬ layout.onStack s.current x)
    (hslot : 4 ≤ (x - layout.slot s.current).toNat) :
    contextStored s.machine ret (layout.slot s.current) x = s.machine.mem x := by
  rw [contextStored, if_neg (layout.slot_ne_zero _), store32_of_le _ _ _ hslot]
  apply contextPushed_of_not_below
  intro hbelow
  apply hstack
  apply hcalls.room
  unfold Below at hbelow
  bv_omega

/-- On its stack there is the context. -/
theorem contextStored_onStack {ret x : Word} (hstack : layout.onStack s.current x) :
    contextStored s.machine ret (layout.slot s.current) x = contextPushed s.machine ret x := by
  rw [contextStored, if_neg (layout.slot_ne_zero _)]
  apply store32_of_le
  by_contra hlt
  exact layout.slot_off_stack (Nat.lt_of_not_le hlt) hstack

/-- The other threads' stacks and pointers are left alone. -/
theorem Calls.contextStored_other {t u : τ} (hcalls : Calls layout s t ret) (hu : u ≠ s.current)
    (hx : layout.onStack u x ∨ (x - layout.slot u).toNat < 4) :
    contextStored s.machine ret (layout.slot s.current) x = s.machine.mem x := by
  apply hcalls.contextStored_eq
  · intro hcurrent
    rcases hx with hstack | hslot
    · exact hu (layout.stack_injective hstack hcurrent)
    · exact layout.slot_off_stack hslot hcurrent
  · by_contra hlt
    rcases hx with hstack | hslot
    · exact layout.slot_off_stack (Nat.lt_of_not_le hlt) hstack
    · exact hu (layout.slot_injective hslot (Nat.lt_of_not_le hlt))

/-- The machine of a thread that goes on: the registers a function keeps, the flags and the stack are what
they were. -/
structure Resumes (layout : ThreadLayout τ) (t : τ) (w : Suspended) (m : Machine) : Prop where
  ebx : m.reg .ebx = w.context.ebx
  esi : m.reg .esi = w.context.esi
  edi : m.reg .edi = w.context.edi
  ebp : m.reg .ebp = w.context.ebp
  esp : m.reg .esp = w.esp
  cs : m.seg .cs = w.context.cs.setWidth 16
  eflags : m.eflags = w.context.eflags
  stack : ∀ x, layout.onStack t x → m.mem x = w.mem x

variable {fuel : ℕ}

/-- A call of `stack_switch` makes a waiting thread go on. -/
theorem CoInv.switch (hinv : CoInv layout s) (hwaits : s.suspended t = some w)
    (hcalls : Calls layout s t ret) (hfuel : 20 ≤ fuel) :
    ∃ m, stackSwitch fuel s.machine = some (w.context.eip, m) ∧ Resumes layout t w m ∧
      m.mem = contextStored s.machine ret (layout.slot s.current) := by
  have hw := hinv.waits t w hwaits
  have hne : t ≠ s.current := by
    rintro rfl
    rw [hinv.current] at hwaits
    cases hwaits
  have hargs := hcalls.args
  rw [hw.pointer] at hargs
  have hnew : load32 (contextStored s.machine ret (layout.slot s.current)) (s.machine.reg .esp + 8) =
      w.esp - 28 := by
    rw [← hargs.2.2.1, show s.machine.reg .esp + 4 + 4 = s.machine.reg .esp + 8 by bv_omega]
    apply load32_of_bytes
    intro x hx
    rw [contextStored_onStack (hcalls.room x (by bv_omega))]
    apply contextPushed_of_not_below
    unfold Below
    bv_omega
  have hctx : Holds (contextStored s.machine ret (layout.slot s.current)) (w.esp - 28)
      w.context.words := by
    apply hw.holds.congr (Nat.le_of_ble_eq_true rfl)
    intro x hx
    have hstack := hw.room x hx
    rw [hcalls.contextStored_other hne (.inl hstack), hw.kept x hstack]
  refine ⟨_, stackSwitch_call hargs hcalls.cpl hnew hctx hw.level hfuel, ?_, rfl⟩
  constructor
  · rfl
  · rfl
  · rfl
  · rfl
  · exact BitVec.sub_add_cancel _ _
  · simp
  · rfl
  · intro x hx
    exact (hcalls.contextStored_other hne (.inl hx)).trans (hw.kept x hx)

/-- Memory that `t->stack_context = stack_init(...)` leaves alone. -/
theorem spawnMem_of_not (mem : ByteMem 32) (slot cs eflags stack size func data : Word)
    (hslot : 4 ≤ (x - slot).toNat) (hstack : 36 ≤ (x - stackContext stack size).toNat) :
    spawnMem mem slot cs eflags stack size func data x = mem x := by
  rw [spawnMem, store32_of_le _ _ _ hslot]
  apply storeAll_of_not_writes
  rw [writes_stackInitStores]
  bv_omega

/-- The context and the arguments `stack_init` puts on a stack. -/
theorem holds_stackInit (cs eflags : Word) (mem : ByteMem 32) (stack size func data : Word) :
    Holds (stackInit cs eflags mem stack size func data).2 (stackContext stack size)
      [load32 mem (stackContext stack size), load32 mem (stackContext stack size + 4),
        load32 mem (stackContext stack size + 8), 0, func, cs, clearInterruptFlag eflags, 0, data] := by
  have hfirst : load32 (stackInit cs eflags mem stack size func data).2 (stackContext stack size) =
      load32 mem (stackContext stack size) := by
    apply load32_of_bytes
    intro x hx
    apply storeAll_of_not_writes
    rw [writes_stackInitStores]
    bv_omega
  refine ⟨hfirst, ?_⟩
  simp only [stackInit, stackInitStores, storeAll, List.foldl, sizeofContext]
  generalize stackContext stack size = ctx
  have h8 : ctx + 4 + 4 = ctx + 8 := by bv_omega
  have h12 : ctx + 8 + 4 = ctx + 12 := by bv_omega
  have h16 : ctx + 12 + 4 = ctx + 16 := by bv_omega
  have h20 : ctx + 16 + 4 = ctx + 20 := by bv_omega
  have h24 : ctx + 20 + 4 = ctx + 24 := by bv_omega
  have h28 : ctx + 24 + 4 = ctx + 28 := by bv_omega
  have h32 : ctx + 28 + 4 = ctx + 32 := by bv_omega
  simp only [Holds, h8, h12, h16, h20, h24, h28, h32, and_true]
  simp (disch := decide) only [load32_store32_offset, load32_store32, and_self]

/-- The same once the pointer is stored, which is not on the stack. -/
theorem holds_spawnMem {stack size : Word}
    (hroom : ∀ x, (x - stackContext stack size).toNat < 36 → layout.onStack t x) (mem : ByteMem 32)
    (cs eflags func data : Word) :
    Holds (spawnMem mem (layout.slot t) cs eflags stack size func data) (stackContext stack size)
      ((Suspended.ofSpawn mem (layout.slot t) cs eflags stack size func data).context.words ++
        [0, data]) := by
  apply (holds_stackInit cs eflags mem stack size func data).congr (Nat.le_of_ble_eq_true rfl)
  intro x hx
  apply store32_of_le
  by_contra hlt
  exact layout.slot_off_stack (Nat.lt_of_not_le hlt) (hroom x hx)

/-- A new thread can go on. -/
theorem Waits.ofSpawn {stack size : Word}
    (hroom : ∀ x, (x - stackContext stack size).toNat < 36 → layout.onStack t x) (m : Machine)
    (hcpl : m.cpl = 0) (eflags func data : Word) :
    Waits layout
      (spawnMem m.mem (layout.slot t) ((m.seg .cs).setWidth 32) eflags stack size func data) t
      (Suspended.ofSpawn m.mem (layout.slot t) ((m.seg .cs).setWidth 32) eflags stack size func
        data) := by
  have hesp : stackContext stack size + 28 - 28 = stackContext stack size := by bv_omega
  constructor
  · exact (load32_store32 _ _ _).trans hesp.symm
  · change Holds _ (stackContext stack size + 28 - 28) _
    rw [hesp]
    exact (holds_append.mp (holds_spawnMem hroom _ _ _ _ _)).1
  · change (((m.seg .cs).setWidth 32).setWidth 16).toNat % 4 = 0
    rwa [BitVec.setWidth_setWidth_of_le _ (by decide), BitVec.setWidth_eq]
  · intro x hx
    apply hroom
    change (x - (stackContext stack size + 28 - 28)).toNat < 28 at hx
    rw [hesp] at hx
    omega
  · intro x _
    rfl

/-- A thread that calls `stack_switch` can go on. -/
theorem Calls.waits (hcalls : Calls layout s t ret) :
    Waits layout (contextStored s.machine ret (layout.slot s.current)) s.current
      (Suspended.ofCall s.machine ret) := by
  have hesp : s.machine.reg .esp + 4 - 28 = s.machine.reg .esp - 24 := by bv_omega
  constructor
  · change _ = s.machine.reg .esp + 4 - 28
    rw [hesp, contextStored, if_neg (layout.slot_ne_zero _), load32_store32]
  · change Holds _ (s.machine.reg .esp + 4 - 28) _
    rw [hesp]
    exact holds_contextPushed _ _
  · change (((s.machine.seg .cs).setWidth 32).setWidth 16).toNat % 4 = 0
    rw [BitVec.setWidth_setWidth_of_le _ (by decide), BitVec.setWidth_eq]
    exact hcalls.cpl
  · intro x hx
    apply hcalls.room
    change (x - (s.machine.reg .esp + 4 - 28)).toNat < 28 at hx
    rw [hesp] at hx
    omega
  · intro x hx
    exact contextStored_onStack hx

variable [DecidableEq τ]

/-- What can happen: the running thread computes, and keeps off the stacks and contexts of the others; it
makes a thread; or it calls `stack_switch`. -/
inductive CoStep (layout : ThreadLayout τ) : Coroutines τ → Coroutines τ → Prop
  | compute {s : Coroutines τ} (eip : Word) (m : Machine)
      (hkeep : ∀ t, s.suspended t ≠ none → ∀ x,
        layout.onStack t x ∨ (x - layout.slot t).toNat < 4 → m.mem x = s.machine.mem x) :
      CoStep layout s { s with eip := eip, machine := m }
  | spawn {s : Coroutines τ} {t : τ} (eflags stack size func data : Word)
      (hnew : s.suspended t = none) (hcurrent : t ≠ s.current) (hcpl : s.machine.cpl = 0)
      (hroom : ∀ x, (x - stackContext stack size).toNat < 36 → layout.onStack t x) :
      CoStep layout s
        { s with
          machine :=
            { s.machine with
              mem := spawnMem s.machine.mem (layout.slot t) ((s.machine.seg .cs).setWidth 32) eflags stack
                size func data }
          suspended := Function.update s.suspended t
            (some (Suspended.ofSpawn s.machine.mem (layout.slot t) ((s.machine.seg .cs).setWidth 32)
              eflags stack size func data)) }
  | switch {s : Coroutines τ} {t : τ} {w : Suspended} {ret : Word} {fuel : ℕ} {c : Word × Machine}
      (hwaits : s.suspended t = some w) (hcalls : Calls layout s t ret)
      (hswitch : stackSwitch fuel s.machine = some c) :
      CoStep layout s
        { current := t
          eip := c.1
          machine := c.2
          suspended := Function.update
            (Function.update s.suspended s.current (some (Suspended.ofCall s.machine ret))) t none }

/-- Whatever happens, the suspended threads can go on. -/
theorem CoInv.step (hinv : CoInv layout s) (hstep : CoStep layout s s') : CoInv layout s' := by
  cases hstep with
  | compute eip m hkeep =>
    refine ⟨hinv.current, fun t w hw => (hinv.waits t w hw).mono (hkeep t ?_)⟩
    rw [hw]
    exact Option.some_ne_none w
  | @spawn t eflags stack size func data hnew hcurrent hcpl hroom =>
    refine ⟨(Function.update_of_ne hcurrent.symm _ _).trans hinv.current, fun u w hu => ?_⟩
    change Function.update _ _ _ u = _ at hu
    by_cases hut : u = t
    · subst hut
      rw [Function.update_self, Option.some.injEq] at hu
      subst hu
      exact Waits.ofSpawn hroom s.machine hcpl eflags func data
    · rw [Function.update_of_ne hut] at hu
      apply (hinv.waits u w hu).mono
      intro x hx
      apply spawnMem_of_not
      · by_contra hlt
        rcases hx with hstack | hslot
        · exact layout.slot_off_stack (Nat.lt_of_not_le hlt) hstack
        · exact hut (layout.slot_injective hslot (Nat.lt_of_not_le hlt))
      · by_contra hlt
        have hstack' := hroom x (Nat.lt_of_not_le hlt)
        rcases hx with hstack | hslot
        · exact hut (layout.stack_injective hstack hstack')
        · exact layout.slot_off_stack hslot hstack'
  | @switch t w ret fuel c hwaits hcalls hswitch =>
    have hne : t ≠ s.current := by
      rintro rfl
      rw [hinv.current] at hwaits
      cases hwaits
    -- the result is that of the same call with enough fuel
    obtain ⟨m, hm, -, hmem⟩ := hinv.switch hwaits hcalls (Nat.le_add_left 20 fuel)
    have hc : c = (w.context.eip, m) :=
      Option.some.inj ((stackProgram.run_mono hswitch 20).symm.trans hm)
    subst hc
    refine ⟨Function.update_self _ _ _, fun u v hu => ?_⟩
    change Function.update _ _ _ u = _ at hu
    change Waits layout m.mem u v
    rw [hmem]
    have hut : u ≠ t := by
      rintro rfl
      rw [Function.update_self] at hu
      cases hu
    rw [Function.update_of_ne hut] at hu
    by_cases hcurrent : u = s.current
    · subst hcurrent
      rw [Function.update_self, Option.some.injEq] at hu
      subst hu
      exact hcalls.waits
    · rw [Function.update_of_ne hcurrent] at hu
      exact (hinv.waits u v hu).mono fun x hx => hcalls.contextStored_other hcurrent hx

/-- The same over whole runs. -/
theorem CoInv.run (hinv : CoInv layout s) (hrun : Relation.ReflTransGen (CoStep layout) s s') :
    CoInv layout s' := by
  induction hrun with
  | refl => exact hinv
  | tail _ hstep ih => exact ih.step hstep

/-- **Threads are coroutines.** After any run, a thread that is switched to goes on where it called
`stack_switch`, or where `stack_init` has put it: the registers a function keeps, the flags and its whole
stack are what they were. -/
theorem stackSwitch_resumes (hinv : CoInv layout s) (hrun : Relation.ReflTransGen (CoStep layout) s s')
    {t : τ} {w : Suspended} (hwaits : s'.suspended t = some w) {ret : Word}
    (hcalls : Calls layout s' t ret) {fuel : ℕ} (hfuel : 20 ≤ fuel) :
    ∃ m, stackSwitch fuel s'.machine = some (w.context.eip, m) ∧ Resumes layout t w m := by
  obtain ⟨m, hm, hresumes, -⟩ := (hinv.run hrun).switch hwaits hcalls hfuel
  exact ⟨m, hm, hresumes⟩

/-- Two threads. The stack of the second has as many bytes as `stack_init` writes. -/
def twoThreads : ThreadLayout Bool where
  slot t := if t then 0x1004 else 0x1000
  onStack t x := (x - if t then 0x20000 else 0x10000).toNat < if t then 36 else 0x1000
  slot_ne_zero := by decide
  slot_injective := by
    intro t u x ht hu
    cases t <;> cases u <;> simp only [Bool.false_eq_true, if_true, if_false] at ht hu ⊢ <;> bv_omega
  slot_off_stack := by
    intro t u x ht hu
    cases t <;> cases u <;> simp only [Bool.false_eq_true, if_true, if_false] at ht hu <;> bv_omega
  stack_injective := by
    intro t u x ht hu
    cases t <;> cases u <;> simp only [Bool.false_eq_true, if_true, if_false] at ht hu ⊢ <;> bv_omega

/-- One of them runs, the other has not been made. -/
def oneThread : Coroutines Bool where
  current := false
  eip := 0xc0100000
  machine :=
    { reg := regFile 0 0 0 1 0x10800 2 3 4
      seg := segFile 0x08 0x10 0x10
      eflags := 0x202
      cr2 := 0
      mem := fun _ => 0 }
  suspended := fun _ => none

/-- It makes the other, -/
def twoMade : Coroutines Bool :=
  { oneThread with
    machine :=
      { oneThread.machine with
        mem := spawnMem oneThread.machine.mem (twoThreads.slot true)
          ((oneThread.machine.seg .cs).setWidth 32) 0x202 0x20000 36 0xc0200000 0x1234 }
    suspended := Function.update oneThread.suspended true
      (some (Suspended.ofSpawn oneThread.machine.mem (twoThreads.slot true)
        ((oneThread.machine.seg .cs).setWidth 32) 0x202 0x20000 36 0xc0200000 0x1234)) }

/-- and is about to switch to it. -/
def aboutToSwitch : Coroutines Bool :=
  { twoMade with
    machine :=
      { twoMade.machine with
        mem := store32 (store32 (store32 twoMade.machine.mem 0x10800 0xc0100040) 0x10804 0x1000) 0x10808
          0x20000 } }

theorem coInv_oneThread : CoInv twoThreads oneThread := ⟨rfl, fun _ _ hnone => by cases hnone⟩

theorem room_twoMade (x : Word) (hx : (x - stackContext 0x20000 36).toNat < 36) :
    twoThreads.onStack true x := hx

theorem run_aboutToSwitch : Relation.ReflTransGen (CoStep twoThreads) oneThread aboutToSwitch := by
  have hmade : CoStep twoThreads oneThread twoMade :=
    CoStep.spawn 0x202 0x20000 36 0xc0200000 0x1234 rfl (by decide) (by decide) room_twoMade
  refine (Relation.ReflTransGen.single hmade).tail (CoStep.compute _ _ fun t ht x hx => ?_)
  cases t with
  | false => exact absurd rfl ht
  | true =>
    change (x - 0x20000).toNat < 36 ∨ (x - 0x1004).toNat < 4 at hx
    change store32 _ _ _ x = _
    rw [store32_of_le _ _ _ (by bv_omega), store32_of_le _ _ _ (by bv_omega),
      store32_of_le _ _ _ (by bv_omega)]

theorem calls_aboutToSwitch : Calls twoThreads aboutToSwitch true 0xc0100040 where
  cpl := by decide
  args := by decide +kernel
  room := by
    intro x hx
    change (x - (0x10800 - 24)).toNat < 36 at hx
    change (x - 0x10000).toNat < 0x1000
    bv_omega

/-- The switch goes to the new thread, whose context is what was put there. -/
theorem stackSwitch_resumes_made :
    ∃ m, stackSwitch 20 aboutToSwitch.machine = some (0xc0200000, m) ∧ m.reg .esp = 0x2001c := by
  obtain ⟨m, hm, hresumes⟩ := stackSwitch_resumes coInv_oneThread run_aboutToSwitch
    (t := true) rfl calls_aboutToSwitch (Nat.le_refl 20)
  exact ⟨m, hm, hresumes.esp⟩

/-- **A new thread starts in its entry point.** However long it waits, the first switch to it enters the
function given to `stack_init` as a call with the data as argument and no return address, with interrupts
off. -/
theorem stackSwitch_enters (hinv : CoInv layout s) (hrun : Relation.ReflTransGen (CoStep layout) s s')
    {t : τ} {mem : ByteMem 32} {cs eflags stack size func data : Word}
    (hwaits : s'.suspended t =
      some (Suspended.ofSpawn mem (layout.slot t) cs eflags stack size func data))
    (hroom : ∀ x, (x - stackContext stack size).toNat < 36 → layout.onStack t x) {ret : Word}
    (hcalls : Calls layout s' t ret) {fuel : ℕ} (hfuel : 20 ≤ fuel) :
    ∃ m, stackSwitch fuel s'.machine = some (func, m) ∧ Holds m.mem (m.reg .esp) [0, data] ∧
      m.reg .ebp = 0 ∧ m.eflags = clearInterruptFlag eflags ∧ m.eflags.getLsbD 9 = false := by
  obtain ⟨m, hm, hresumes, -⟩ := (hinv.run hrun).switch hwaits hcalls hfuel
  refine ⟨m, hm, ?_, hresumes.ebp, hresumes.eflags, ?_⟩
  · have hargs := (holds_append.mp (holds_spawnMem hroom mem cs eflags func data)).2
    rw [hresumes.esp]
    apply hargs.congr (Nat.le_of_ble_eq_true rfl)
    intro x hx
    apply hresumes.stack
    apply hroom
    change (x - (stackContext stack size + 28)).toNat < 8 at hx
    bv_omega
  · rw [hresumes.eflags]
    change (eflags &&& ~~~((1 : Word) <<< 9)).getLsbD 9 = false
    simp

/-- The new thread finds its data. -/
theorem stackSwitch_enters_made :
    ∃ m, stackSwitch 20 aboutToSwitch.machine = some (0xc0200000, m) ∧
      Holds m.mem (m.reg .esp) [0, 0x1234] := by
  obtain ⟨m, hm, hargs, -⟩ := stackSwitch_enters coInv_oneThread run_aboutToSwitch
    (t := true) rfl room_twoMade calls_aboutToSwitch (Nat.le_refl 20)
  exact ⟨m, hm, hargs⟩

end Coroutines

end ChrisOS.Ia32
