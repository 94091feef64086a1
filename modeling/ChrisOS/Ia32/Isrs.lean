import ChrisOS.Lib.X86
import ChrisOS.Utils.Mem

/-!
# Entering and leaving an interrupt

The text of `ia32/isrs.S`, in which every interrupt starts and ends. A stub pushes the number of its
interrupt, and an error code unless the processor has pushed one, so that behind the common code that
follows the C function always finds a `struct registers`. What the function leaves there is what the
interrupted code goes on with.

The stub of the spurious interrupt lost its pushes to a missing continuation line of its macro and runs
into the stub of the first irq of the I/O APIC.
-/

namespace ChrisOS.Ia32

open ChrisOS.Utils ChrisOS.Lib ChrisOS.Lib.X86

/-- The labels of `isrs.S`. -/
inductive IsrLabel
  | isr (n : ℕ)
  | irq (i : ℕ)
  | ioapicIrqSivr
  | ioapicIrq (i : ℕ)
  | isrInitialHandler
  | irqInitialHandler
  | ioapicIrqInitialHandler
deriving DecidableEq

/-- The C functions it calls. -/
inductive IsrFunction
  | interruptsIsrHandler
  | interruptsIrqHandler
  | interruptsIoapicIrqHandler
deriving DecidableEq

/-- An instruction of `isrs.S`. -/
abbrev IsrInstr := Instr IsrLabel IsrFunction

section Text

/-- `ISR_NOERRCODE(N)`. -/
def isrNoerrcode (n : Word) : List IsrInstr :=
  [.cli, .pushImm n, .pushImm n, .jmp .isrInitialHandler]

/-- `ISR_ERRCODE(N)`. -/
def isrErrcode (n : Word) : List IsrInstr :=
  [.cli, .pushImm n, .jmp .isrInitialHandler]

/-- `IRQ(I, N)`. -/
def irqStub (n : Word) : List IsrInstr :=
  [.cli, .pushImm 0, .pushImm n, .jmp .irqInitialHandler]

/-- `IOAPIC_IRQ(I, N)`. -/
def ioapicIrqStub (n : Word) : List IsrInstr :=
  [.cli, .pushImm 0, .pushImm n, .jmp .ioapicIrqInitialHandler]

/-- `IOAPIC_IRQ_SIVR(N)`, whose definition ends with the first instruction. -/
def ioapicIrqSivrStub : List IsrInstr := [.cli]

/-- The code in front of the call, the same for the three kinds of interrupts. -/
def saveRegisters : List IsrInstr :=
  [.pusha, .movFromCr2 .eax, .pushReg .eax, .movFromSeg .ds .eax, .pushReg .eax,
    .movImm16 0x10 .eax, .movToSeg .eax .ds, .movToSeg .eax .es, .movToSeg .eax .fs,
    .movToSeg .eax .gs]

/-- The code behind the call. -/
def restoreRegisters : List IsrInstr :=
  [.popReg .eax, .movToSeg .eax .ds, .movToSeg .eax .es, .movToSeg .eax .fs, .movToSeg .eax .gs,
    .addImm 4 .esp, .popa, .addImm 8 .esp]

/-- `isr_initial_handler` and its two copies, which call other functions. -/
def initialHandler (f : IsrFunction) : List IsrInstr :=
  saveRegisters ++ .call f :: (restoreRegisters ++ [.iret])

/-- The exceptions whose stubs are `ISR_ERRCODE`. -/
def isrErrcodes : List ℕ := [8, 10, 11, 12, 13, 14, 17]

/-- The text at each label, up to a jump. -/
def isrs : IsrLabel → List IsrInstr
  | .isr n => if n ∈ isrErrcodes then isrErrcode n else isrNoerrcode n
  | .irq i => irqStub (32 + i : ℕ)
  -- the stub of irq zero is what comes next in the file
  | .ioapicIrqSivr => ioapicIrqSivrStub ++ ioapicIrqStub 56
  | .ioapicIrq i => ioapicIrqStub (56 + i : ℕ)
  | .isrInitialHandler => initialHandler .interruptsIsrHandler
  | .irqInitialHandler => initialHandler .interruptsIrqHandler
  | .ioapicIrqInitialHandler => initialHandler .interruptsIoapicIrqHandler

/-- The calls of `idt_set_gate` in `interrupts_install_handlers`: vector, stub and flags. -/
def interruptGates : List (ℕ × IsrLabel × BitVec 8) :=
  (List.range 32).map (fun n => (n, .isr n, 0x8e)) ++
    (List.range 16).map (fun i => (32 + i, .irq i, 0x8e)) ++
    (55, .ioapicIrqSivr, 0x8e) :: (List.range 24).map (fun i => (56 + i, .ioapicIrq i, 0x8e)) ++
    [(0x80, .isr 0x80, 0x8e ||| 0x60)]

/-- The text with the C functions it is linked with. -/
def isrProgram (site : IsrLabel → Word) (behind : IsrFunction → Word)
    (callee : IsrFunction → Machine → Option Machine) : Program IsrLabel IsrFunction :=
  ⟨isrs, site, behind, callee⟩

end Text

section Stubs

/-- The exceptions for which the processor pushes an error code. -/
def pushesErrorCode (v : ℕ) : Bool := v ∈ [8, 10, 11, 12, 13, 14, 17]

/-- The number the stub of a vector pushes. -/
def stubNumber (v : ℕ) : Word := if v = 55 then 56 else v

/-- The error code the stub of a vector pushes. -/
def stubErrorCode (v : ℕ) : Word := if v < 32 ∨ v = 0x80 then v else 0

/-- The C function the stub of a vector leads to. -/
def stubFunction (v : ℕ) : IsrFunction :=
  if v < 32 ∨ v = 0x80 then .interruptsIsrHandler
  else if v < 48 then .interruptsIrqHandler
  else .interruptsIoapicIrqHandler

/-- The label of the code that calls a C function. -/
def IsrFunction.label : IsrFunction → IsrLabel
  | .interruptsIsrHandler => .isrInitialHandler
  | .interruptsIrqHandler => .irqInitialHandler
  | .interruptsIoapicIrqHandler => .ioapicIrqInitialHandler

theorem isrs_label (f : IsrFunction) : isrs f.label = initialHandler f := by cases f <;> rfl

/-- The pushes of the stub of a vector. -/
def stubPushes (v : ℕ) : List Word :=
  (if pushesErrorCode v then [] else [stubErrorCode v]) ++ [stubNumber v]

/-- Every gate leads to a stub that disables interrupts, pushes and jumps. -/
theorem isrs_gate : ∀ gate ∈ interruptGates,
    isrs gate.2.1 = List.replicate (if gate.1 = 55 then 2 else 1) .cli ++
      (stubPushes gate.1).map .pushImm ++ [.jmp (stubFunction gate.1).label] := by
  decide +kernel

end Stubs

section Frame

/-- `struct registers`; its last two fields, `useresp` and `ss`, are there only if the interrupt came from
an outer level. -/
structure Registers where
  ds : Word
  cr2 : Word
  edi : Word
  esi : Word
  ebp : Word
  esp : Word
  ebx : Word
  edx : Word
  ecx : Word
  eax : Word
  intNo : Word
  errCode : Word
  eip : Word
  cs : Word
  eflags : Word
  outer : Option (Word × Word)

/-- The words of the structure in memory. -/
def Registers.words (regs : Registers) : List Word :=
  [regs.ds, regs.cr2, regs.edi, regs.esi, regs.ebp, regs.esp, regs.ebx, regs.edx, regs.ecx, regs.eax,
    regs.intNo, regs.errCode, regs.eip, regs.cs, regs.eflags] ++
    regs.outer.elim [] fun outer => [outer.1, outer.2]

/-- What is saved of a machine that is interrupted at `eip`; `esp` is the stack pointer at `pusha`. -/
def savedRegisters (m : Machine) (intNo errCode eip esp : Word) : Registers where
  ds := (m.seg .ds).setWidth 32
  cr2 := m.cr2
  edi := m.reg .edi
  esi := m.reg .esi
  ebp := m.reg .ebp
  esp := esp
  ebx := m.reg .ebx
  edx := m.reg .edx
  ecx := m.reg .ecx
  eax := m.reg .eax
  intNo := intNo
  errCode := errCode
  eip := eip
  cs := (m.seg .cs).setWidth 32
  eflags := m.eflags
  outer := if m.cpl = 0 then none else some (m.reg .esp, (m.seg .ss).setWidth 32)

theorem savedRegisters_length (m : Machine) (intNo errCode eip esp : Word) :
    (savedRegisters m intNo errCode eip esp).words.length ≤ 17 := by
  rw [savedRegisters, Registers.words]
  by_cases hcpl : m.cpl = 0 <;> simp [hcpl]

/-- The machine that goes on with the contents of a `struct registers` at the top of the stack. -/
def Registers.resume (regs : Registers) (m : Machine) : Machine where
  reg := regFile regs.eax regs.ecx regs.edx regs.ebx
    (regs.outer.elim (m.reg .esp + 60) Prod.fst) regs.ebp regs.esi regs.edi
  seg := segFile (regs.cs.setWidth 16)
    (regs.outer.elim (m.seg .ss) fun outer => outer.2.setWidth 16) (regs.ds.setWidth 16)
  eflags := regs.eflags
  cr2 := m.cr2
  mem := m.mem

/-- The structure has the outer stack exactly if it returns to an outer level. -/
def Registers.Returnable (regs : Registers) : Prop :=
  regs.outer = none ↔ (regs.cs.setWidth 16).toNat % 4 = 0

variable (site : IsrLabel → Word) (behind : IsrFunction → Word)
  (callee : IsrFunction → Machine → Option Machine) {m : Machine}

/-- The code behind the call, up to the return. -/
theorem execAll_restoreRegisters {regs : Registers} (h : Holds m.mem (m.reg .esp) regs.words) :
    ∃ eflags, execAll site restoreRegisters m = some
      { reg := regFile regs.eax regs.ecx regs.edx regs.ebx (m.reg .esp + 48) regs.ebp regs.esi regs.edi
        seg := segFile (m.seg .cs) (m.seg .ss) (regs.ds.setWidth 16)
        eflags := eflags
        cr2 := m.cr2
        mem := m.mem } := by
  obtain ⟨hds, -, hrest⟩ := h
  -- `popa` starts behind the first two words
  let popped : Machine :=
    { reg := Function.update (Function.update m.reg .esp (m.reg .esp + 4 + 4)) .eax regs.ds
      seg := segFile (m.seg .cs) (m.seg .ss) (regs.ds.setWidth 16)
      eflags := addFlags m.eflags (m.reg .esp + 4) 4
      cr2 := m.cr2
      mem := m.mem }
  have hfirst : execAll site (restoreRegisters.take 6) m = some popped := by
    simp only [restoreRegisters, List.take, execAll, Instr.exec, Option.bind_some, Machine.pop,
      Machine.top, Machine.drop, Machine.setReg, Machine.setSeg, hds, popped]
    congr 2
    · funext r
      cases r <;> simp
    · funext s
      cases s <;> simp [segFile]
  have hpopa : popped.popa = { popped with
      reg := regFile regs.eax regs.ecx regs.edx regs.ebx (m.reg .esp + 4 + 4 + 32) regs.ebp regs.esi
        regs.edi } := popa_eq hrest
  have hsplit : restoreRegisters = restoreRegisters.take 6 ++ [.popa, .addImm 8 .esp] := rfl
  refine ⟨addFlags popped.eflags (m.reg .esp + 4 + 4 + 32) 8, ?_⟩
  rw [hsplit, execAll_append, hfirst, Option.bind_some, execAll, Instr.exec, hpopa, Option.bind_some,
    execAll, Instr.exec, Option.bind_some, execAll]
  congr 1
  apply Machine.ext
  · funext r
    cases r <;> simp [regFile]
    bv_omega
  all_goals rfl

/-- The code behind the call goes on with what the function has left in the structure. -/
theorem run_restoreRegisters {regs : Registers} (h : Holds m.mem (m.reg .esp) regs.words)
    (hcpl : m.cpl = 0) (hregs : regs.Returnable) :
    (isrProgram site behind callee).run 9 (restoreRegisters ++ [.iret]) m =
      some (regs.eip, regs.resume m) := by
  obtain ⟨eflags, hexec⟩ := execAll_restoreRegisters site h
  have hrun := (isrProgram site behind callee).run_straight
    (show restoreRegisters.all Instr.straight = true by decide) 1 [.iret] m
  rw [show (9 : ℕ) = 1 + restoreRegisters.length from rfl, hrun]
  change (execAll site restoreRegisters m).bind _ = _
  rw [hexec, Option.bind_some]
  obtain ⟨-, -, -, -, -, -, -, -, -, -, -, -, hrest⟩ := h
  have hesp : m.reg .esp + 4 + 4 + 4 + 4 + 4 + 4 + 4 + 4 + 4 + 4 + 4 + 4 = m.reg .esp + 48 := by
    bv_omega
  rw [hesp] at hrest
  let last : Machine :=
    { reg := regFile regs.eax regs.ecx regs.edx regs.ebx (m.reg .esp + 48) regs.ebp regs.esi regs.edi
      seg := segFile (m.seg .cs) (m.seg .ss) (regs.ds.setWidth 16)
      eflags := eflags
      cr2 := m.cr2
      mem := m.mem }
  change last.iret = _
  cases houter : regs.outer with
  | none =>
    have hcs := hregs.mp houter
    rw [iret_same (m := last) hrest hcpl hcs]
    congr 2
    apply Machine.ext
    · funext r
      cases r <;> simp [last, regFile, Registers.resume, houter]
      bv_omega
    · funext s
      cases s <;> simp [last, segFile, Registers.resume, houter]
    all_goals rfl
  | some outer =>
    have hcs : (regs.cs.setWidth 16).toNat % 4 ≠ 0 := fun hzero => by
      rw [hregs.mpr hzero] at houter
      cases houter
    rw [houter] at hrest
    rw [iret_outer (m := last) hrest hcpl hcs]
    congr 2
    apply Machine.ext
    · funext r
      cases r <;> simp [last, regFile, Registers.resume, houter]
    · funext s
      cases s <;> simp [last, segFile, Registers.resume, houter]
    all_goals rfl

/-- The machine in front of the call. -/
def savedMachine (m : Machine) : Machine :=
  let saved := m.pushAll (m.pushaWords ++ [m.cr2, (m.seg .ds).setWidth 32])
  { saved.setReg .eax (((m.seg .ds).setWidth 32 &&& 0xffff0000#32) ||| 0x10) with
    seg := segFile (m.seg .cs) (m.seg .ss) 0x10 }

/-- The code in front of the call. -/
theorem execAll_saveRegisters (m : Machine) :
    execAll site saveRegisters m = some (savedMachine m) := by
  refine congrArg some (Machine.ext ?_ ?_ ?_ ?_ ?_)
  · funext r
    cases r <;> simp [savedMachine, pushAll_append, Machine.push]
  · funext s
    cases s <;> simp [savedMachine, segFile]
  · simp [savedMachine, pushAll_append]
  · simp [savedMachine, pushAll_append]
  · simp [savedMachine, pushAll_append, Machine.push]

/-- What an interrupt pushes until `pusha`. -/
def stubWords (m : Machine) (intNo errCode eip : Word) : List Word :=
  m.interruptWords none eip ++ [errCode, intNo]

/-- The stack pointer at `pusha`. -/
def stubEsp (m : Machine) (stack : TaskStack) (intNo errCode eip : Word) : Word :=
  ((m.interruptStack stack).pushAll (stubWords m intNo errCode eip)).reg .esp

/-- The state in which the C function is entered: on top of the stack its return address and the saved
registers, the kernel's segments, interrupts off, and the rest of memory as it was. -/
structure HandlerEntry (m : Machine) (stack : TaskStack) (selector : BitVec 16) (ret : Word)
    (regs : Registers) (entry : Machine) : Prop where
  frame : Holds entry.mem (entry.reg .esp) (ret :: regs.words)
  esp : entry.reg .esp =
    (m.interruptStack stack).reg .esp - BitVec.ofNat 32 (4 * (regs.words.length + 1))
  seg : entry.seg = segFile selector ((m.interruptStack stack).seg .ss) 0x10
  eflags : entry.eflags = m.eflags &&& ~~~0x34300#32
  cr2 : entry.cr2 = m.cr2
  mem : ∀ x, ¬ Below ((m.interruptStack stack).reg .esp) 72 x → entry.mem x = m.mem x

/-- `cli` with interrupts off. -/
theorem execAll_replicate_cli (hcpl : m.cpl = 0) (heflags : m.eflags &&& ~~~0x200#32 = m.eflags)
    (k : ℕ) :
    execAll site (List.replicate k (.cli : IsrInstr)) m = some m := by
  induction k with
  | zero => rfl
  | succ k ih =>
    have hcli : Instr.exec site m (.cli : IsrInstr) = some m := by
      rw [Instr.exec, if_pos (hcpl ▸ Nat.zero_le _), heflags]
    rw [List.replicate_succ, execAll, hcli, Option.bind_some, ih]

variable {err : Option Word} {v : ℕ}

/-- The words pushed by the processor and by the stub. -/
theorem interruptWords_stubPushes (m : Machine) (herr : err.isSome = pushesErrorCode v) (eip : Word) :
    m.interruptWords err eip ++ stubPushes v =
      stubWords m (stubNumber v) (err.getD (stubErrorCode v)) eip := by
  rw [m.interruptWords_eq, stubWords, stubPushes, ← herr, List.append_assoc]
  cases err with
  | none => rfl
  | some e => rfl

/-- The registers that are not changed by switching stacks and pushing. -/
theorem pushAll_interruptStack_reg (m : Machine) (stack : TaskStack) (ws : List Word) {r : Reg}
    (hr : r ≠ .esp) : ((m.interruptStack stack).pushAll ws).reg r = m.reg r := by
  rw [pushAll_reg, Function.update_of_ne hr, Machine.interruptStack]
  split
  · rfl
  · exact Function.update_of_ne hr _ _

/-- All words that are on the stack when the C function is called, the last one first. -/
theorem savedRegisters_words (m : Machine) (stack : TaskStack) (intNo errCode eip : Word) :
    (stubWords m intNo errCode eip ++
      ((m.interruptStack stack).pushAll (stubWords m intNo errCode eip)).pushaWords ++
        [m.cr2, (m.seg .ds).setWidth 32]).reverse =
      (savedRegisters m intNo errCode eip (stubEsp m stack intNo errCode eip)).words := by
  simp only [Machine.pushaWords, pushAll_interruptStack_reg _ _ _ (show Reg.eax ≠ .esp by decide),
    pushAll_interruptStack_reg _ _ _ (show Reg.ecx ≠ .esp by decide),
    pushAll_interruptStack_reg _ _ _ (show Reg.edx ≠ .esp by decide),
    pushAll_interruptStack_reg _ _ _ (show Reg.ebx ≠ .esp by decide),
    pushAll_interruptStack_reg _ _ _ (show Reg.ebp ≠ .esp by decide),
    pushAll_interruptStack_reg _ _ _ (show Reg.esi ≠ .esp by decide),
    pushAll_interruptStack_reg _ _ _ (show Reg.edi ≠ .esp by decide)]
  by_cases hcpl : m.cpl = 0 <;>
    simp [stubWords, Machine.interruptWords, savedRegisters, Registers.words, stubEsp, hcpl]

/-- The machine behind the pushes of the stub. -/
def stubMachine (m : Machine) (stack : TaskStack) (selector : BitVec 16) (intNo errCode eip : Word) :
    Machine :=
  { (m.interruptStack stack).pushAll (stubWords m intNo errCode eip) with
    seg := Function.update (m.interruptStack stack).seg .cs selector
    eflags := m.eflags &&& ~~~0x34300#32 }

/-- The stub up to its jump. -/
theorem execAll_stub (m : Machine) (stack : TaskStack) {selector : BitVec 16}
    (hselector : selector.toNat % 4 = 0) (herr : err.isSome = pushesErrorCode v)
    (eip : Word) (k : ℕ) :
    execAll site (List.replicate k (.cli : IsrInstr) ++ (stubPushes v).map .pushImm)
        (m.interrupt stack selector err eip) =
      some (stubMachine m stack selector (stubNumber v) (err.getD (stubErrorCode v)) eip) := by
  have hcpl : (m.interrupt stack selector err eip).cpl = 0 := by
    simpa [Machine.interrupt, Machine.cpl] using hselector
  have heflags : (m.interrupt stack selector err eip).eflags &&& ~~~0x200#32 =
      (m.interrupt stack selector err eip).eflags := by
    rw [Machine.interrupt, BitVec.and_assoc]
    rfl
  have hinterrupt : m.interrupt stack selector err eip =
      { (m.interruptStack stack).pushAll (m.interruptWords err eip) with
        seg := Function.update (m.interruptStack stack).seg .cs selector
        eflags := m.eflags &&& ~~~0x34300#32 } := by
    simp only [Machine.interrupt, Machine.setSeg, pushAll_seg]
  rw [execAll_append, execAll_replicate_cli site hcpl heflags, Option.bind_some,
    execAll_map_pushImm, hinterrupt, pushAll_with, stubMachine, ← interruptWords_stubPushes m herr,
    pushAll_append]

/-- Saving the registers behind the stub's words and calling the C function. -/
theorem handlerEntry_push (m : Machine) (stack : TaskStack) (selector : BitVec 16)
    (intNo errCode eip ret : Word) :
    HandlerEntry m stack selector ret
      (savedRegisters m intNo errCode eip (stubEsp m stack intNo errCode eip))
      ((savedMachine (stubMachine m stack selector intNo errCode eip)).push ret) := by
  let base := m.interruptStack stack
  let stub := stubMachine m stack selector intNo errCode eip
  let words := stubWords m intNo errCode eip ++
    (base.pushAll (stubWords m intNo errCode eip)).pushaWords ++ [m.cr2, (m.seg .ds).setWidth 32]
  let regs := savedRegisters m intNo errCode eip (stubEsp m stack intNo errCode eip)
  have hwords : words.reverse = regs.words := savedRegisters_words m stack intNo errCode eip
  have hlen : words.length = regs.words.length := by rw [← hwords, List.length_reverse]
  have hlen_le : regs.words.length ≤ 17 := savedRegisters_length _ _ _ _ _
  obtain ⟨hcr2, hds, hmem⟩ : base.cr2 = m.cr2 ∧ base.seg .ds = m.seg .ds ∧ base.mem = m.mem := by
    simp only [base, Machine.interruptStack]
    split <;> exact ⟨rfl, rfl, rfl⟩
  -- the common code pushes on top of what the stub has pushed
  have hpushed : stub.pushAll (stub.pushaWords ++ [stub.cr2, (stub.seg .ds).setWidth 32]) =
      { base.pushAll words with seg := stub.seg, eflags := stub.eflags } := by
    have hstub : stub.cr2 = m.cr2 ∧ stub.seg .ds = m.seg .ds := by
      simp only [stub, stubMachine, pushAll_cr2]
      exact ⟨hcr2, hds⟩
    rw [hstub.1, hstub.2]
    refine (pushAll_with _ _ _ _).trans ?_
    rw [← pushAll_append, ← List.append_assoc]
    rfl
  have hsavedmem : (savedMachine stub).mem = (base.pushAll words).mem := by
    simp only [savedMachine, hpushed, setReg_mem]
  have hsavedesp : (savedMachine stub).reg .esp = (base.pushAll words).reg .esp := by
    simp [savedMachine, hpushed]
  have hholds : Holds (savedMachine stub).mem ((savedMachine stub).reg .esp) regs.words := by
    rw [hsavedmem, hsavedesp, ← hwords]
    exact holds_pushAll base (by rw [hlen]; omega)
  change HandlerEntry m stack selector ret regs ((savedMachine stub).push ret)
  constructor
  · exact hholds.push ret (by omega)
  · rw [push_esp, hsavedesp, pushAll_reg, Function.update_self, hlen, Nat.mul_succ, BitVec.ofNat_add]
    change base.reg .esp - _ - 4 = base.reg .esp - _
    bv_omega
  · funext s
    cases s <;> simp [savedMachine, segFile, stub, stubMachine]
  · simp [savedMachine, stub, stubMachine]
  · simp [savedMachine, stub, stubMachine, ← hcr2, base]
  · intro x hx
    have hall : ((savedMachine stub).push ret).mem = (base.pushAll (words ++ [ret])).mem := by
      rw [pushAll_append]
      simp [Machine.push, hsavedmem, hsavedesp]
    rw [hall, pushAll_mem_of_not_below, hmem]
    rw [List.length_append, List.length_singleton, hlen]
    unfold Below at hx ⊢
    change ¬ (base.reg .esp - 1 - x).toNat < 72 at hx
    omega

/-- Every interrupt reaches its C function. -/
theorem run_stub {label : IsrLabel} {flags : BitVec 8} (hgate : (v, label, flags) ∈ interruptGates)
    (m : Machine) (stack : TaskStack)
    {selector : BitVec 16} (hselector : selector.toNat % 4 = 0)
    (herr : err.isSome = pushesErrorCode v) (eip : Word) :
    let errCode := err.getD (stubErrorCode v)
    let regs := savedRegisters m (stubNumber v) errCode eip
      (stubEsp m stack (stubNumber v) errCode eip)
    ∃ entry, HandlerEntry m stack selector (behind (stubFunction v)) regs entry ∧
      ∃ steps ≤ 16, ∀ fuel,
        (isrProgram site behind callee).run (fuel + steps) (isrs label)
          (m.interrupt stack selector err eip) =
        (callee (stubFunction v) entry).bind
          ((isrProgram site behind callee).run fuel (restoreRegisters ++ [.iret])) := by
  intro errCode regs
  let p := isrProgram site behind callee
  let code : List IsrInstr :=
    List.replicate (if v = 55 then 2 else 1) .cli ++ (stubPushes v).map .pushImm
  have htext : isrs label = code ++ [.jmp (stubFunction v).label] := isrs_gate _ hgate
  have hcode : execAll site code (m.interrupt stack selector err eip) =
      some (stubMachine m stack selector (stubNumber v) errCode eip) :=
    execAll_stub site m stack hselector herr eip _
  have hstraight : code.all Instr.straight = true := by
    simp [code, Instr.straight]
  have hlength : code.length ≤ 4 := by
    simp only [code, stubPushes, List.length_append, List.length_replicate, List.length_map]
    split <;> split <;> simp
  refine ⟨_, handlerEntry_push m stack selector (stubNumber v) errCode eip _, 12 + code.length,
    by omega, fun fuel => ?_⟩
  rw [htext, ← Nat.add_assoc, p.run_straight hstraight]
  change (execAll site code _).bind _ = _
  rw [hcode, Option.bind_some]
  change p.run (fuel + 1 + saveRegisters.length) (isrs (stubFunction v).label) _ = _
  rw [isrs_label, initialHandler, p.run_straight (by decide)]
  change (execAll site saveRegisters _).bind _ = _
  rw [execAll_saveRegisters]
  rfl

end Frame

section Transparency

variable (site : IsrLabel → Word) (behind : IsrFunction → Word)
  (callee : IsrFunction → Machine → Option Machine)

/-- What the stubs need of a C function: it comes back on the stack and in the segments it was entered
with. -/
structure HandlerReturns (entry after : Machine) : Prop where
  esp : after.reg .esp = entry.reg .esp + 4
  cs : after.seg .cs = entry.seg .cs
  ss : after.seg .ss = entry.seg .ss

/-- `gdt_kernel_code_32_segment()`. -/
def gdtKernelCode32Segment : BitVec 16 := 0x08

/-- The structure that is saved can be returned through. -/
theorem savedRegisters_returnable (m : Machine) (intNo errCode eip esp : Word) :
    (savedRegisters m intNo errCode eip esp).Returnable := by
  have hcs : ((m.seg .cs).setWidth 32).setWidth 16 = m.seg .cs := by simp
  rw [Registers.Returnable, savedRegisters, hcs]
  change _ ↔ m.cpl = 0
  by_cases hcpl : m.cpl = 0 <;> simp [hcpl]

/-- The interrupted code goes on with what the C function has left in the structure. -/
theorem interrupt_resumes {v : ℕ} {label : IsrLabel} {flags : BitVec 8}
    (hgate : (v, label, flags) ∈ interruptGates) (m : Machine) (stack : TaskStack)
    {err : Option Word} (herr : err.isSome = pushesErrorCode v) (eip : Word) :
    let errCode := err.getD (stubErrorCode v)
    let regs := savedRegisters m (stubNumber v) errCode eip
      (stubEsp m stack (stubNumber v) errCode eip)
    ∃ entry, HandlerEntry m stack gdtKernelCode32Segment (behind (stubFunction v)) regs entry ∧
      ∀ (after : Machine) (left : Registers),
        callee (stubFunction v) entry = some after → HandlerReturns entry after →
        Holds after.mem (after.reg .esp) left.words → left.Returnable →
        ∀ fuel ≥ 25, (isrProgram site behind callee).run fuel (isrs label)
          (m.interrupt stack gdtKernelCode32Segment err eip) = some (left.eip, left.resume after) := by
  intro errCode regs
  obtain ⟨entry, hentry, steps, hsteps, hrun⟩ := run_stub site behind callee hgate m stack
    (show gdtKernelCode32Segment.toNat % 4 = 0 by decide) herr eip
  refine ⟨entry, hentry, fun after left hcall hret hholds hleft fuel hfuel => ?_⟩
  have hcpl : after.cpl = 0 := by
    rw [Machine.cpl, hret.cs, hentry.seg]
    change gdtKernelCode32Segment.toNat % 4 = 0
    decide
  have hexit := hrun 9
  rw [hcall, Option.bind_some, run_restoreRegisters site behind callee hholds hcpl hleft] at hexit
  have hmore := Program.run_mono _ hexit (fuel - (9 + steps))
  rwa [Nat.add_sub_cancel' (by omega)] at hmore

/-- What was saved is what goes on. -/
theorem savedRegisters_resume {m : Machine} {stack : TaskStack} {ret intNo errCode eip esp : Word}
    {entry after : Machine}
    (hentry : HandlerEntry m stack gdtKernelCode32Segment ret (savedRegisters m intNo errCode eip esp)
      entry) (hret : HandlerReturns entry after) :
    (savedRegisters m intNo errCode eip esp).resume after =
      { m with
        seg := segFile (m.seg .cs) (m.seg .ss) (m.seg .ds)
        cr2 := after.cr2
        mem := after.mem } := by
  have hesp := hret.esp
  have hss := hret.ss
  rw [hentry.esp] at hesp
  rw [hentry.seg] at hss
  by_cases hcpl : m.cpl = 0
  · simp only [Machine.interruptStack, hcpl, if_true, savedRegisters, Registers.words, Option.elim,
      segFile] at hesp hss
    apply Machine.ext
    · funext r
      cases r <;> simp [Registers.resume, savedRegisters, hcpl, regFile, hesp]
      bv_omega
    · funext s
      cases s <;> simp [Registers.resume, savedRegisters, hcpl, segFile, hss]
    all_goals rfl
  · apply Machine.ext
    · funext r
      cases r <;> simp [Registers.resume, savedRegisters, hcpl, regFile]
    · funext s
      cases s <;> simp [Registers.resume, savedRegisters, hcpl, segFile]
    all_goals rfl

/-- An interrupt is not noticed: whichever of the vectors arrives, at whatever place and level, the C
function finds the registers saved in order, and if it leaves them so the interrupted code goes on with
the registers and flags it had. The other data segments become those of `ds`. -/
theorem interrupt_transparent {v : ℕ} {label : IsrLabel} {flags : BitVec 8}
    (hgate : (v, label, flags) ∈ interruptGates) (m : Machine) (stack : TaskStack)
    {err : Option Word} (herr : err.isSome = pushesErrorCode v) (eip : Word) :
    let errCode := err.getD (stubErrorCode v)
    let regs := savedRegisters m (stubNumber v) errCode eip
      (stubEsp m stack (stubNumber v) errCode eip)
    ∃ entry, HandlerEntry m stack gdtKernelCode32Segment (behind (stubFunction v)) regs entry ∧
      ∀ after, callee (stubFunction v) entry = some after → HandlerReturns entry after →
        Holds after.mem (after.reg .esp) regs.words →
        ∀ fuel ≥ 25, (isrProgram site behind callee).run fuel (isrs label)
          (m.interrupt stack gdtKernelCode32Segment err eip) =
            some (eip,
              { m with
                seg := segFile (m.seg .cs) (m.seg .ss) (m.seg .ds)
                cr2 := after.cr2
                mem := after.mem }) := by
  intro errCode regs
  obtain ⟨entry, hentry, hresumes⟩ := interrupt_resumes site behind callee hgate m stack herr eip
  refine ⟨entry, hentry, fun after hcall hret hholds fuel hfuel => ?_⟩
  rw [hresumes after regs hcall hret hholds (savedRegisters_returnable _ _ _ _ _) fuel hfuel,
    savedRegisters_resume hentry hret]
  rfl

/-- A machine in user mode. -/
def userMachine : Machine where
  reg := regFile 1 2 3 4 0x9000 5 6 7
  seg := segFile 0x1b 0x23 0x23
  eflags := 0x202
  cr2 := 0
  mem := fun _ => 0

/-- A page fault in user mode whose handler returns at once. -/
theorem interrupt_transparent_page_fault :
    ∃ mem, (isrProgram (fun _ => 0) (fun _ => 0) (fun _ entry => some entry.drop)).run 25
      (isrs (.isr 14))
      (userMachine.interrupt ⟨0x10, 0x8000⟩ gdtKernelCode32Segment (some 4) 0x40000000) =
        some (0x40000000, { userMachine with mem := mem }) := by
  have hgate : (14, .isr 14, 0x8e) ∈ interruptGates := by decide +kernel
  obtain ⟨entry, hentry, hrun⟩ := interrupt_transparent (fun _ => 0) (fun _ => 0)
    (fun _ entry => some entry.drop) hgate userMachine ⟨0x10, 0x8000⟩
    (show (some 4 : Option Word).isSome = pushesErrorCode 14 from rfl) 0x40000000
  have hret : HandlerReturns entry entry.drop := ⟨by simp [Machine.drop], rfl, rfl⟩
  have hframe := hentry.frame.2
  rw [← hret.esp] at hframe
  have hcr2 : entry.drop.cr2 = userMachine.cr2 := hentry.cr2
  have hresult := hrun entry.drop rfl hret hframe 25 (Nat.le_refl _)
  rw [hcr2] at hresult
  exact ⟨entry.drop.mem, hresult⟩

end Transparency

end ChrisOS.Ia32
