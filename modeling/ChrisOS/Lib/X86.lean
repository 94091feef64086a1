import ChrisOS.Lib.ByteMem

/-!
# A 32-bit x86 machine

The instructions of hand-written kernel code: pushes and pops, moves between general, segment and
control registers, a conditional jump, calls and returns from interrupts. Segments are flat and a
selector that is loaded is taken to be valid; tasks and virtual-8086 mode are left out.

A position in the text of a program is the code that remains from there on, and `none` is a fault, the
end of the text, a function that does not return or a lack of fuel.

What has been pushed is read as a list of words, `Holds`, so that a sequence of pushes and pops is an
operation on lists, and the memory it touches is counted in bytes below the stack pointer, `Below`.
-/

namespace ChrisOS.Lib.X86

/-- The general registers, in the order in which `pusha` stores them. -/
inductive Reg
  | eax | ecx | edx | ebx | esp | ebp | esi | edi
deriving DecidableEq

/-- The segment registers. -/
inductive Seg
  | es | cs | ss | ds | fs | gs
deriving DecidableEq

/-- The state of the processor, apart from its position in the text, and memory. -/
@[ext]
structure Machine where
  reg : Reg → BitVec 32
  seg : Seg → BitVec 16
  eflags : BitVec 32
  cr2 : BitVec 32
  mem : ByteMem 32

/-- The instructions, operands in the order of the assembler: source first. Labels `L` are positions in
the text and functions `F` are defined elsewhere. -/
inductive Instr (L F : Type)
  | pushImm (v : BitVec 32)
  | pushReg (r : Reg)
  | pushSeg (s : Seg)
  | pushAddr (l : L)
  | pushf
  | pusha
  | popReg (r : Reg)
  | popa
  | movReg (src dst : Reg)
  | movImm16 (v : BitVec 16) (dst : Reg)
  | load (offset : BitVec 32) (base dst : Reg)
  | store (src base : Reg)
  | movFromSeg (src : Seg) (dst : Reg)
  | movToSeg (src : Reg) (dst : Seg)
  | movFromCr2 (dst : Reg)
  | addImm (v : BitVec 32) (dst : Reg)
  | orImm (v : BitVec 32) (dst : Reg)
  | xorReg (src dst : Reg)
  | test (a b : Reg)
  | cli
  | jmp (l : L)
  | jz (l : L)
  | call (f : F)
  | ret
  | iret
deriving DecidableEq

section Registers

/-- Write a general register. -/
def Machine.setReg (m : Machine) (r : Reg) (v : BitVec 32) : Machine :=
  { m with reg := Function.update m.reg r v }

/-- Write a segment register. -/
def Machine.setSeg (m : Machine) (s : Seg) (v : BitVec 16) : Machine :=
  { m with seg := Function.update m.seg s v }

/-- The current privilege level. -/
def Machine.cpl (m : Machine) : ℕ := (m.seg .cs).toNat % 4

/-- The privilege level that may disable interrupts. -/
def Machine.iopl (m : Machine) : ℕ := m.eflags.toNat / 2 ^ 12 % 4

/-- Even parity of the low byte. -/
def evenParity (v : BitVec 32) : Bool := (List.range 8).countP v.getLsbD % 2 = 0

/-- The flags after an operation without carry: the arithmetic flags are those of the result. -/
def logicFlags (eflags result : BitVec 32) : BitVec 32 :=
  (eflags &&& ~~~0x8d5#32) ||| (if evenParity result then 0x4 else 0) |||
    (if result = 0 then 0x40 else 0) ||| (if result.msb then 0x80 else 0)

/-- The zero flag. -/
theorem getLsbD_logicFlags (eflags result : BitVec 32) :
    (logicFlags eflags result).getLsbD 6 = decide (result = 0#32) := by
  unfold logicFlags
  by_cases hzero : result = 0#32 <;> cases evenParity result <;> cases result.msb <;> simp [hzero]

/-- The flags after an addition. -/
def addFlags (eflags a b : BitVec 32) : BitVec 32 :=
  logicFlags eflags (a + b) ||| (if 2 ^ 32 ≤ a.toNat + b.toNat then 0x1 else 0) |||
    (if 16 ≤ a.toNat % 16 + b.toNat % 16 then 0x10 else 0) |||
    (if a.msb = b.msb ∧ (a + b).msb ≠ a.msb then 0x800 else 0)

end Registers

section Stack

/-- Push a word. -/
def Machine.push (m : Machine) (v : BitVec 32) : Machine :=
  { m with
    reg := Function.update m.reg .esp (m.reg .esp - 4)
    mem := store32 m.mem (m.reg .esp - 4) v }

/-- Push words one after the other. -/
def Machine.pushAll (m : Machine) (vs : List (BitVec 32)) : Machine := vs.foldl Machine.push m

/-- The word on top of the stack. -/
def Machine.top (m : Machine) : BitVec 32 := load32 m.mem (m.reg .esp)

/-- Take a word off the stack. -/
def Machine.drop (m : Machine) : Machine := m.setReg .esp (m.reg .esp + 4)

/-- Pop a general register; a popped stack pointer is not stepped. -/
def Machine.pop (m : Machine) (r : Reg) : Machine := m.drop.setReg r m.top

/-- The words `pusha` pushes. -/
def Machine.pushaWords (m : Machine) : List (BitVec 32) :=
  [m.reg .eax, m.reg .ecx, m.reg .edx, m.reg .ebx, m.reg .esp, m.reg .ebp, m.reg .esi, m.reg .edi]

/-- Given values in the general registers. -/
def regFile (eax ecx edx ebx esp ebp esi edi : BitVec 32) : Reg → BitVec 32
  | .eax => eax
  | .ecx => ecx
  | .edx => edx
  | .ebx => ebx
  | .esp => esp
  | .ebp => ebp
  | .esi => esi
  | .edi => edi

/-- Given values in the segment registers, the data segments being the same. -/
def segFile (cs ss data : BitVec 16) : Seg → BitVec 16
  | .cs => cs
  | .ss => ss
  | .ds | .es | .fs | .gs => data

/-- Pop all general registers but the stack pointer, whose word is dropped. -/
def Machine.popa (m : Machine) : Machine :=
  (((((((m.pop .edi).pop .esi).pop .ebp).drop.pop .ebx).pop .edx).pop .ecx).pop .eax)

end Stack

section Interrupts

/-- Where the processor finds the stack of level zero. -/
structure TaskStack where
  ss0 : BitVec 16
  esp0 : BitVec 32

/-- The words that are pushed when an interrupt arrives: the outer stack if the level changes, the flags,
the place that was interrupted and the error code of an exception that has one. -/
def Machine.interruptWords (m : Machine) (err : Option (BitVec 32)) (eip : BitVec 32) :
    List (BitVec 32) :=
  (if m.cpl = 0 then [] else [(m.seg .ss).setWidth 32, m.reg .esp]) ++
    [m.eflags, (m.seg .cs).setWidth 32, eip] ++ err.toList

theorem Machine.interruptWords_eq (m : Machine) (err : Option (BitVec 32)) (eip : BitVec 32) :
    m.interruptWords err eip = m.interruptWords none eip ++ err.toList := by
  simp [Machine.interruptWords]

/-- The stack on which an interrupt is taken. -/
def Machine.interruptStack (m : Machine) (stack : TaskStack) : Machine :=
  if m.cpl = 0 then m else (m.setSeg .ss stack.ss0).setReg .esp stack.esp0

/-- An interrupt through an interrupt gate with this selector: interrupts, tracing and the flags of tasks
are switched off. -/
def Machine.interrupt (m : Machine) (stack : TaskStack) (selector : BitVec 16)
    (err : Option (BitVec 32)) (eip : BitVec 32) : Machine :=
  let pushed := (m.interruptStack stack).pushAll (m.interruptWords err eip)
  { pushed.setSeg .cs selector with eflags := m.eflags &&& ~~~0x34300#32 }

/-- Return from an interrupt at level zero: where to, and the machine there. -/
def Machine.iret (m : Machine) : Option (BitVec 32 × Machine) :=
  if m.cpl = 0 then
    let cs : BitVec 16 := m.drop.top.setWidth 16
    let flags := m.drop.drop.top
    let back : Machine := { m.drop.drop.drop.setSeg .cs cs with eflags := flags }
    if back.cpl = 0 then some (m.top, back)
    else some (m.top, (back.setSeg .ss (back.drop.top.setWidth 16)).setReg .esp back.top)
  else none

end Interrupts

section Running

variable {L F : Type}

/-- The instructions that go on to the next one. -/
def Instr.exec (site : L → BitVec 32) (m : Machine) : Instr L F → Option Machine
  | .pushImm v => some (m.push v)
  | .pushReg r => some (m.push (m.reg r))
  | .pushSeg s => some (m.push ((m.seg s).setWidth 32))
  | .pushAddr l => some (m.push (site l))
  | .pushf => some (m.push m.eflags)
  | .pusha => some (m.pushAll m.pushaWords)
  | .popReg r => some (m.pop r)
  | .popa => some m.popa
  | .movReg src dst => some (m.setReg dst (m.reg src))
  | .movImm16 v dst => some (m.setReg dst (((m.reg dst) &&& 0xffff0000#32) ||| v.setWidth 32))
  | .load offset base dst => some (m.setReg dst (load32 m.mem (m.reg base + offset)))
  | .store src base => some { m with mem := store32 m.mem (m.reg base) (m.reg src) }
  | .movFromSeg src dst => some (m.setReg dst ((m.seg src).setWidth 32))
  | .movToSeg src dst => some (m.setSeg dst ((m.reg src).setWidth 16))
  | .movFromCr2 dst => some (m.setReg dst m.cr2)
  | .addImm v dst =>
    some { m.setReg dst (m.reg dst + v) with eflags := addFlags m.eflags (m.reg dst) v }
  | .orImm v dst =>
    some { m.setReg dst (m.reg dst ||| v) with eflags := logicFlags m.eflags (m.reg dst ||| v) }
  | .xorReg src dst =>
    some { m.setReg dst (m.reg dst ^^^ m.reg src) with
      eflags := logicFlags m.eflags (m.reg dst ^^^ m.reg src) }
  | .test a b => some { m with eflags := logicFlags m.eflags (m.reg a &&& m.reg b) }
  | .cli => if m.cpl ≤ m.iopl then some { m with eflags := m.eflags &&& ~~~0x200#32 } else none
  | .jmp _ | .jz _ | .call _ | .ret | .iret => none

/-- A program: the text at each label, the addresses of labels and of the places behind calls, and the
functions defined elsewhere, from their entry to their return. -/
structure Program (L F : Type) where
  text : L → List (Instr L F)
  site : L → BitVec 32
  behind : F → BitVec 32
  callee : F → Machine → Option Machine

/-- Run code until it returns: where to, and the machine there. -/
def Program.run (p : Program L F) : ℕ → List (Instr L F) → Machine → Option (BitVec 32 × Machine)
  | 0, _, _ => none
  | _ + 1, [], _ => none
  | fuel + 1, i :: rest, m =>
    match i with
    | .jmp l => p.run fuel (p.text l) m
    | .jz l => p.run fuel (if m.eflags.getLsbD 6 then p.text l else rest) m
    | .call f => (p.callee f (m.push (p.behind f))).bind (p.run fuel rest)
    | .ret => some (m.top, m.drop)
    | .iret => m.iret
    | i => (i.exec p.site m).bind (p.run fuel rest)

/-- Whether an instruction always goes on to the next one. -/
def Instr.straight : Instr L F → Bool
  | .jmp _ | .jz _ | .call _ | .ret | .iret => false
  | _ => true

/-- The instructions of a stretch without jumps, one after the other. -/
def execAll (site : L → BitVec 32) : List (Instr L F) → Machine → Option Machine
  | [], m => some m
  | i :: rest, m => (i.exec site m).bind (execAll site rest)

theorem execAll_append (site : L → BitVec 32) (code code' : List (Instr L F)) (m : Machine) :
    execAll site (code ++ code') m = (execAll site code m).bind (execAll site code') := by
  induction code generalizing m with
  | nil => rfl
  | cons i code ih =>
    rw [List.cons_append, execAll, execAll, Option.bind_assoc]
    congr 1
    funext m'
    exact ih m'

/-- One instruction that goes on. -/
theorem Program.run_exec (p : Program L F) {i : Instr L F} (hi : i.straight = true) (fuel : ℕ)
    (rest : List (Instr L F)) (m : Machine) :
    p.run (fuel + 1) (i :: rest) m = (i.exec p.site m).bind (p.run fuel rest) := by
  cases i with
  | jmp _ | jz _ | call _ | ret | iret => cases hi
  | _ => rfl

/-- A stretch without jumps runs to its end. -/
theorem Program.run_straight (p : Program L F) {code : List (Instr L F)}
    (hcode : code.all Instr.straight = true) (fuel : ℕ) (rest : List (Instr L F)) (m : Machine) :
    p.run (fuel + code.length) (code ++ rest) m =
      (execAll p.site code m).bind (p.run fuel rest) := by
  induction code generalizing m with
  | nil => rfl
  | cons i code ih =>
    rw [List.all_cons, Bool.and_eq_true] at hcode
    rw [List.length_cons, ← Nat.add_assoc, List.cons_append, p.run_exec hcode.1, execAll,
      Option.bind_assoc]
    congr 1
    funext m'
    exact ih hcode.2 m'

/-- More fuel changes nothing. -/
theorem Program.run_mono (p : Program L F) {fuel : ℕ} {code : List (Instr L F)} {m : Machine}
    {result : BitVec 32 × Machine} (h : p.run fuel code m = some result) (more : ℕ) :
    p.run (fuel + more) code m = some result := by
  induction fuel generalizing code m with
  | zero => cases h
  | succ fuel ih =>
    rw [Nat.add_right_comm]
    cases code with
    | nil => cases h
    | cons i rest =>
      by_cases hi : i.straight = true
      · rw [p.run_exec hi, Option.bind_eq_some_iff] at h
        obtain ⟨m', hexec, hrest⟩ := h
        rw [p.run_exec hi, hexec]
        exact ih hrest
      · cases i with
        | jmp l => exact ih h
        | jz l => exact ih h
        | call f =>
          rw [run, Option.bind_eq_some_iff] at h
          obtain ⟨m', hcall, hrest⟩ := h
          rw [run, hcall]
          exact ih hrest
        | ret | iret => exact h
        | _ => exact absurd rfl hi

end Running

section Fields

/-! What the operations on the stack leave alone. -/

variable (m : Machine) (r : Reg) (v : BitVec 32) (vs : List (BitVec 32))

@[simp] theorem setReg_reg : (m.setReg r v).reg = Function.update m.reg r v := rfl
@[simp] theorem setReg_seg : (m.setReg r v).seg = m.seg := rfl
@[simp] theorem setReg_eflags : (m.setReg r v).eflags = m.eflags := rfl
@[simp] theorem setReg_cr2 : (m.setReg r v).cr2 = m.cr2 := rfl
@[simp] theorem setReg_mem : (m.setReg r v).mem = m.mem := rfl

@[simp] theorem setSeg_reg (s : Seg) (w : BitVec 16) : (m.setSeg s w).reg = m.reg := rfl
@[simp] theorem setSeg_seg (s : Seg) (w : BitVec 16) :
    (m.setSeg s w).seg = Function.update m.seg s w := rfl
@[simp] theorem setSeg_eflags (s : Seg) (w : BitVec 16) : (m.setSeg s w).eflags = m.eflags := rfl
@[simp] theorem setSeg_cr2 (s : Seg) (w : BitVec 16) : (m.setSeg s w).cr2 = m.cr2 := rfl
@[simp] theorem setSeg_mem (s : Seg) (w : BitVec 16) : (m.setSeg s w).mem = m.mem := rfl

@[simp] theorem push_esp : (m.push v).reg .esp = m.reg .esp - 4 := by simp [Machine.push]
@[simp] theorem push_seg : (m.push v).seg = m.seg := rfl
@[simp] theorem push_eflags : (m.push v).eflags = m.eflags := rfl
@[simp] theorem push_cr2 : (m.push v).cr2 = m.cr2 := rfl

@[simp] theorem pushAll_nil : m.pushAll [] = m := rfl
@[simp] theorem pushAll_cons : m.pushAll (v :: vs) = (m.push v).pushAll vs := rfl

/-- Pushing words changes the stack pointer and memory. -/
theorem pushAll_eq :
    m.pushAll vs =
      { m with
        reg := Function.update m.reg .esp (m.reg .esp - BitVec.ofNat 32 (4 * vs.length))
        mem := (m.pushAll vs).mem } := by
  induction vs generalizing m with
  | nil => simp [Machine.pushAll]
  | cons v vs ih =>
    rw [pushAll_cons, ih (m.push v)]
    have hesp : m.reg .esp - 4 - BitVec.ofNat 32 (4 * vs.length) =
        m.reg .esp - BitVec.ofNat 32 (4 * (v :: vs).length) := by
      rw [List.length_cons, Nat.mul_succ, BitVec.ofNat_add]
      bv_omega
    simp only [Machine.push, Function.update_self, Function.update_idem, hesp]

theorem pushAll_append (ws : List (BitVec 32)) : m.pushAll (vs ++ ws) = (m.pushAll vs).pushAll ws :=
  List.foldl_append

@[simp] theorem pushAll_seg : (m.pushAll vs).seg = m.seg := by rw [pushAll_eq]
@[simp] theorem pushAll_eflags : (m.pushAll vs).eflags = m.eflags := by rw [pushAll_eq]
@[simp] theorem pushAll_cr2 : (m.pushAll vs).cr2 = m.cr2 := by rw [pushAll_eq]

theorem pushAll_reg : (m.pushAll vs).reg =
    Function.update m.reg .esp (m.reg .esp - BitVec.ofNat 32 (4 * vs.length)) := by
  rw [pushAll_eq]

/-- Pushing does not look at segments or flags. -/
theorem pushAll_with (seg : Seg → BitVec 16) (eflags : BitVec 32) :
    Machine.pushAll { m with seg := seg, eflags := eflags } vs =
      { m.pushAll vs with seg := seg, eflags := eflags } := by
  induction vs generalizing m with
  | nil => rfl
  | cons v vs ih => exact ih (m.push v)

/-- A row of constants is pushed. -/
theorem execAll_map_pushImm {L F : Type} (site : L → BitVec 32) :
    execAll site (vs.map (Instr.pushImm (L := L) (F := F))) m = some (m.pushAll vs) := by
  induction vs generalizing m with
  | nil => rfl
  | cons v vs ih => exact ih (m.push v)

end Fields

section Words

/-- Memory has these words from an address on. -/
def Holds (mem : ByteMem 32) (a : BitVec 32) : List (BitVec 32) → Prop
  | [] => True
  | w :: ws => load32 mem a = w ∧ Holds mem (a + 4) ws

/-- Whether memory has given words can be computed. -/
instance Holds.decidable (mem : ByteMem 32) : ∀ a ws, Decidable (Holds mem a ws)
  | _, [] => inferInstanceAs (Decidable True)
  | a, _ :: ws =>
    have := Holds.decidable mem (a + 4) ws
    inferInstanceAs (Decidable (_ ∧ _))

variable {x : BitVec 32}

/-- A word store leaves the other bytes alone. -/
theorem store32_of_le (mem : ByteMem 32) (a v : BitVec 32) (hx : 4 ≤ (x - a).toNat) :
    store32 mem a v x = mem x := by
  apply storeLE_of_ne
  intro i hi heq
  subst heq
  bv_omega

variable {a : BitVec 32}

/-- A word depends on its four bytes. -/
theorem load32_of_bytes {mem mem' : ByteMem 32}
    (h : ∀ x : BitVec 32, (x - a).toNat < 4 → mem x = mem' x) : load32 mem a = load32 mem' a := by
  apply load32_congr
  intro i hi
  apply h
  bv_omega

/-- Words at different offsets do not overlap. -/
theorem load32_store32_offset (mem : ByteMem 32) (v a : BitVec 32) {i j : BitVec 32}
    (h : 4 ≤ (j - i).toNat ∧ 4 ≤ (i - j).toNat) :
    load32 (store32 mem (a + i) v) (a + j) = load32 mem (a + j) := by
  apply load32_of_bytes
  intro x hx
  apply store32_of_le
  bv_omega

/-- The byte is one of the `n` below an address. -/
def Below (a : BitVec 32) (n : ℕ) (x : BitVec 32) : Prop := (a - 1 - x).toNat < n

instance (a : BitVec 32) (n : ℕ) (x : BitVec 32) : Decidable (Below a n x) :=
  inferInstanceAs (Decidable (_ < _))

variable {ws : List (BitVec 32)}

/-- The words from an address on depend on their bytes only. -/
theorem Holds.congr {mem mem' : ByteMem 32} (hlen : 4 * ws.length ≤ 2 ^ 32) (h : Holds mem a ws)
    (hmem : ∀ x : BitVec 32, (x - a).toNat < 4 * ws.length → mem' x = mem x) : Holds mem' a ws := by
  induction ws generalizing a with
  | nil => trivial
  | cons w ws ih =>
    rw [List.length_cons] at hlen hmem
    constructor
    · rw [← h.1]
      apply load32_congr
      intro i hi
      apply hmem
      rw [show a + BitVec.ofNat 32 i - a = BitVec.ofNat 32 i by bv_omega, BitVec.toNat_ofNat]
      omega
    · apply ih (by omega) h.2
      intro x hx
      apply hmem
      bv_omega

/-- Words in front of others. -/
theorem holds_append {mem : ByteMem 32} {ws ws' : List (BitVec 32)} : Holds mem a (ws ++ ws') ↔
      Holds mem a ws ∧ Holds mem (a + BitVec.ofNat 32 (4 * ws.length)) ws' := by
  induction ws generalizing a with
  | nil => simp [Holds]
  | cons w ws ih =>
    have haddr : a + 4 + BitVec.ofNat 32 (4 * ws.length) =
        a + BitVec.ofNat 32 (4 * (w :: ws).length) := by
      rw [List.length_cons, Nat.mul_succ, BitVec.ofNat_add]
      bv_omega
    rw [List.cons_append, Holds, Holds, ih, haddr, and_assoc]

/-- A push writes the four bytes below the stack pointer. -/
theorem push_mem_of_not_below (m : Machine) (v : BitVec 32) (hx : ¬ Below (m.reg .esp) 4 x) :
    (m.push v).mem x = m.mem x := by
  apply storeLE_of_ne
  intro i hi heq
  apply hx
  subst heq
  rw [Below, show m.reg .esp - 1 - (m.reg .esp - 4 + BitVec.ofNat 32 i) = 3 - BitVec.ofNat 32 i by
    bv_omega]
  bv_omega

/-- Pushes write only below the stack pointer. -/
theorem pushAll_mem_of_not_below (m : Machine) (vs : List (BitVec 32))
    (hx : ¬ Below (m.reg .esp) (4 * vs.length) x) : (m.pushAll vs).mem x = m.mem x := by
  induction vs generalizing m with
  | nil => rfl
  | cons v vs ih =>
    rw [List.length_cons] at hx
    have hfirst : ¬ Below (m.reg .esp) 4 x := by
      unfold Below at hx ⊢
      omega
    have hrest : ¬ Below ((m.push v).reg .esp) (4 * vs.length) x := by
      unfold Below at hx ⊢
      rw [push_esp]
      bv_omega
    exact (ih (m.push v) hrest).trans (push_mem_of_not_below m v hfirst)

variable {m : Machine}

/-- A pushed word is in front of what is on the stack. -/
theorem Holds.push (v : BitVec 32) (hlen : 4 * (ws.length + 1) ≤ 2 ^ 32)
    (h : Holds m.mem (m.reg .esp) ws) :
    Holds (m.push v).mem ((m.push v).reg .esp) (v :: ws) := by
  rw [push_esp]
  refine ⟨load32_store32 _ _ _, ?_⟩
  rw [show m.reg .esp - 4 + 4 = m.reg .esp by bv_omega]
  apply h.congr (by omega)
  intro x hx
  apply push_mem_of_not_below
  unfold Below
  bv_omega

/-- Pushed words are in front of what is on the stack, the last one first. -/
theorem Holds.pushAll (vs : List (BitVec 32)) (hlen : 4 * (ws.length + vs.length) ≤ 2 ^ 32)
    (h : Holds m.mem (m.reg .esp) ws) :
    Holds (m.pushAll vs).mem ((m.pushAll vs).reg .esp) (vs.reverse ++ ws) := by
  induction vs generalizing m ws with
  | nil => exact h
  | cons v vs ih =>
    rw [List.length_cons] at hlen
    rw [List.reverse_cons, List.append_assoc, List.singleton_append]
    apply ih (by rw [List.length_cons]; omega)
    exact h.push v (by omega)

/-- The words that have been pushed. -/
theorem holds_pushAll (m : Machine) {vs : List (BitVec 32)} (hlen : 4 * vs.length ≤ 2 ^ 32) :
    Holds (m.pushAll vs).mem ((m.pushAll vs).reg .esp) vs.reverse := by
  have hholds : Holds (m.pushAll vs).mem ((m.pushAll vs).reg .esp) (vs.reverse ++ []) :=
    Holds.pushAll vs (by rwa [List.length_nil, Nat.zero_add]) trivial
  rwa [List.append_nil] at hholds

/-- What `popa` leaves, given the words on the stack. -/
theorem popa_eq {edi esi ebp esp ebx edx ecx eax : BitVec 32}
    (h : Holds m.mem (m.reg .esp) (edi :: esi :: ebp :: esp :: ebx :: edx :: ecx :: eax :: ws)) :
    m.popa = { m with reg := regFile eax ecx edx ebx (m.reg .esp + 32) ebp esi edi } := by
  obtain ⟨h1, h2, h3, -, h5, h6, h7, h8, -⟩ := h
  have hesp : m.reg .esp + 32 = m.reg .esp + 4 + 4 + 4 + 4 + 4 + 4 + 4 + 4 := by bv_omega
  apply Machine.ext
  · funext r
    cases r <;> simp only [Machine.popa, Machine.pop, Machine.drop, Machine.top, Machine.setReg,
      Function.update_self, Function.update_of_ne, ne_eq, reduceCtorEq, not_false_eq_true,
      h1, h2, h3, h5, h6, h7, h8, hesp, regFile]
  all_goals rfl

/-- A return from an interrupt to the same level. -/
theorem iret_same {eip cs eflags : BitVec 32} (h : Holds m.mem (m.reg .esp) (eip :: cs :: eflags :: ws))
    (hcpl : m.cpl = 0)
    (hcs : (cs.setWidth 16).toNat % 4 = 0) :
    m.iret = some (eip,
      { m.setReg .esp (m.reg .esp + 12) with
        seg := Function.update m.seg .cs (cs.setWidth 16)
        eflags := eflags }) := by
  obtain ⟨h1, h2, h3, -⟩ := h
  have hesp : m.reg .esp + 12 = m.reg .esp + 4 + 4 + 4 := by bv_omega
  rw [Machine.iret, if_pos hcpl]
  simp only [Machine.cpl, Machine.drop, Machine.top, Machine.setReg, Machine.setSeg,
    Function.update_self, Function.update_idem, h1, h2, h3, hcs, if_true, hesp]

/-- A return from an interrupt to an outer level, which also has the stack there. -/
theorem iret_outer {eip cs eflags esp ss : BitVec 32}
    (h : Holds m.mem (m.reg .esp) (eip :: cs :: eflags :: esp :: ss :: ws)) (hcpl : m.cpl = 0)
    (hcs : (cs.setWidth 16).toNat % 4 ≠ 0) :
    m.iret = some (eip,
      { m.setReg .esp esp with
        seg := Function.update (Function.update m.seg .cs (cs.setWidth 16)) .ss (ss.setWidth 16)
        eflags := eflags }) := by
  obtain ⟨h1, h2, h3, h4, h5, -⟩ := h
  rw [Machine.iret, if_pos hcpl]
  simp only [Machine.cpl, Machine.drop, Machine.top, Machine.setReg, Machine.setSeg,
    Function.update_self, Function.update_idem, h1, h2, h3, h4, h5, hcs, if_false]

end Words

end ChrisOS.Lib.X86
