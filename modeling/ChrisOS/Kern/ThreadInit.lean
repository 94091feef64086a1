import ChrisOS.Ia32.Stack
import ChrisOS.Kern.Scheduler
import ChrisOS.Mm.RangeArith
import Mathlib.Logic.Relation

/-!
# Initialising threads

`thread_init` of `kern/thread.c`: a thread gets two stacks from the heap and its first context on one of
them. What `kmalloc` answers is part of a call; a run is any sequence of calls in which it answers
with blocks that fit and are disjoint from all blocks in use. The sizes of the stacks are
parameters, since whether the context is on the stack depends on them.
-/

namespace ChrisOS.Kern

open ChrisOS.Utils ChrisOS.Lib ChrisOS.Mm ChrisOS.Ia32

/-- The fields of `struct thread` that `thread_init` writes, but for the name. -/
structure ThreadFields where
  tid : Word
  state : ThreadState
  stack : Word
  kernelStack : Word
  stackSize : Word
  kernelStackSize : Word
  func : Word
  data : Word
  stackContext : Word

/-- `STACK_SIZE`. -/
def threadStackSize : Word := 4096

/-- `KERNEL_STACK_SIZE`. -/
def threadKernelStackSize : Word := 4096

/-- Memory, `_next_tid` and the threads by their addresses. -/
structure ThreadSystem where
  mem : ByteMem 32
  nextTid : Word
  threads : Word → ThreadFields

/-- The arguments of a call, the registers it reads, the address of `thread_entry_point` and what the
two calls of `kmalloc` answer. -/
structure ThreadInitCall where
  t : Word
  func : Word
  data : Word
  cs : Word
  eflags : Word
  entryPoint : Word
  stack : Word
  kernelStack : Word

/-- `thread_next_id`. -/
def threadNextId (nextTid : Word) : Word := if nextTid + 1 = 0 then 1 else nextTid + 1

/-- `thread_init` with stacks of the given sizes: the value returned and the system afterwards. -/
def threadInit (stackSize kernelStackSize : Word) (s : ThreadSystem) (call : ThreadInitCall) :
    Int × ThreadSystem :=
  let tid := threadNextId s.nextTid
  let fields := { s.threads call.t with tid := tid, state := .created, stack := call.stack }
  if call.stack = 0 then
    (-1, { s with nextTid := tid, threads := Function.update s.threads call.t fields })
  else
    let fields := { fields with kernelStack := call.kernelStack }
    if call.kernelStack = 0 then
      -- the stack is freed again, its address stays in the field
      (-1, { s with nextTid := tid, threads := Function.update s.threads call.t fields })
    else
      let context := stackInit call.cs call.eflags s.mem call.stack stackSize call.entryPoint call.t
      let fields := { fields with
        stackSize := stackSize
        kernelStackSize := kernelStackSize
        func := call.func
        data := call.data
        stackContext := context.1 }
      (0, ⟨context.2, tid, Function.update s.threads call.t fields⟩)

/-- A run's system and the heap blocks in use. -/
structure ThreadRun where
  sys : ThreadSystem
  live : List Range

/-- A new block fits and is disjoint from the blocks in use. -/
def FreshBlock (live : List Range) (b : Range) : Prop :=
  b.Fits ∧ ∀ c ∈ live, b.hi ≤ c.lo ∨ c.hi ≤ b.lo

instance (live : List Range) (b : Range) : Decidable (FreshBlock live b) :=
  inferInstanceAs (Decidable (_ ∧ _))

/-- One call of `thread_init`. Both stacks stay in use if it succeeds, and neither if it fails. -/
inductive ThreadInitStep (stackSize kernelStackSize : Word) : ThreadRun → ThreadRun → Prop
  | succeeds (r : ThreadRun) (call : ThreadInitCall) (hstack : call.stack ≠ 0)
      (hkernel : call.kernelStack ≠ 0) (hfresh : FreshBlock r.live ⟨call.stack, stackSize⟩)
      (hfresh' : FreshBlock (⟨call.stack, stackSize⟩ :: r.live)
        ⟨call.kernelStack, kernelStackSize⟩) :
      ThreadInitStep stackSize kernelStackSize r
        ⟨(threadInit stackSize kernelStackSize r.sys call).2,
          ⟨call.kernelStack, kernelStackSize⟩ :: ⟨call.stack, stackSize⟩ :: r.live⟩
  | fails (r : ThreadRun) (call : ThreadInitCall) (h : call.stack = 0 ∨ call.kernelStack = 0) :
      ThreadInitStep stackSize kernelStackSize r
        ⟨(threadInit stackSize kernelStackSize r.sys call).2, r.live⟩

section Frame

variable {stackSize kernelStackSize : Word}

/-- A call that fails writes nothing but the thread's fields. -/
theorem threadInit_of_null (s : ThreadSystem) {call : ThreadInitCall}
    (h : call.stack = 0 ∨ call.kernelStack = 0) :
    (threadInit stackSize kernelStackSize s call).2.mem = s.mem := by
  unfold threadInit
  dsimp only
  by_cases hstack : call.stack = 0
  · rw [if_pos hstack]
  · rw [if_neg hstack, if_pos (h.resolve_left hstack)]

/-- A call that succeeds writes its own stack only, for sizes at which the context is on it. -/
theorem threadInit_of_ne (hsize : 36 ≤ stackSize.toNat) (hcontext : ContextFits stackSize)
    (s : ThreadSystem) {call : ThreadInitCall} (hstack : call.stack ≠ 0)
    (hkernel : call.kernelStack ≠ 0) (hfits : (⟨call.stack, stackSize⟩ : Range).Fits) {x : Word}
    (hx : ¬ (call.stack.toNat ≤ x.toNat ∧ x.toNat < call.stack.toNat + stackSize.toNat)) :
    (threadInit stackSize kernelStackSize s call).2.mem x = s.mem x := by
  have hinside := (stackInit_inside_iff hsize hfits call.cs call.eflags call.entryPoint call.t).mpr
    hcontext
  unfold threadInit
  dsimp only
  rw [if_neg hstack, if_neg hkernel]
  exact storeAll_of_not_writes (fun hwrites => hx (hinside x hwrites)) s.mem

/-- What one call leaves alone: the blocks in use before it. -/
theorem ThreadInitStep.keeps (hsize : 36 ≤ stackSize.toNat) (hcontext : ContextFits stackSize)
    {r r' : ThreadRun} (h : ThreadInitStep stackSize kernelStackSize r r') {b : Range}
    (hb : b ∈ r.live) :
    b ∈ r'.live ∧ ∀ x : Word, b.lo ≤ x.toNat → x.toNat < b.hi → r'.sys.mem x = r.sys.mem x := by
  cases h with
  | succeeds call hstack hkernel hfresh _ =>
    refine ⟨List.mem_cons_of_mem _ (List.mem_cons_of_mem _ hb), fun x hlo hhi => ?_⟩
    refine threadInit_of_ne hsize hcontext r.sys hstack hkernel hfresh.1 fun hin => ?_
    have hdisjoint := hfresh.2 b hb
    simp only [Range.lo, Range.hi] at hdisjoint hlo hhi
    omega
  | fails call hnull =>
    exact ⟨hb, fun x _ _ => congrFun (threadInit_of_null r.sys hnull) x⟩

/-- Over any sequence of calls the blocks in use at its start keep their contents. -/
theorem threadInits_keep (hsize : 36 ≤ stackSize.toNat) (hcontext : ContextFits stackSize)
    {r r' : ThreadRun}
    (hrun : Relation.ReflTransGen (ThreadInitStep stackSize kernelStackSize) r r') {b : Range}
    (hb : b ∈ r.live) :
    b ∈ r'.live ∧ ∀ x : Word, b.lo ≤ x.toNat → x.toNat < b.hi → r'.sys.mem x = r.sys.mem x := by
  induction hrun with
  | refl => exact ⟨hb, fun _ _ _ => rfl⟩
  | tail _ hstep ih =>
    obtain ⟨hlive, hkept⟩ := hstep.keeps hsize hcontext ih.1
    exact ⟨hlive, fun x hlo hhi => (hkept x hlo hhi).trans (ih.2 x hlo hhi)⟩

end Frame

/-- For a size of stack at which the context falls on it, `stack_init` writes inside every stack of that
size, and over any sequence of calls of `thread_init` no other thread's stack and no other block of
the heap is modified. -/
theorem threadInit_writes_own_stack {stackSize : Word} (kernelStackSize : Word)
    (hsize : 36 ≤ stackSize.toNat) (hcontext : ContextFits stackSize) :
    (∀ stack cs eflags func data x : Word, stack.toNat + stackSize.toNat ≤ 2 ^ 32 →
      Writes (stackInitStores cs eflags stack stackSize func data) x →
      stack.toNat ≤ x.toNat ∧ x.toNat < stack.toNat + stackSize.toNat) ∧
    ∀ r r' : ThreadRun, Relation.ReflTransGen (ThreadInitStep stackSize kernelStackSize) r r' →
      ∀ b ∈ r.live, b ∈ r'.live ∧
        ∀ x : Word, b.lo ≤ x.toNat → x.toNat < b.hi → r'.sys.mem x = r.sys.mem x := by
  refine ⟨fun stack cs eflags func data x hfits hwrites => ?_, fun r r' hrun b hb => ?_⟩
  · exact (stackInit_inside_iff hsize hfits cs eflags func data).mpr hcontext x hwrites
  · exact threadInits_keep hsize hcontext hrun hb

/-- The run after a call that got both stacks. -/
def ThreadRun.afterInit (stackSize kernelStackSize : Word) (r : ThreadRun) (call : ThreadInitCall) :
    ThreadRun :=
  ⟨(threadInit stackSize kernelStackSize r.sys call).2,
    ⟨call.kernelStack, kernelStackSize⟩ :: ⟨call.stack, stackSize⟩ :: r.live⟩

/-- Zeroed memory, with no block in use. -/
def noThreads : ThreadRun := ⟨⟨fun _ => 0, 0, fun _ => ⟨0, .created, 0, 0, 0, 0, 0, 0, 0⟩⟩, []⟩

/-- A thread whose stack is at `0xC0A1B800`. -/
def upperThread : ThreadInitCall :=
  ⟨0xC0800000, 0xC0101000, 0, 8, 0x202, 0xC0100000, 0xC0A1B800, 0xC0A20000⟩

/-- A thread whose stack is at `0xC0A00000`. -/
def lowerThread : ThreadInitCall :=
  ⟨0xC0800100, 0xC0101000, 0, 8, 0x202, 0xC0100000, 0xC0A00000, 0xC0A30000⟩

/-- The first thread's stack and context, when each stack has room for one context only, are left
alone by the second call. -/
theorem threadInit_writes_own_stack_smallest :
    ((noThreads.afterInit 36 36 upperThread).afterInit 36 36 lowerThread).sys.mem 0xC0A1B810 =
      (noThreads.afterInit 36 36 upperThread).sys.mem 0xC0A1B810 := by
  have hstep : ThreadInitStep 36 36 (noThreads.afterInit 36 36 upperThread)
      ((noThreads.afterInit 36 36 upperThread).afterInit 36 36 lowerThread) :=
    .succeeds _ lowerThread (by decide) (by decide) (by decide) (by decide)
  exact ((threadInit_writes_own_stack 36 (by decide) (by decide)).2 _ _ (.single hstep)
    ⟨0xC0A1B800, 36⟩ (by decide)).2 0xC0A1B810 (by decide) (by decide)

/-- With stacks of `STACK_SIZE` the context of the second thread is written into the stack of the
first, 27 stacks above its own. -/
theorem threadInit_writes_other_stack :
    ThreadInitStep threadStackSize threadKernelStackSize noThreads
      (noThreads.afterInit threadStackSize threadKernelStackSize upperThread) ∧
    ThreadInitStep threadStackSize threadKernelStackSize
      (noThreads.afterInit threadStackSize threadKernelStackSize upperThread)
      ((noThreads.afterInit threadStackSize threadKernelStackSize upperThread).afterInit
        threadStackSize threadKernelStackSize lowerThread) ∧
    (⟨0xC0A1B800, threadStackSize⟩ : Range) ∈
      (noThreads.afterInit threadStackSize threadKernelStackSize upperThread).live ∧
    (noThreads.afterInit threadStackSize threadKernelStackSize upperThread).sys.mem 0xC0A1BC22 = 0 ∧
    ((noThreads.afterInit threadStackSize threadKernelStackSize upperThread).afterInit
      threadStackSize threadKernelStackSize lowerThread).sys.mem 0xC0A1BC22 = 0x10 :=
  ⟨.succeeds _ upperThread (by decide) (by decide) (by decide) (by decide),
    .succeeds _ lowerThread (by decide) (by decide) (by decide) (by decide), by decide, by decide,
    by decide⟩

end ChrisOS.Kern
