import ChrisOS.Lib.ByteMem
import ChrisOS.Utils.Mem

/-!
# The first context on a new stack

`stack_init` of `ia32/stack.c` puts a `struct context` and the frame of the entry point on a stack. The
place is computed by adding a number of bytes to a pointer to `struct context`, which steps by whole
structures: for all but a few sizes it is far outside the stack.
-/

namespace ChrisOS.Ia32

open ChrisOS.Utils ChrisOS.Lib

/-- `sizeof(struct context)`: three registers and a `struct iret_stack_frame` without arguments. -/
def sizeofContext : Word := 28

/-- `sizeof(struct ep_frame)`: a return address and the argument. -/
def sizeofEpFrame : Word := 8

/-- The pointer `stack_init` computes: that many structures, not bytes, above the stack's base. -/
def stackContext (stack size : Word) : Word :=
  stack + sizeofContext * (size - sizeofContext - sizeofEpFrame)

/-- Clear bit `flags_if_bit`. -/
def clearInterruptFlag (eflags : Word) : Word := eflags &&& ~~~((1 : Word) <<< 9)

/-- The words `stack_init` stores and their values, in its order: the entry point's frame at
`frame.args`, then `frame.ebp`, `frame.eip`, `frame.cs` and `frame.eflags`. -/
def stackInitStores (cs eflags stack size func data : Word) : List (Word × Word) :=
  let ctx := stackContext stack size
  [(ctx + sizeofContext, 0), (ctx + sizeofContext + 4, data), (ctx + 12, 0), (ctx + 16, func),
    (ctx + 20, cs), (ctx + 24, clearInterruptFlag eflags)]

/-- Store words one after the other. -/
def storeAll (mem : ByteMem 32) (stores : List (Word × Word)) : ByteMem 32 :=
  stores.foldl (fun mem store => store32 mem store.1 store.2) mem

/-- `stack_init`, where `cs` and `eflags` are what the two registers hold: the context and memory
afterwards. -/
def stackInit (cs eflags : Word) (mem : ByteMem 32) (stack size func data : Word) :
    Word × ByteMem 32 :=
  (stackContext stack size, storeAll mem (stackInitStores cs eflags stack size func data))

/-- A byte that a list of stores writes. -/
def Writes (stores : List (Word × Word)) (x : Word) : Prop :=
  ∃ store ∈ stores, ∃ k < 4, x = store.1 + BitVec.ofNat 32 k

/-- Stores leave every other byte alone. -/
theorem storeAll_of_not_writes {stores : List (Word × Word)} {x : Word} (h : ¬ Writes stores x)
    (mem : ByteMem 32) : storeAll mem stores x = mem x := by
  induction stores generalizing mem with
  | nil => rfl
  | cons store rest ih =>
    have hrest : ¬ Writes rest x := fun ⟨t, ht, hk⟩ => h ⟨t, List.mem_cons_of_mem _ ht, hk⟩
    have hfirst : ∀ k < 4, x ≠ store.1 + BitVec.ofNat 32 k := fun k hk heq =>
      h ⟨store, List.mem_cons_self, k, hk, heq⟩
    exact (ih hrest _).trans (storeLE_of_ne _ _ _ _ _ hfirst)

/-- The bytes `stack_init` writes: from `frame.ebp` to the end of the entry point's frame. -/
theorem writes_stackInitStores (cs eflags stack size func data x : Word) :
    Writes (stackInitStores cs eflags stack size func data) x ↔
      (x - (stackContext stack size + 12)).toNat < 24 := by
  simp only [Writes, exists_offset_iff _ _ (show 4 ≤ 2 ^ 32 by decide), stackInitStores, sizeofContext,
    List.mem_cons, List.not_mem_nil, or_false, or_and_right, exists_or, exists_eq_left]
  generalize stackContext stack size = ctx
  bv_omega

/-- The distance from the base of the stack to `frame.ebp`, and from there to the end of what is
written, stays inside the stack. -/
def ContextFits (size : Word) : Prop := (28 * (size.toNat - 36) + 12) % 2 ^ 32 + 24 ≤ size.toNat

instance (size : Word) : Decidable (ContextFits size) := inferInstanceAs (Decidable (_ ≤ _))

/-- Twenty-four bytes lie inside a stack exactly when the first has that many behind it. -/
theorem inside_stack_iff {stack size p : Word} (hfits : stack.toNat + size.toNat ≤ 2 ^ 32) :
    (∀ x : Word, (x - p).toNat < 24 →
      stack.toNat ≤ x.toNat ∧ x.toNat < stack.toNat + size.toNat) ↔
      (p - stack).toNat + 24 ≤ size.toNat := by
  constructor
  · intro h
    by_contra hlt
    by_cases hout : size.toNat ≤ (p - stack).toNat
    · have := h p (by bv_omega)
      bv_omega
    · -- the first byte behind the stack is one of them
      have := h (stack + size) (by bv_omega)
      bv_omega
  · intro h x hx
    bv_omega

/-- `stack_init` writes inside the stack it is given exactly for the sizes whose multiple of 28 falls
there. -/
theorem stackInit_inside_iff {stack size : Word} (hsize : 36 ≤ size.toNat)
    (hfits : stack.toNat + size.toNat ≤ 2 ^ 32) (cs eflags func data : Word) :
    (∀ x : Word, Writes (stackInitStores cs eflags stack size func data) x →
      stack.toNat ≤ x.toNat ∧ x.toNat < stack.toNat + size.toNat) ↔ ContextFits size := by
  simp only [writes_stackInitStores, inside_stack_iff hfits]
  have hoffset : (stackContext stack size + 12 - stack).toNat =
      (28 * (size.toNat - 36) + 12) % 2 ^ 32 := by
    simp only [stackContext, sizeofContext, sizeofEpFrame]
    bv_omega
  rw [hoffset, ContextFits]

end ChrisOS.Ia32
