import ChrisOS.Lib.ListTable
import ChrisOS.Utils.Mem
import Mathlib.Data.List.Find

/-!
# Interrupt handlers

`ia32/interrupts.c`: drivers install handlers for a vector, and an interrupt calls those of its vector
one after the other until one takes it. Handlers are kept in linked lists, and the nodes of those that
are uninstalled by their function are used again.

What is on the lists after any sequence of calls is given by a table of lists of handlers, the last one
that was installed first. Static memory runs out (an assertion) when `fresh` is `none`; a handler does not
change the lists while they are walked.
-/

namespace ChrisOS.Ia32

open ChrisOS.Utils ChrisOS.Lib

/-- `MAX_INTERRUPTS`. -/
def maxInterrupts : ℕ := 256

/-- The lists of handlers: `_free_handlers` and the elements of `handlers`. -/
inductive HandlerList
  | free
  | vector (intNo : Word)
deriving DecidableEq

/-- The pointers to the lists and the fields of the `struct interrupt_handler`s; functions are `φ` and the
data they are called with `δ`. -/
structure InterruptHandlers (α φ δ : Type) where
  head : HandlerList → Option α
  next : α → Option α
  intNo : α → Word
  handler : α → φ
  data : α → δ

section Functions

variable {α φ δ ρ : Type} [DecidableEq α]

/-- `interrupts_handler_alloc`, with what `kalloc_static` returns. -/
def interruptsHandlerAlloc (fresh : Option α) (s : InterruptHandlers α φ δ) :
    Option (InterruptHandlers α φ δ × α) :=
  match s.head .free with
  | none => fresh.map fun handler => (s, handler)
  | some handler => some ({ s with head := Function.update s.head .free (s.next handler) }, handler)

/-- `interrupts_handler_free`. -/
def interruptsHandlerFree (s : InterruptHandlers α φ δ) (handler : α) : InterruptHandlers α φ δ :=
  let list := llPrepend s.next (s.head .free) handler
  { s with next := list.1, head := Function.update s.head .free list.2 }

/-- `interrupts_install_handler`. -/
def interruptsInstallHandler (fresh : Option α) (s : InterruptHandlers α φ δ) (intNo : Word)
    (handlerFn : φ) (data : δ) : Option (InterruptHandlers α φ δ × α) :=
  if intNo.toNat < maxInterrupts then
    (interruptsHandlerAlloc fresh s).map fun (s, handler) =>
      let list := llPrepend s.next (s.head (.vector intNo)) handler
      ({ head := Function.update s.head (.vector intNo) list.2
         next := list.1
         intNo := Function.update s.intNo handler intNo
         handler := Function.update s.handler handler handlerFn
         data := Function.update s.data handler data }, handler)
  else none

/-- `LL_DELETE(handlers[int_no], handler)`. -/
def deleteHandler (fuel : ℕ) (s : InterruptHandlers α φ δ) (intNo : Word) (handler : α) :
    Option (InterruptHandlers α φ δ) :=
  if intNo.toNat < maxInterrupts then
    (llDelete s.next (s.head (.vector intNo)) handler fuel).map fun list =>
      { s with next := list.1, head := Function.update s.head (.vector intNo) list.2 }
  else none

/-- `interrupts_uninstall_handler`, which does not free the node. -/
def interruptsUninstallHandler (fuel : ℕ) (s : InterruptHandlers α φ δ) (handler : α) :
    Option (InterruptHandlers α φ δ) :=
  deleteHandler fuel s (s.intNo handler) handler

/-- `interrupts_uninstall_handler_func`. -/
def interruptsUninstallHandlerFunc [DecidableEq φ] (fuel : ℕ) (s : InterruptHandlers α φ δ)
    (intNo : Word) (handlerFn : φ) : Option (InterruptHandlers α φ δ) :=
  if intNo.toNat < maxInterrupts then
    (llFind s.next (fun handler => s.handler handler = handlerFn) fuel
        (s.head (.vector intNo))).bind fun
      | none => some s
      | some handler =>
        (deleteHandler fuel s intNo handler).map fun s => interruptsHandlerFree s handler
  else none

/-- The loop of `interrupts_dispatch`; `invoke` is a call of a handler, which may change the registers and
says whether it has taken the interrupt. -/
def dispatchFrom (invoke : φ → Word → ρ → δ → ρ × Bool) (s : InterruptHandlers α φ δ) (intNo : Word) :
    ℕ → Option α → ρ → Option (ρ × Bool)
  | 0, _, _ => none
  | _ + 1, none, regs => some (regs, false)
  | fuel + 1, some handler, regs =>
    let result := invoke (s.handler handler) intNo regs (s.data handler)
    if result.2 then some result
    else dispatchFrom invoke s intNo fuel (s.next handler) result.1

/-- `interrupts_dispatch`. -/
def interruptsDispatch (invoke : φ → Word → ρ → δ → ρ × Bool) (fuel : ℕ)
    (s : InterruptHandlers α φ δ) (intNo : Word) (regs : ρ) : Option (ρ × Bool) :=
  if intNo.toNat < maxInterrupts then
    dispatchFrom invoke s intNo fuel (s.head (.vector intNo)) regs
  else none

end Functions

section Registry

variable {α φ δ : Type}

/-- A handler that is installed, at a node. -/
structure Installed (α φ δ : Type) where
  node : α
  handler : φ
  data : δ

/-- The handlers of each vector, the last one that was installed first, and the nodes to be used again. -/
@[ext]
structure Registry (α φ δ : Type) where
  installed : Word → List (Installed α φ δ)
  free : List α

/-- The nodes on each list. -/
def Registry.nodes (r : Registry α φ δ) : HandlerList → List α
  | .free => r.free
  | .vector intNo => (r.installed intNo).map Installed.node

/-- Nothing is installed. -/
def Registry.empty : Registry α φ δ := ⟨fun _ => [], []⟩

/-- The calls that change the lists. -/
inductive HandlerOp (α φ δ : Type)
  | install (fresh : α) (intNo : Word) (handlerFn : φ) (data : δ)
  | uninstall (handler : α)
  | uninstallFunc (intNo : Word) (handlerFn : φ)

/-- What a call does to the lists. -/
def HandlerOp.apply [DecidableEq α] [DecidableEq φ] (r : Registry α φ δ) :
    HandlerOp α φ δ → Registry α φ δ
  | .install fresh intNo handlerFn data =>
    { installed := Function.update r.installed intNo
        (⟨r.free.headD fresh, handlerFn, data⟩ :: r.installed intNo)
      free := r.free.tail }
  | .uninstall handler =>
    { r with installed := fun intNo => (r.installed intNo).filter (·.node ≠ handler) }
  | .uninstallFunc intNo handlerFn =>
    { installed := Function.update r.installed intNo
        ((r.installed intNo).eraseP (·.handler = handlerFn))
      free := (((r.installed intNo).find? (·.handler = handlerFn)).map Installed.node).toList ++ r.free }

/-- A new handler's vector is in the table and its node, if none is free, is new memory; only installed
handlers are uninstalled. The lists are shorter than `fuel`. -/
def HandlerOp.Allowed (fuel : ℕ) (r : Registry α φ δ) : HandlerOp α φ δ → Prop
  | .install fresh intNo _ _ =>
    intNo.toNat < maxInterrupts ∧ (r.free = [] → ∀ list, fresh ∉ r.nodes list)
  | .uninstall handler =>
    ∃ intNo, handler ∈ (r.installed intNo).map Installed.node ∧ (r.installed intNo).length < fuel
  | .uninstallFunc intNo _ => intNo.toNat < maxInterrupts ∧ (r.installed intNo).length < fuel

/-- The call itself. -/
def HandlerOp.run [DecidableEq α] [DecidableEq φ] (fuel : ℕ) (s : InterruptHandlers α φ δ) :
    HandlerOp α φ δ → Option (InterruptHandlers α φ δ)
  | .install fresh intNo handlerFn data =>
    (interruptsInstallHandler (some fresh) s intNo handlerFn data).map Prod.fst
  | .uninstall handler => interruptsUninstallHandler fuel s handler
  | .uninstallFunc intNo handlerFn => interruptsUninstallHandlerFunc fuel s intNo handlerFn

/-- The pointers and fields represent the registry. -/
structure RegistryRep (s : InterruptHandlers α φ δ) (r : Registry α φ δ) : Prop where
  table : TableRep s.next s.head r.nodes
  fields : ∀ intNo, ∀ e ∈ r.installed intNo,
    s.intNo e.node = intNo ∧ s.handler e.node = e.handler ∧ s.data e.node = e.data
  valid : ∀ intNo, r.installed intNo ≠ [] → intNo.toNat < maxInterrupts

end Registry

section Steps

variable {α φ δ : Type} {s : InterruptHandlers α φ δ} {r : Registry α φ δ} {fuel : ℕ}

theorem Registry.nodes_update (r : Registry α φ δ) (intNo : Word) (l : List (Installed α φ δ)) :
    Registry.nodes { r with installed := Function.update r.installed intNo l } =
      Function.update r.nodes (.vector intNo) (l.map Installed.node) := by
  funext list
  cases list with
  | free => rfl
  | vector v =>
    by_cases hv : v = intNo
    · subst hv
      simp [Registry.nodes]
    · simp [Registry.nodes, hv]

theorem Registry.nodes_free (r : Registry α φ δ) (free : List α) :
    Registry.nodes { r with free := free } = Function.update r.nodes .free free := by
  funext list
  cases list <;> simp [Registry.nodes]

/-- At the start, nothing is installed. -/
theorem registryRep_empty (next : α → Option α) (intNo : α → Word) (handler : α → φ) (data : α → δ) :
    RegistryRep ⟨fun _ => none, next, intNo, handler, data⟩ Registry.empty := by
  refine ⟨?_, fun _ _ he => absurd he List.not_mem_nil, fun _ hne => absurd rfl hne⟩
  have hnodes : (Registry.empty : Registry α φ δ).nodes = fun _ => [] := by
    funext list
    cases list <;> rfl
  rw [hnodes]
  exact TableRep.nil next

variable {intNo : Word}

/-- The walk for a function finds the first handler with it. -/
theorem RegistryRep.find_handler [DecidableEq φ] (h : RegistryRep s r) (handlerFn : φ)
    (hfuel : (r.installed intNo).length < fuel) :
    llFind s.next (fun handler => s.handler handler = handlerFn) fuel (s.head (.vector intNo)) =
      some (((r.installed intNo).find? (·.handler = handlerFn)).map Installed.node) := by
  rw [llFind_eq (h.table.rep (.vector intNo)) _ (by rwa [Registry.nodes, List.length_map]),
    Registry.nodes, List.find?_map]
  congr 2
  apply List.find?_congr
  intro e he
  rw [Function.comp_apply, (h.fields intNo e he).2.1]

variable [DecidableEq α]

/-- `interrupts_handler_alloc` takes the first free node, or new memory. -/
theorem RegistryRep.alloc (h : RegistryRep s r) {fresh : α}
    (hfresh : r.free = [] → ∀ list, fresh ∉ r.nodes list) :
    ∃ s', interruptsHandlerAlloc (some fresh) s = some (s', r.free.headD fresh) ∧
      RegistryRep s' { r with free := r.free.tail } ∧
      ∀ list, r.free.headD fresh ∉ Registry.nodes { r with free := r.free.tail } list := by
  have hrep := h.table.rep .free
  cases hfree : r.free with
  | nil =>
    rw [show r.nodes .free = [] from hfree] at hrep
    have hsame : { r with free := [] } = r := by rw [← hfree]
    refine ⟨s, ?_, ?_, ?_⟩
    · rw [interruptsHandlerAlloc, show s.head .free = none from hrep]
      rfl
    · rwa [List.tail_nil, hsame]
    · rw [List.tail_nil, hsame]
      exact hfresh hfree
  | cons a rest =>
    have hlist : r.nodes .free = a :: rest := hfree
    rw [hlist] at hrep
    refine ⟨{ s with head := Function.update s.head .free (s.next a) }, ?_, ?_, ?_⟩
    · rw [interruptsHandlerAlloc, show s.head .free = some a from hrep.1]
      rfl
    · refine ⟨?_, h.fields, h.valid⟩
      rw [Registry.nodes_free]
      exact h.table.pop hlist
    · rw [Registry.nodes_free]
      exact h.table.notMem_update (show r.nodes .free = [] ++ a :: rest from hlist)

/-- `interrupts_handler_free` keeps a node for later. -/
theorem RegistryRep.free (h : RegistryRep s r) {handler : α} (hhandler : ∀ list, handler ∉ r.nodes list) :
    RegistryRep (interruptsHandlerFree s handler) { r with free := handler :: r.free } := by
  refine ⟨?_, h.fields, h.valid⟩
  rw [Registry.nodes_free]
  exact h.table.prepend hhandler .free

/-- `interrupts_install_handler`. -/
theorem RegistryRep.install [DecidableEq φ] (h : RegistryRep s r) {fresh : α} {handlerFn : φ} {data : δ}
    (hallowed : (HandlerOp.install fresh intNo handlerFn data).Allowed fuel r) :
    ∃ s', interruptsInstallHandler (some fresh) s intNo handlerFn data =
        some (s', r.free.headD fresh) ∧
      RegistryRep s' ((HandlerOp.install fresh intNo handlerFn data).apply r) := by
  obtain ⟨s₁, halloc, h₁, hnew⟩ := h.alloc hallowed.2
  let r₁ : Registry α φ δ := { r with free := r.free.tail }
  let e : Installed α φ δ := ⟨r.free.headD fresh, handlerFn, data⟩
  let list := llPrepend s₁.next (s₁.head (.vector intNo)) e.node
  refine ⟨{ head := Function.update s₁.head (.vector intNo) list.2
            next := list.1
            intNo := Function.update s₁.intNo e.node intNo
            handler := Function.update s₁.handler e.node handlerFn
            data := Function.update s₁.data e.node data }, ?_, ?_, ?_, ?_⟩
  · rw [interruptsInstallHandler, if_pos hallowed.1, halloc]
    rfl
  · have htable := h₁.table.prepend hnew (.vector intNo)
    have hnodes := r₁.nodes_update intNo (e :: r.installed intNo)
    exact hnodes ▸ htable
  · intro v e' he'
    change e' ∈ Function.update r.installed intNo (e :: r.installed intNo) v at he'
    -- the fields of the other nodes are left alone
    have hold : e' ∈ r.installed v → Function.update s₁.intNo e.node intNo e'.node = v ∧
        Function.update s₁.handler e.node handlerFn e'.node = e'.handler ∧
        Function.update s₁.data e.node data e'.node = e'.data := by
      intro hmem
      have hne : e'.node ≠ e.node := by
        intro heq
        apply hnew (.vector v)
        change e.node ∈ (r.installed v).map Installed.node
        rw [← heq]
        exact List.mem_map_of_mem hmem
      have hfields := h₁.fields v e' hmem
      exact ⟨(Function.update_of_ne hne _ _).trans hfields.1,
        (Function.update_of_ne hne _ _).trans hfields.2.1,
        (Function.update_of_ne hne _ _).trans hfields.2.2⟩
    by_cases hv : v = intNo
    · subst hv
      rw [Function.update_self] at he'
      rcases List.mem_cons.mp he' with rfl | he'
      · exact ⟨Function.update_self _ _ _, Function.update_self _ _ _, Function.update_self _ _ _⟩
      · exact hold he'
    · rw [Function.update_of_ne hv] at he'
      exact hold he'
  · intro v hv
    change Function.update r.installed intNo _ v ≠ [] at hv
    by_cases hvi : v = intNo
    · rw [hvi]
      exact hallowed.1
    · rw [Function.update_of_ne hvi] at hv
      exact h.valid v hv

/-- `LL_DELETE` of a handler. -/
theorem RegistryRep.delete (h : RegistryRep s r) {pre post : List (Installed α φ δ)}
    {e : Installed α φ δ} (hlist : r.installed intNo = pre ++ e :: post)
    (hfuel : (r.installed intNo).length < fuel) :
    ∃ s', deleteHandler fuel s intNo e.node = some s' ∧
      RegistryRep s' { r with installed := Function.update r.installed intNo (pre ++ post) } ∧
      ∀ list, e.node ∉
        Registry.nodes { r with installed := Function.update r.installed intNo (pre ++ post) } list := by
  have hnodes : r.nodes (.vector intNo) = pre.map Installed.node ++ e.node :: post.map Installed.node := by
    rw [Registry.nodes, hlist, List.map_append, List.map_cons]
  have hvalid : intNo.toNat < maxInterrupts := h.valid intNo (by simp [hlist])
  rw [hlist, List.length_append] at hfuel
  obtain ⟨next', head', hdelete, htable⟩ := h.table.delete (a := e.node) hnodes
    (show (pre.map Installed.node).length ≤ fuel by rw [List.length_map]; omega)
  rw [← List.map_append, ← Registry.nodes_update] at htable
  refine ⟨{ s with next := next', head := Function.update s.head (.vector intNo) head' }, ?_,
    ⟨htable, ?_, ?_⟩, ?_⟩
  · rw [deleteHandler, if_pos hvalid, hdelete]
    rfl
  · intro v e' he'
    apply h.fields v e'
    change e' ∈ Function.update r.installed intNo (pre ++ post) v at he'
    by_cases hv : v = intNo
    · subst hv
      rw [Function.update_self] at he'
      rw [hlist]
      simp only [List.mem_append, List.mem_cons] at he' ⊢
      tauto
    · rwa [Function.update_of_ne hv] at he'
  · intro v hv
    change Function.update r.installed intNo _ v ≠ [] at hv
    by_cases hvi : v = intNo
    · rwa [hvi]
    · rw [Function.update_of_ne hvi] at hv
      exact h.valid v hv
  · rw [Registry.nodes_update, List.map_append]
    exact h.table.notMem_update hnodes

/-- `interrupts_uninstall_handler`. -/
theorem RegistryRep.uninstall [DecidableEq φ] (h : RegistryRep s r) {handler : α}
    (hallowed : (HandlerOp.uninstall handler : HandlerOp α φ δ).Allowed fuel r) :
    ∃ s', (HandlerOp.uninstall handler).run fuel s = some s' ∧
      RegistryRep s' ((HandlerOp.uninstall handler).apply r) := by
  obtain ⟨intNo, hmem, hfuel⟩ := hallowed
  obtain ⟨e, he, rfl⟩ := List.mem_map.mp hmem
  obtain ⟨pre, post, hlist⟩ := List.append_of_mem he
  obtain ⟨s', hdelete, hrep, hnode⟩ := h.delete hlist hfuel
  refine ⟨s', ?_, ?_⟩
  · rw [HandlerOp.run, interruptsUninstallHandler, (h.fields intNo e he).1]
    exact hdelete
  · have hsame : (HandlerOp.uninstall e.node).apply r =
        { r with installed := Function.update r.installed intNo (pre ++ post) } :=
      Registry.ext (filter_node_eq_update hlist fun v => hnode (.vector v)) rfl
    rw [hsame]
    exact hrep

/-- `interrupts_uninstall_handler_func`. -/
theorem RegistryRep.uninstallFunc [DecidableEq φ] (h : RegistryRep s r) {handlerFn : φ}
    (hallowed : (HandlerOp.uninstallFunc intNo handlerFn : HandlerOp α φ δ).Allowed fuel r) :
    ∃ s', (HandlerOp.uninstallFunc intNo handlerFn).run fuel s = some s' ∧
      RegistryRep s' ((HandlerOp.uninstallFunc intNo handlerFn).apply r) := by
  have hfind := h.find_handler handlerFn hallowed.2
  cases hfirst : (r.installed intNo).find? (·.handler = handlerFn) with
  | none =>
    rw [hfirst] at hfind
    refine ⟨s, ?_, ?_⟩
    · rw [HandlerOp.run, interruptsUninstallHandlerFunc, if_pos hallowed.1, hfind]
      rfl
    · have hsame : (HandlerOp.uninstallFunc intNo handlerFn).apply r = r := by
        have hnone : ∀ e ∈ r.installed intNo, ¬ decide (e.handler = handlerFn) = true :=
          List.find?_eq_none.mp hfirst
        refine Registry.ext ?_ ?_
        · change Function.update r.installed intNo _ = r.installed
          rw [List.eraseP_of_forall_not hnone, Function.update_eq_self]
        · change (((r.installed intNo).find? _).map Installed.node).toList ++ r.free = r.free
          rw [hfirst]
          rfl
      rwa [hsame]
  | some e =>
    rw [hfirst] at hfind
    obtain ⟨hfn, pre, post, hlist, hpre⟩ := List.find?_eq_some_iff_append.mp hfirst
    obtain ⟨s', hdelete, hrep, hnode⟩ := h.delete hlist hallowed.2
    refine ⟨interruptsHandlerFree s' e.node, ?_, ?_⟩
    · rw [HandlerOp.run, interruptsUninstallHandlerFunc, if_pos hallowed.1, hfind]
      change (deleteHandler fuel s intNo e.node).map _ = _
      rw [hdelete]
      rfl
    · have hsame : (HandlerOp.uninstallFunc intNo handlerFn).apply r =
          { installed := Function.update r.installed intNo (pre ++ post), free := e.node :: r.free } := by
        refine Registry.ext ?_ ?_
        · change Function.update r.installed intNo ((r.installed intNo).eraseP _) = _
          rw [hlist, List.eraseP_append_right _ (fun a ha => by simpa using hpre a ha),
            List.eraseP_cons_of_pos (p := fun a : Installed α φ δ => decide (a.handler = handlerFn)) hfn]
        · change (((r.installed intNo).find? _).map Installed.node).toList ++ r.free = _
          rw [hfirst]
          rfl
      rw [hsame]
      exact hrep.free hnode

/-- A call that is allowed succeeds and does to the lists what it should. -/
theorem RegistryRep.step [DecidableEq φ] (h : RegistryRep s r) {op : HandlerOp α φ δ}
    (hallowed : op.Allowed fuel r) :
    ∃ s', op.run fuel s = some s' ∧ RegistryRep s' (op.apply r) := by
  cases op with
  | install fresh intNo handlerFn data =>
    obtain ⟨s', hinstall, hrep⟩ := h.install hallowed
    exact ⟨s', congrArg (Option.map Prod.fst) hinstall, hrep⟩
  | uninstall handler => exact h.uninstall hallowed
  | uninstallFunc intNo handlerFn => exact h.uninstallFunc hallowed

end Steps

section Dispatch

variable {α φ δ ρ : Type} {s : InterruptHandlers α φ δ} {r : Registry α φ δ} {fuel : ℕ}

/-- Handlers are called in order until one takes the interrupt. -/
def dispatchInstalled (invoke : φ → Word → ρ → δ → ρ × Bool) (intNo : Word) :
    List (Installed α φ δ) → ρ → ρ × Bool
  | [], regs => (regs, false)
  | e :: rest, regs =>
    let result := invoke e.handler intNo regs e.data
    if result.2 then result else dispatchInstalled invoke intNo rest result.1

/-- The loop of `interrupts_dispatch` goes through a list of handlers. -/
theorem dispatchFrom_eq (invoke : φ → Word → ρ → δ → ρ × Bool) (intNo : Word) {head : Option α}
    {l : List (Installed α φ δ)} (hrep : LLRep s.next head (l.map Installed.node))
    (hfields : ∀ e ∈ l, s.handler e.node = e.handler ∧ s.data e.node = e.data)
    (hfuel : l.length < fuel) (regs : ρ) :
    dispatchFrom invoke s intNo fuel head regs = some (dispatchInstalled invoke intNo l regs) := by
  induction l generalizing head fuel regs with
  | nil =>
    obtain ⟨fuel, rfl⟩ := Nat.exists_eq_add_one.mpr (Nat.zero_lt_of_lt hfuel)
    obtain rfl : head = none := hrep
    rfl
  | cons e rest ih =>
    obtain ⟨fuel, rfl⟩ := Nat.exists_eq_add_one.mpr (Nat.zero_lt_of_lt hfuel)
    obtain ⟨rfl, hrest⟩ := hrep
    obtain ⟨he, hfields⟩ := List.forall_mem_cons.mp hfields
    rw [dispatchFrom, he.1, he.2, dispatchInstalled,
      ih hrest hfields (Nat.lt_of_succ_lt_succ hfuel)]
    split <;> rfl

/-- `interrupts_dispatch` goes through the handlers of its vector. -/
theorem RegistryRep.dispatch [DecidableEq α] (h : RegistryRep s r)
    (invoke : φ → Word → ρ → δ → ρ × Bool) {intNo : Word} (hintNo : intNo.toNat < maxInterrupts)
    (hfuel : (r.installed intNo).length < fuel) (regs : ρ) :
    interruptsDispatch invoke fuel s intNo regs =
      some (dispatchInstalled invoke intNo (r.installed intNo) regs) := by
  rw [interruptsDispatch, if_pos hintNo]
  exact dispatchFrom_eq invoke intNo (h.table.rep (.vector intNo))
    (fun e he => (h.fields intNo e he).2) hfuel regs

end Dispatch

section Runs

variable {α φ δ : Type} [DecidableEq α] [DecidableEq φ] {fuel : ℕ}

/-- Several calls. -/
def runHandlerOps (fuel : ℕ) : List (HandlerOp α φ δ) → InterruptHandlers α φ δ →
    Option (InterruptHandlers α φ δ)
  | [], s => some s
  | op :: ops, s => (op.run fuel s).bind (runHandlerOps fuel ops)

/-- Every call is allowed when it is made. -/
def AllowedOps (fuel : ℕ) : List (HandlerOp α φ δ) → Registry α φ δ → Prop
  | [], _ => True
  | op :: ops, r => op.Allowed fuel r ∧ AllowedOps fuel ops (op.apply r)

theorem RegistryRep.run {s : InterruptHandlers α φ δ} {r : Registry α φ δ} (h : RegistryRep s r)
    {ops : List (HandlerOp α φ δ)} (hallowed : AllowedOps fuel ops r) :
    ∃ s', runHandlerOps fuel ops s = some s' ∧
      RegistryRep s' (ops.foldl (fun r op => op.apply r) r) := by
  induction ops generalizing s r with
  | nil => exact ⟨s, rfl, h⟩
  | cons op ops ih =>
    obtain ⟨s₁, hop, h₁⟩ := h.step hallowed.1
    obtain ⟨s', hrun, hrep⟩ := ih h₁ hallowed.2
    refine ⟨s', ?_, hrep⟩
    rw [runHandlerOps, hop, Option.bind_some, hrun]

/-- **Interrupts reach their handlers.** After any calls of the functions that install and uninstall
handlers, an interrupt calls the handlers of its vector that are installed, the last one first, until one
takes it. -/
theorem interruptsDispatch_after_run (next : α → Option α) (intNo : α → Word) (handler : α → φ)
    (data : α → δ) {ops : List (HandlerOp α φ δ)} (hallowed : AllowedOps fuel ops Registry.empty) :
    ∃ s, runHandlerOps fuel ops ⟨fun _ => none, next, intNo, handler, data⟩ = some s ∧
      ∀ {ρ : Type} (invoke : φ → Word → ρ → δ → ρ × Bool) (v : Word) (regs : ρ),
        v.toNat < maxInterrupts →
        let installed := (ops.foldl (fun r op => op.apply r) Registry.empty).installed v
        installed.length < fuel →
        interruptsDispatch invoke fuel s v regs = some (dispatchInstalled invoke v installed regs) := by
  obtain ⟨s, hrun, hrep⟩ := (registryRep_empty next intNo handler data).run hallowed
  exact ⟨s, hrun, fun {_} invoke v regs hv hfuel => hrep.dispatch invoke hv hfuel regs⟩

/-- Two handlers of one vector, the second of which is uninstalled by its function; its node is used for
another vector. -/
def someHandlerOps : List (HandlerOp ℕ ℕ Unit) :=
  [.install 0 33 1 (), .install 1 33 2 (), .uninstallFunc 33 2, .install 2 34 3 ()]

theorem allowedOps_someHandlerOps : AllowedOps 3 someHandlerOps Registry.empty := by
  refine ⟨⟨by decide, fun _ list => ?_⟩, ⟨by decide, fun _ list => ?_⟩, ⟨by decide, by decide⟩,
    ⟨by decide, fun hfree => absurd hfree (by decide)⟩, trivial⟩
  · cases list <;> exact List.not_mem_nil
  · cases list with
    | free => exact List.not_mem_nil
    | vector v =>
      by_cases hv : v = 33#32
      · subst hv
        decide
      · simp [Registry.nodes, HandlerOp.apply, Registry.empty, hv]

/-- The first handler is the only one left for the vector. -/
theorem interruptsDispatch_after_run_some :
    ∃ s, runHandlerOps 3 someHandlerOps ⟨fun _ => none, fun _ => none, fun _ => 0, fun _ => 0, fun _ => ()⟩ =
        some s ∧
      interruptsDispatch (fun f _ (regs : List ℕ) _ => (f :: regs, f = 1)) 3 s 33 [] = some ([1], true) := by
  obtain ⟨s, hrun, hdispatch⟩ := interruptsDispatch_after_run (fun _ => none) (fun _ => 0)
    (fun _ => 0) (fun _ => ()) allowedOps_someHandlerOps
  exact ⟨s, hrun, hdispatch _ 33 [] (by decide) (by decide)⟩

end Runs

end ChrisOS.Ia32
