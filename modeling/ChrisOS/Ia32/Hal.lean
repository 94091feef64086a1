import ChrisOS.Ia32.Interrupts
import ChrisOS.Ia32.IrqRouting

/-!
# Interrupt lines and drivers

`ia32/hal_x86.c`: drivers share interrupt lines. The drivers of a line are on a linked list, and one
handler for all of them is installed with `interrupts_install_handler` when the first one comes. It asks
them one after the other, and wakes the thread of one that defers its work.

Other code installs handlers of its own beside those of the lines, and may do so for the vector of a
line: the system call's vector is that of line 72. The theorem at the end says what an interrupt does after
any such calls. Memory that `kmalloc` returns is not cleared, which the field for the thread of a driver
without one shows.
-/

namespace ChrisOS.Ia32

open ChrisOS.Utils ChrisOS.Lib

/-- `enum hal_fast_irq_handler_result`. -/
inductive HalFastIrqHandlerResult
  | handled
  | defer
  | pass
deriving DecidableEq

/-- The functions that are installed as interrupt handlers. -/
inductive InterruptFn (φ : Type)
  | halX86FastIrqHandler
  | other (f : φ)
deriving DecidableEq

/-- `struct hal_irq_handler` but for the next field. -/
structure HalIrqHandler (ψ σ θ δ : Type) where
  irq : Word
  interruptVector : Word
  fastHandler : ψ
  name : String
  slowHandler : Option σ
  thread : Option θ
  data : Option δ

/-- The interrupt handlers, the field `upstream_interrupt_handler` of each line, the lists
`_hal_irq_handlers` and the `struct hal_irq_handler`s. -/
structure Hal (α β φ ψ σ θ δ : Type) where
  interrupts : InterruptHandlers α (InterruptFn φ) (Option δ)
  upstream : Word → Option α
  head : Word → Option β
  next : β → Option β
  fields : β → HalIrqHandler ψ σ θ δ

/-- What the handler of a line calls: the drivers' functions, `thread_wake` and `kprintf`. -/
structure HalCalls (ψ θ δ ρ : Type) where
  fast : ψ → Word → ρ → Option δ → ρ × HalFastIrqHandlerResult
  threadWake : θ → ρ → ρ
  kprintf : String → ρ → ρ

section Functions

variable {α β φ ψ σ θ δ ρ : Type} [DecidableEq α] [DecidableEq β]

/-- `hal_x86_install_upstream_irq_handler`. -/
def halX86InstallUpstreamIrqHandler (fresh : Option α) (s : Hal α β φ ψ σ θ δ) (irq : Word) :
    Option (Hal α β φ ψ σ θ δ) :=
  halX86InitIrqLines[irq.toNat]?.bind fun vector =>
    if (s.upstream irq).isSome then some s
    else
      (interruptsInstallHandler fresh s.interrupts vector .halX86FastIrqHandler none).map
        fun (interrupts, handler) =>
          { s with interrupts, upstream := Function.update s.upstream irq (some handler) }

/-- `hal_x86_uninstall_upstream_irq_handler`. -/
def halX86UninstallUpstreamIrqHandler (fuel : ℕ) (s : Hal α β φ ψ σ θ δ) (irq : Word) :
    Option (Hal α β φ ψ σ θ δ) :=
  if irq.toNat < halMaxIrqs then
    (s.upstream irq).elim (some s) fun handler =>
      (interruptsUninstallHandler fuel s.interrupts handler).map fun interrupts =>
        { s with interrupts, upstream := Function.update s.upstream irq none }
  else none

/-- `hal_install_irq_handler`. `memory` is what `kmalloc` returns, with what the memory holds where the
field `thread` is, and `spawned` what `thread_spawn_kthread` returns. The function has no return
statement. -/
def halInstallIrqHandler (memory : Option (β × Option θ)) (spawned : Option θ) (fresh : Option α)
    (s : Hal α β φ ψ σ θ δ) (irq : Word) (fastHandler : ψ) (slowHandler : Option σ) (name : String)
    (data : Option δ) : Option (Hal α β φ ψ σ θ δ) :=
  halX86InitIrqLines[irq.toNat]?.bind fun intNo =>
    memory.bind fun (handler, left) =>
      let list := llPrepend s.next (s.head intNo) handler
      -- the field is written by `hal_x86_start_slow_handler_thread`, if that is called
      let thread := if slowHandler.isSome then spawned else left
      halX86InstallUpstreamIrqHandler fresh
        { s with
          head := Function.update s.head intNo list.2
          next := list.1
          fields := Function.update s.fields handler
            ⟨irq, intNo, fastHandler, name, slowHandler, thread, data⟩ } irq

/-- `hal_uninstall_irq_handler`, which frees nothing and leaves the handler of the line installed. -/
def halUninstallIrqHandler (fuel : ℕ) (s : Hal α β φ ψ σ θ δ) (handle : β) :
    Option (Hal α β φ ψ σ θ δ × Bool) :=
  halX86InitIrqLines[(s.fields handle).irq.toNat]?.bind fun intNo =>
    (llFind s.next (· = handle) fuel (s.head intNo)).bind fun cur =>
      cur.elim (some (s, false)) fun cur =>
        (llDelete s.next (s.head intNo) cur fuel).map fun list =>
          ({ s with next := list.1, head := Function.update s.head intNo list.2 }, true)

/-- The loop of `hal_x86_fast_irq_handler`: the last result, and the driver it stopped at. -/
def fastIrqFrom (calls : HalCalls ψ θ δ ρ) (s : Hal α β φ ψ σ θ δ) :
    ℕ → Option β → ρ → Option (ρ × HalFastIrqHandlerResult × Option β)
  | 0, _, _ => none
  | _ + 1, none, regs => some (regs, .pass, none)
  | fuel + 1, some handler, regs =>
    let fields := s.fields handler
    let result := calls.fast fields.fastHandler fields.irq regs fields.data
    if result.2 = .pass then fastIrqFrom calls s fuel (s.next handler) result.1
    else some (result.1, result.2, some handler)

/-- What is done for a driver that returned `IRQ_DEFER`. -/
def HalCalls.defer (calls : HalCalls ψ θ δ ρ) (handler : HalIrqHandler ψ σ θ δ) (regs : ρ) : ρ :=
  match handler.thread with
  | some thread => calls.threadWake thread regs
  | none => calls.kprintf
      ("driver " ++ handler.name ++ " return IRQ_DEFER but has no slow irq handler thread!\n") regs

/-- `hal_x86_fast_irq_handler`, whose `data` is not used. -/
def halX86FastIrqHandler (calls : HalCalls ψ θ δ ρ) (fuel : ℕ) (s : Hal α β φ ψ σ θ δ) (intNo : Word)
    (regs : ρ) : Option (ρ × Bool) :=
  if intNo.toNat < maxInterrupts then
    (fastIrqFrom calls s fuel (s.head intNo) regs).bind fun (regs, result, handler) =>
      match result with
      | .handled => some (regs, true)
      | .defer => handler.map fun handler => (calls.defer (s.fields handler) regs, true)
      | .pass => some (regs, false)
  else none

/-- A call of an interrupt handler; `none` is a fault, behind which nothing is called. -/
def invokeInterruptFn (calls : HalCalls ψ θ δ ρ) (other : φ → Word → ρ → Option δ → ρ × Bool) (fuel : ℕ)
    (s : Hal α β φ ψ σ θ δ) (f : InterruptFn φ) (intNo : Word) (regs : Option ρ) (data : Option δ) :
    Option ρ × Bool :=
  match f with
  | .halX86FastIrqHandler =>
    (regs.bind (halX86FastIrqHandler calls fuel s intNo)).elim (none, true) (Prod.map some id)
  | .other f => regs.elim (none, true) fun regs => Prod.map some id (other f intNo regs data)

end Functions

section Table

variable {α β φ ψ σ θ δ ρ : Type}

/-- The handlers of the vectors, the handler of each line, and the drivers of each vector, the last one
that came first. -/
structure HalTable (α β φ ψ σ θ δ : Type) where
  registry : Registry α (InterruptFn φ) (Option δ)
  upstream : Word → Option α
  drivers : Word → List (β × HalIrqHandler ψ σ θ δ)

/-- Nothing is installed. -/
def HalTable.empty : HalTable α β φ ψ σ θ δ := ⟨Registry.empty, fun _ => none, fun _ => []⟩

/-- Drivers are asked in order until one does not pass. -/
def askDrivers (calls : HalCalls ψ θ δ ρ) : List (β × HalIrqHandler ψ σ θ δ) → ρ → ρ × Bool
  | [], regs => (regs, false)
  | (_, handler) :: rest, regs =>
    let result := calls.fast handler.fastHandler handler.irq regs handler.data
    match result.2 with
    | .handled => (result.1, true)
    | .defer => (calls.defer handler result.1, true)
    | .pass => askDrivers calls rest result.1

/-- What each handler of a vector should do. -/
def HalTable.invoke (a : HalTable α β φ ψ σ θ δ) (calls : HalCalls ψ θ δ ρ)
    (other : φ → Word → ρ → Option δ → ρ × Bool) (f : InterruptFn φ) (intNo : Word) (regs : ρ)
    (data : Option δ) : ρ × Bool :=
  match f with
  | .halX86FastIrqHandler => askDrivers calls (a.drivers intNo) regs
  | .other f => other f intNo regs data

/-- Calls of the functions for lines, and of those for interrupt handlers by other code. -/
inductive HalOp (α β φ ψ σ θ δ : Type)
  | install (handler : β) (left spawned : Option θ) (fresh : α) (irq : Word) (fastHandler : ψ)
      (slowHandler : Option σ) (name : String) (data : Option δ)
  | uninstall (handle : β)
  | uninstallUpstream (irq : Word)
  | other (op : HandlerOp α (InterruptFn φ) (Option δ))

/-- Other code does not install the handler of the lines, nor uninstall it. -/
def HandlerOp.LeavesLines (upstream : Word → Option α) : HandlerOp α (InterruptFn φ) (Option δ) → Prop
  | .install _ _ handlerFn _ => handlerFn ≠ .halX86FastIrqHandler
  | .uninstall handler => ∀ irq, upstream irq ≠ some handler
  | .uninstallFunc _ handlerFn => handlerFn ≠ .halX86FastIrqHandler

/-- A driver's line exists and its memory is new; only installed drivers are uninstalled. The lists are
shorter than `fuel`. -/
def HalOp.Allowed (fuel : ℕ) (a : HalTable α β φ ψ σ θ δ) : HalOp α β φ ψ σ θ δ → Prop
  | .install handler _ _ fresh irq _ _ _ _ =>
    irq.toNat < halMaxIrqs ∧ (∀ v, handler ∉ (a.drivers v).map Prod.fst) ∧
      (a.upstream irq = none → a.registry.free = [] → ∀ list, fresh ∉ a.registry.nodes list)
  | .uninstall handle => ∃ v, handle ∈ (a.drivers v).map Prod.fst ∧ (a.drivers v).length < fuel
  | .uninstallUpstream irq =>
    irq.toNat < halMaxIrqs ∧ (a.registry.installed (irq + apicIrqBase)).length < fuel
  | .other op => op.Allowed fuel a.registry ∧ op.LeavesLines a.upstream

variable [DecidableEq α] [DecidableEq β] [DecidableEq φ]

/-- The first driver of a line brings its handler. -/
def HalTable.installUpstream (a : HalTable α β φ ψ σ θ δ) (fresh : α) (irq : Word) :
    HalTable α β φ ψ σ θ δ :=
  if (a.upstream irq).isSome then a
  else
    { a with
      registry := HandlerOp.apply a.registry
        (.install fresh (irq + apicIrqBase) .halX86FastIrqHandler none)
      upstream := Function.update a.upstream irq (some (a.registry.free.headD fresh)) }

/-- What a call does to the lists. -/
def HalOp.apply (a : HalTable α β φ ψ σ θ δ) : HalOp α β φ ψ σ θ δ → HalTable α β φ ψ σ θ δ
  | .install handler left spawned fresh irq fastHandler slowHandler name data =>
    let fields := ⟨irq, irq + apicIrqBase, fastHandler, name, slowHandler,
      if slowHandler.isSome then spawned else left, data⟩
    let drivers := Function.update a.drivers (irq + apicIrqBase)
      ((handler, fields) :: a.drivers (irq + apicIrqBase))
    HalTable.installUpstream { a with drivers } fresh irq
  | .uninstall handle => { a with drivers := fun v => (a.drivers v).filter (·.1 ≠ handle) }
  | .uninstallUpstream irq =>
    (a.upstream irq).elim a fun handler =>
      { a with
        registry := HandlerOp.apply a.registry (.uninstall handler)
        upstream := Function.update a.upstream irq none }
  | .other op => { a with registry := op.apply a.registry }

/-- The call itself. -/
def HalOp.run (fuel : ℕ) (s : Hal α β φ ψ σ θ δ) : HalOp α β φ ψ σ θ δ → Option (Hal α β φ ψ σ θ δ)
  | .install handler left spawned fresh irq fastHandler slowHandler name data =>
    halInstallIrqHandler (some (handler, left)) spawned (some fresh) s irq fastHandler slowHandler name
      data
  | .uninstall handle => (halUninstallIrqHandler fuel s handle).map Prod.fst
  | .uninstallUpstream irq => halX86UninstallUpstreamIrqHandler fuel s irq
  | .other op => (op.run fuel s.interrupts).map fun interrupts => { s with interrupts }

end Table

section Lines

variable {α β φ ψ σ θ δ : Type} {s : InterruptHandlers α (InterruptFn φ) (Option δ)}
  {r : Registry α (InterruptFn φ) (Option δ)} {upstream : Word → Option α}

/-- The handler of the lines is installed for exactly the vectors of the lines that have one, at the node
the line keeps. -/
structure LinesInstalled (r : Registry α (InterruptFn φ) (Option δ)) (upstream : Word → Option α) :
    Prop where
  entry : ∀ v, ∀ e ∈ r.installed v,
    (e.handler = .halX86FastIrqHandler ↔ upstream (v - apicIrqBase) = some e.node)
  node : ∀ {irq handler}, upstream irq = some handler →
    irq.toNat < halMaxIrqs ∧ handler ∈ (r.installed (irq + apicIrqBase)).map Installed.node

/-- At most one of the handlers of a vector asks its drivers. -/
theorem LinesInstalled.countP_eq [DecidableEq φ] (h : LinesInstalled r upstream) (hrep : RegistryRep s r)
    (v : Word) : (r.installed v).countP (·.handler = .halX86FastIrqHandler) =
      if (upstream (v - apicIrqBase)).isSome then 1 else 0 := by
  cases hline : upstream (v - apicIrqBase) with
  | none =>
    rw [Option.isSome_none, if_neg Bool.false_ne_true, List.countP_eq_zero]
    intro e he
    rw [decide_eq_true_eq, h.entry v e he, hline]
    exact Option.some_ne_none _ ∘ Eq.symm
  | some node =>
    obtain ⟨-, hmem⟩ := h.node hline
    rw [BitVec.sub_add_cancel] at hmem
    obtain ⟨e, he, rfl⟩ := List.mem_map.mp hmem
    obtain ⟨pre, post, hlist⟩ := List.append_of_mem he
    have hnodup := (hrep.table.rep (.vector v)).nodup
    rw [Registry.nodes, hlist, List.map_append, List.map_cons, List.nodup_middle, ← List.map_append,
      List.nodup_cons] at hnodup
    -- the other entries are at other nodes
    have hothers : (pre ++ post).countP (·.handler = .halX86FastIrqHandler) = 0 := by
      rw [List.countP_eq_zero]
      intro e' he'
      have hmem' : e' ∈ r.installed v := by
        rw [hlist]
        simp only [List.mem_append, List.mem_cons] at he' ⊢
        tauto
      rw [decide_eq_true_eq, h.entry v e' hmem', hline, Option.some.injEq]
      intro heq
      exact hnodup.1 (heq ▸ List.mem_map_of_mem he')
    rw [List.countP_append] at hothers
    rw [Option.isSome_some, if_pos rfl, hlist, List.countP_append,
      List.countP_cons_of_pos (by rw [decide_eq_true_eq, h.entry v e he, hline])]
    omega

variable [DecidableEq α] [DecidableEq φ] {irq : Word}

/-- A new entry is at a node that none of the lines keeps. -/
theorem LinesInstalled.ne_of_install (h : LinesInstalled r upstream) {fresh : α} {v : Word}
    {handlerFn : InterruptFn φ} {data : Option δ}
    (hrep : RegistryRep s (HandlerOp.apply r (.install fresh v handlerFn data))) {node : α}
    (hline : upstream irq = some node) : node ≠ r.free.headD fresh := by
  rintro rfl
  obtain ⟨-, hmem⟩ := h.node hline
  have hnew : r.free.headD fresh ∈
      (HandlerOp.apply r (.install fresh v handlerFn data)).nodes (.vector v) := by
    change _ ∈ (Function.update r.installed v _ v).map Installed.node
    rw [Function.update_self]
    exact List.mem_cons_self
  by_cases hv : irq + apicIrqBase = v
  · -- twice on one list
    have hnodup := (hrep.table.rep (.vector v)).nodup
    change ((Function.update r.installed v _ v).map Installed.node).Nodup at hnodup
    rw [Function.update_self, List.map_cons, List.nodup_cons] at hnodup
    exact hnodup.1 (hv ▸ hmem)
  · -- on two lists
    apply hv
    apply HandlerList.vector.inj
    refine hrep.table.disjoint ?_ hnew
    change _ ∈ (Function.update r.installed v _ (irq + apicIrqBase)).map Installed.node
    rwa [Function.update_of_ne hv]

/-- A line gets its handler. -/
theorem LinesInstalled.install (h : LinesInstalled r upstream) {fresh : α}
    (hirq : irq.toNat < halMaxIrqs) (hnone : upstream irq = none)
    (hrep : RegistryRep s
      (HandlerOp.apply r (.install fresh (irq + apicIrqBase) .halX86FastIrqHandler none))) :
    LinesInstalled (HandlerOp.apply r (.install fresh (irq + apicIrqBase) .halX86FastIrqHandler none))
      (Function.update upstream irq (some (r.free.headD fresh))) where
  entry v e he := by
    change e ∈ Function.update r.installed (irq + apicIrqBase) _ v at he
    by_cases hv : v = irq + apicIrqBase
    · subst hv
      have hnodup := (hrep.table.rep (.vector (irq + apicIrqBase))).nodup
      change ((Function.update r.installed (irq + apicIrqBase) _ (irq + apicIrqBase)).map
        Installed.node).Nodup at hnodup
      rw [Function.update_self, List.map_cons, List.nodup_cons] at hnodup
      rw [Function.update_self] at he
      rw [BitVec.add_sub_cancel, Function.update_self, Option.some.injEq]
      rcases List.mem_cons.mp he with rfl | he
      · simp
      · have hother := h.entry _ e he
        rw [BitVec.add_sub_cancel, hnone] at hother
        constructor
        · intro hhandler
          exact absurd (hother.mp hhandler) (Option.some_ne_none _).symm
        · intro hnode
          exact absurd (List.mem_map_of_mem he) (hnode ▸ hnodup.1)
    · rw [Function.update_of_ne hv] at he
      have hline : v - apicIrqBase ≠ irq := by
        rintro rfl
        exact hv (BitVec.sub_add_cancel v apicIrqBase).symm
      rw [Function.update_of_ne hline]
      exact h.entry v e he
  node {irq' handler} hline := by
    change irq'.toNat < halMaxIrqs ∧
      handler ∈ (Function.update r.installed (irq + apicIrqBase) _ (irq' + apicIrqBase)).map Installed.node
    by_cases heq : irq' = irq
    · subst heq
      rw [Function.update_self, Option.some.injEq] at hline
      rw [Function.update_self]
      exact ⟨hirq, hline ▸ List.mem_cons_self⟩
    · have hv : irq' + apicIrqBase ≠ irq + apicIrqBase := fun hv => heq ((BitVec.add_left_inj _).mp hv)
      rw [Function.update_of_ne heq] at hline
      rw [Function.update_of_ne hv]
      exact h.node hline

/-- A line loses its handler. -/
theorem LinesInstalled.uninstall (h : LinesInstalled r upstream) (hrep : RegistryRep s r) {handler : α}
    (hline : upstream irq = some handler) :
    LinesInstalled (HandlerOp.apply r (.uninstall handler)) (Function.update upstream irq none) where
  entry v e he := by
    obtain ⟨he, hne⟩ := List.mem_filter.mp he
    rw [decide_eq_true_eq] at hne
    rw [h.entry v e he]
    by_cases hv : v - apicIrqBase = irq
    · rw [hv, Function.update_self, hline, Option.some.injEq]
      exact ⟨fun heq => absurd heq.symm hne, fun hnone => absurd hnone (Option.some_ne_none _).symm⟩
    · rw [Function.update_of_ne hv]
  node {irq' handler'} hline' := by
    have hirq : irq' ≠ irq := by
      rintro rfl
      rw [Function.update_self] at hline'
      exact Option.some_ne_none _ hline'.symm
    rw [Function.update_of_ne hirq] at hline'
    obtain ⟨hvalid, hmem⟩ := h.node hline'
    refine ⟨hvalid, ?_⟩
    -- the other lines keep other nodes, as no node is on two lists
    have hne : handler' ≠ handler := by
      rintro rfl
      apply hirq
      have hsame := hrep.table.disjoint (i := .vector _) (j := .vector _) hmem (h.node hline).2
      exact (BitVec.add_left_inj _).mp (HandlerList.vector.inj hsame)
    obtain ⟨e, he, rfl⟩ := List.mem_map.mp hmem
    apply List.mem_map_of_mem
    exact List.mem_filter.mpr ⟨he, by rwa [decide_eq_true_eq]⟩

/-- What other code does leaves the lines their handlers. -/
theorem LinesInstalled.other (h : LinesInstalled r upstream)
    {op : HandlerOp α (InterruptFn φ) (Option δ)} (hop : op.LeavesLines upstream)
    (hrep : RegistryRep s (op.apply r)) : LinesInstalled (op.apply r) upstream := by
  cases op with
  | install fresh v handlerFn data =>
    refine ⟨fun w e he => ?_, fun {irq handler} hline => ⟨(h.node hline).1, ?_⟩⟩
    · change e ∈ Function.update r.installed v _ w at he
      by_cases hw : w = v
      · subst hw
        rw [Function.update_self] at he
        rcases List.mem_cons.mp he with rfl | he
        · constructor
          · intro hhandler
            exact absurd hhandler hop
          · intro hline
            exact absurd rfl (h.ne_of_install hrep hline)
        · exact h.entry w e he
      · rw [Function.update_of_ne hw] at he
        exact h.entry w e he
    · change handler ∈ (Function.update r.installed v _ (irq + apicIrqBase)).map Installed.node
      by_cases hv : irq + apicIrqBase = v
      · subst hv
        rw [Function.update_self]
        exact List.mem_cons_of_mem _ (h.node hline).2
      · rw [Function.update_of_ne hv]
        exact (h.node hline).2
  | uninstall node =>
    refine ⟨fun w e he => h.entry w e (List.mem_of_mem_filter he), fun {irq handler} hline =>
      ⟨(h.node hline).1, ?_⟩⟩
    obtain ⟨e, he, rfl⟩ := List.mem_map.mp (h.node hline).2
    apply List.mem_map_of_mem
    refine List.mem_filter.mpr ⟨he, ?_⟩
    rw [decide_eq_true_eq]
    rintro rfl
    exact hop irq hline
  | uninstallFunc v handlerFn =>
    refine ⟨fun w e he => ?_, fun {irq handler} hline => ⟨(h.node hline).1, ?_⟩⟩
    · change e ∈ Function.update r.installed v _ w at he
      by_cases hw : w = v
      · subst hw
        rw [Function.update_self] at he
        exact h.entry w e (List.mem_of_mem_eraseP he)
      · rw [Function.update_of_ne hw] at he
        exact h.entry w e he
    · change handler ∈ (Function.update r.installed v _ (irq + apicIrqBase)).map Installed.node
      by_cases hv : irq + apicIrqBase = v
      · subst hv
        rw [Function.update_self]
        obtain ⟨e, he, rfl⟩ := List.mem_map.mp (h.node hline).2
        apply List.mem_map_of_mem
        refine (List.mem_eraseP_of_neg ?_).mpr he
        rw [decide_eq_true_eq]
        rintro rfl
        apply hop
        rw [h.entry _ e he, BitVec.add_sub_cancel]
        exact hline
      · rw [Function.update_of_ne hv]
        exact (h.node hline).2

end Lines

section Steps

variable {α β φ ψ σ θ δ ρ : Type} {s : Hal α β φ ψ σ θ δ} {a : HalTable α β φ ψ σ θ δ} {fuel : ℕ}

/-- The pointers and fields represent the table. -/
structure HalRep (s : Hal α β φ ψ σ θ δ) (a : HalTable α β φ ψ σ θ δ) : Prop where
  registry : RegistryRep s.interrupts a.registry
  lines : LinesInstalled a.registry a.upstream
  upstream : s.upstream = a.upstream
  table : TableRep s.next s.head fun v => (a.drivers v).map Prod.fst
  fields : ∀ v, ∀ d ∈ a.drivers v,
    s.fields d.1 = d.2 ∧ d.2.irq.toNat < halMaxIrqs ∧ d.2.irq + apicIrqBase = v

/-- At the start, nothing is installed. -/
theorem halRep_empty (interrupts : InterruptHandlers α (InterruptFn φ) (Option δ))
    (next : β → Option β) (fields : β → HalIrqHandler ψ σ θ δ) :
    HalRep ⟨{ interrupts with head := fun _ => none }, fun _ => none, fun _ => none, next, fields⟩
      (HalTable.empty : HalTable α β φ ψ σ θ δ) where
  registry := registryRep_empty _ _ _ _
  lines := ⟨fun _ _ he => absurd he List.not_mem_nil, fun hline => absurd hline (Option.some_ne_none _).symm⟩
  upstream := rfl
  table := TableRep.nil next
  fields _ _ hd := absurd hd List.not_mem_nil

variable {irq : Word}

theorem halVector_lt (hirq : irq.toNat < halMaxIrqs) : (irq + apicIrqBase).toNat < maxInterrupts := by
  unfold halMaxIrqs at hirq
  unfold apicIrqBase maxInterrupts
  bv_omega

variable [DecidableEq α] [DecidableEq φ]

/-- `hal_x86_install_upstream_irq_handler`. -/
theorem HalRep.installUpstream (h : HalRep s a) {fresh : α} (hirq : irq.toNat < halMaxIrqs)
    (hfresh : a.upstream irq = none → a.registry.free = [] → ∀ list, fresh ∉ a.registry.nodes list) :
    ∃ s', halX86InstallUpstreamIrqHandler (some fresh) s irq = some s' ∧
      HalRep s' (a.installUpstream fresh irq) := by
  rw [halX86InstallUpstreamIrqHandler, halX86InitIrqLines_getElem hirq, Option.bind_some, h.upstream,
    HalTable.installUpstream]
  cases hline : a.upstream irq with
  | some handler => exact ⟨s, rfl, h⟩
  | none =>
    obtain ⟨interrupts, hinstall, hrep⟩ := h.registry.install
      (show (HandlerOp.install fresh (irq + apicIrqBase) .halX86FastIrqHandler none).Allowed 0 a.registry
        from ⟨halVector_lt hirq, hfresh hline⟩)
    let upstream := Function.update a.upstream irq (some (a.registry.free.headD fresh))
    refine ⟨{ s with interrupts, upstream }, ?_,
      ⟨hrep, h.lines.install hirq hline hrep, rfl, h.table, h.fields⟩⟩
    rw [hinstall]
    rfl

variable [DecidableEq β]

/-- `hal_install_irq_handler`. -/
theorem HalRep.install (h : HalRep s a) {handler : β} {left spawned : Option θ} {fresh : α}
    {fastHandler : ψ} {slowHandler : Option σ} {name : String} {data : Option δ}
    (hallowed : (HalOp.install handler left spawned fresh irq fastHandler slowHandler name data).Allowed
      fuel a) :
    ∃ s', halInstallIrqHandler (some (handler, left)) spawned (some fresh) s irq fastHandler slowHandler
        name data = some s' ∧
      HalRep s' (HalOp.apply a
        (.install handler left spawned fresh irq fastHandler slowHandler name data)) := by
  obtain ⟨hirq, hhandler, hfresh⟩ := hallowed
  let v := irq + apicIrqBase
  let d : β × HalIrqHandler ψ σ θ δ := (handler, ⟨irq, v, fastHandler, name, slowHandler,
    if slowHandler.isSome then spawned else left, data⟩)
  let list := llPrepend s.next (s.head v) handler
  have hdriver : HalRep
      { s with
        head := Function.update s.head v list.2
        next := list.1
        fields := Function.update s.fields handler d.2 }
      { a with drivers := Function.update a.drivers v (d :: a.drivers v) } := by
    refine ⟨h.registry, h.lines, h.upstream, ?_, fun w d' hd' => ?_⟩
    · change TableRep list.1 (Function.update s.head v list.2)
        (List.map Prod.fst ∘ Function.update a.drivers v (d :: a.drivers v))
      rw [Function.comp_update]
      exact h.table.prepend hhandler v
    · -- the fields of the other drivers are left alone
      have hold : d' ∈ a.drivers w → Function.update s.fields handler d.2 d'.1 = d'.2 ∧
          d'.2.irq.toNat < halMaxIrqs ∧ d'.2.irq + apicIrqBase = w := by
        intro hmem
        have hne : d'.1 ≠ handler := by
          rintro rfl
          exact hhandler w (List.mem_map_of_mem hmem)
        rw [Function.update_of_ne hne]
        exact h.fields w d' hmem
      change d' ∈ Function.update a.drivers v (d :: a.drivers v) w at hd'
      by_cases hw : w = v
      · subst hw
        rw [Function.update_self] at hd'
        rcases List.mem_cons.mp hd' with rfl | hd'
        · exact ⟨Function.update_self _ _ _, hirq, rfl⟩
        · exact hold hd'
      · rw [Function.update_of_ne hw] at hd'
        exact hold hd'
  rw [halInstallIrqHandler, halX86InitIrqLines_getElem hirq, Option.bind_some, Option.bind_some]
  exact hdriver.installUpstream hirq hfresh

/-- `hal_uninstall_irq_handler` finds the driver. -/
theorem HalRep.uninstall (h : HalRep s a) {handle : β}
    (hallowed : (HalOp.uninstall handle : HalOp α β φ ψ σ θ δ).Allowed fuel a) :
    ∃ s', halUninstallIrqHandler fuel s handle = some (s', true) ∧
      HalRep s' (HalOp.apply a (.uninstall handle)) := by
  obtain ⟨v, hmem, hfuel⟩ := hallowed
  obtain ⟨d, hd, rfl⟩ := List.mem_map.mp hmem
  obtain ⟨hfields, hirq, hv⟩ := h.fields v d hd
  obtain ⟨pre, post, hlist⟩ := List.append_of_mem hd
  have hnodes : (a.drivers v).map Prod.fst = pre.map Prod.fst ++ d.1 :: post.map Prod.fst := by
    rw [hlist, List.map_append, List.map_cons]
  have hfind : llFind s.next (· = d.1) fuel (s.head v) = some (some d.1) := by
    rw [llFind_eq (h.table.rep v) _ (by rwa [List.length_map]), Option.some.injEq, List.find?_eq_some_iff_append]
    have hnodup := (h.table.rep v).nodup
    rw [hnodes, List.nodup_middle, List.nodup_cons, List.mem_append, not_or] at hnodup
    refine ⟨by simp, _, _, hnodes, fun b hb => ?_⟩
    rw [Bool.not_eq_true', decide_eq_false_iff_not]
    rintro rfl
    exact hnodup.1.1 hb
  have hpre : (pre.map Prod.fst).length ≤ fuel := by
    rw [hlist, List.length_append] at hfuel
    rw [List.length_map]
    omega
  obtain ⟨next', head', hdelete, htable⟩ := h.table.delete hnodes hpre
  have hmap : (fun w => (Function.update a.drivers v (pre ++ post) w).map Prod.fst) =
      Function.update (fun w => (a.drivers w).map Prod.fst) v (pre.map Prod.fst ++ post.map Prod.fst) := by
    rw [← List.map_append]
    exact Function.comp_update (List.map Prod.fst) a.drivers v (pre ++ post)
  have hfilter := filter_node_eq_update hlist fun w =>
    (congrFun hmap w).symm ▸ h.table.notMem_update hnodes w
  refine ⟨{ s with next := next', head := Function.update s.head v head' }, ?_, ?_⟩
  · rw [halUninstallIrqHandler, hfields, halX86InitIrqLines_getElem hirq, Option.bind_some, hv, hfind,
      Option.bind_some, Option.elim_some, hdelete]
    rfl
  · refine ⟨h.registry, h.lines, h.upstream, ?_, fun w d' hd' =>
      h.fields w d' (List.mem_of_mem_filter hd')⟩
    rw [← hmap, ← hfilter] at htable
    exact htable

/-- `hal_x86_uninstall_upstream_irq_handler`. -/
theorem HalRep.uninstallUpstream (h : HalRep s a)
    (hallowed : (HalOp.uninstallUpstream irq : HalOp α β φ ψ σ θ δ).Allowed fuel a) :
    ∃ s', halX86UninstallUpstreamIrqHandler fuel s irq = some s' ∧
      HalRep s' (HalOp.apply a (.uninstallUpstream irq)) := by
  rw [halX86UninstallUpstreamIrqHandler, if_pos hallowed.1, h.upstream, HalOp.apply]
  cases hline : a.upstream irq with
  | none => exact ⟨s, rfl, h⟩
  | some handler =>
    obtain ⟨interrupts, huninstall, hrep⟩ := h.registry.uninstall
      (show (HandlerOp.uninstall handler).Allowed fuel a.registry
        from ⟨_, (h.lines.node hline).2, hallowed.2⟩)
    refine ⟨{ s with interrupts, upstream := Function.update a.upstream irq none }, ?_,
      ⟨hrep, h.lines.uninstall h.registry hline, rfl, h.table, h.fields⟩⟩
    rw [HandlerOp.run] at huninstall
    rw [Option.elim_some, huninstall]
    rfl

/-- A call that is allowed succeeds and does to the lists what it should. -/
theorem HalRep.step (h : HalRep s a) {op : HalOp α β φ ψ σ θ δ} (hallowed : op.Allowed fuel a) :
    ∃ s', op.run fuel s = some s' ∧ HalRep s' (op.apply a) := by
  cases op with
  | install handler left spawned fresh irq fastHandler slowHandler name data => exact h.install hallowed
  | uninstall handle =>
    obtain ⟨s', huninstall, hrep⟩ := h.uninstall hallowed
    exact ⟨s', congrArg (Option.map Prod.fst) huninstall, hrep⟩
  | uninstallUpstream irq => exact h.uninstallUpstream hallowed
  | other op =>
    obtain ⟨interrupts, hrun, hrep⟩ := h.registry.step hallowed.1
    exact ⟨{ s with interrupts }, congrArg (Option.map _) hrun,
      ⟨hrep, h.lines.other hallowed.2 hrep, h.upstream, h.table, h.fields⟩⟩

end Steps

section Dispatch

variable {α β φ ψ σ θ δ ρ : Type} {s : Hal α β φ ψ σ θ δ} {a : HalTable α β φ ψ σ θ δ} {fuel : ℕ}

/-- The loop of `hal_x86_fast_irq_handler` and what is done behind it. -/
theorem fastIrqFrom_eq (calls : HalCalls ψ θ δ ρ) {head : Option β}
    {l : List (β × HalIrqHandler ψ σ θ δ)} (hrep : LLRep s.next head (l.map Prod.fst))
    (hfields : ∀ d ∈ l, s.fields d.1 = d.2) (hfuel : l.length < fuel) (regs : ρ) :
    ((fastIrqFrom calls s fuel head regs).bind fun (regs, result, handler) =>
      match result with
      | .handled => some (regs, true)
      | .defer => handler.map fun handler => (calls.defer (s.fields handler) regs, true)
      | .pass => some (regs, false)) = some (askDrivers calls l regs) := by
  induction l generalizing head fuel regs with
  | nil =>
    obtain ⟨fuel, rfl⟩ := Nat.exists_eq_add_one.mpr (Nat.zero_lt_of_lt hfuel)
    obtain rfl : head = none := hrep
    rfl
  | cons d rest ih =>
    obtain ⟨fuel, rfl⟩ := Nat.exists_eq_add_one.mpr (Nat.zero_lt_of_lt hfuel)
    obtain ⟨rfl, hrest⟩ := hrep
    obtain ⟨hd, hfields⟩ := List.forall_mem_cons.mp hfields
    have hnext := ih hrest hfields (Nat.lt_of_succ_lt_succ hfuel)
    rw [fastIrqFrom, hd, askDrivers]
    cases hresult : (calls.fast d.2.fastHandler d.2.irq regs d.2.data).2 with
    | handled => simp
    | defer => simp [hd]
    | pass => simpa [hresult] using hnext _

variable {v : Word}

/-- `hal_x86_fast_irq_handler` asks the drivers of its vector. -/
theorem HalRep.fastIrqHandler (h : HalRep s a) (calls : HalCalls ψ θ δ ρ) (hv : v.toNat < maxInterrupts)
    (hfuel : (a.drivers v).length < fuel) (regs : ρ) :
    halX86FastIrqHandler calls fuel s v regs = some (askDrivers calls (a.drivers v) regs) := by
  rw [halX86FastIrqHandler, if_pos hv]
  exact fastIrqFrom_eq calls (h.table.rep v) (fun d hd => (h.fields v d hd).1) hfuel regs

/-- Handlers that do not fault do not fault one after the other. -/
theorem dispatchInstalled_some {invoke : φ → Word → ρ → δ → ρ × Bool}
    {invoke' : φ → Word → Option ρ → δ → Option ρ × Bool}
    (hinvoke : ∀ f regs data, invoke' f v (some regs) data = Prod.map some id (invoke f v regs data))
    (l : List (Installed α φ δ)) (regs : ρ) :
    dispatchInstalled invoke' v l (some regs) = Prod.map some id (dispatchInstalled invoke v l regs) := by
  induction l generalizing regs with
  | nil => rfl
  | cons e rest ih =>
    rw [dispatchInstalled, dispatchInstalled, hinvoke]
    cases hresult : (invoke e.handler v regs e.data).2 with
    | false => simp [hresult, ih]
    | true => simp [hresult]

/-- An interrupt goes through the handlers of its vector, and that of a line asks the drivers. -/
theorem HalRep.dispatch [DecidableEq α] (h : HalRep s a) (calls : HalCalls ψ θ δ ρ)
    (other : φ → Word → ρ → Option δ → ρ × Bool) (hv : v.toNat < maxInterrupts)
    (hinstalled : (a.registry.installed v).length < fuel) (hdrivers : (a.drivers v).length < fuel)
    (regs : ρ) :
    interruptsDispatch (invokeInterruptFn calls other fuel s) fuel s.interrupts v (some regs) =
      some (Prod.map some id
        (dispatchInstalled (a.invoke calls other) v (a.registry.installed v) regs)) := by
  rw [h.registry.dispatch _ hv hinstalled, Option.some.injEq]
  apply dispatchInstalled_some
  intro f regs data
  cases f with
  | halX86FastIrqHandler =>
    rw [invokeInterruptFn, Option.bind_some, h.fastIrqHandler calls hv hdrivers]
    rfl
  | other f => rfl

end Dispatch

section Runs

variable {α β φ ψ σ θ δ : Type} [DecidableEq α] [DecidableEq β] [DecidableEq φ] {fuel : ℕ}

/-- Several calls. -/
def runHalOps (fuel : ℕ) : List (HalOp α β φ ψ σ θ δ) → Hal α β φ ψ σ θ δ →
    Option (Hal α β φ ψ σ θ δ)
  | [], s => some s
  | op :: ops, s => (op.run fuel s).bind (runHalOps fuel ops)

/-- Every call is allowed when it is made. -/
def AllowedHalOps (fuel : ℕ) : List (HalOp α β φ ψ σ θ δ) → HalTable α β φ ψ σ θ δ → Prop
  | [], _ => True
  | op :: ops, a => op.Allowed fuel a ∧ AllowedHalOps fuel ops (op.apply a)

theorem HalRep.run {s : Hal α β φ ψ σ θ δ} {a : HalTable α β φ ψ σ θ δ} (h : HalRep s a)
    {ops : List (HalOp α β φ ψ σ θ δ)} (hallowed : AllowedHalOps fuel ops a) :
    ∃ s', runHalOps fuel ops s = some s' ∧ HalRep s' (ops.foldl (fun a op => op.apply a) a) := by
  induction ops generalizing s a with
  | nil => exact ⟨s, rfl, h⟩
  | cons op ops ih =>
    obtain ⟨s₁, hop, h₁⟩ := h.step hallowed.1
    obtain ⟨s', hrun, hrep⟩ := ih h₁ hallowed.2
    refine ⟨s', ?_, hrep⟩
    rw [runHalOps, hop, Option.bind_some, hrun]

/-- **Interrupts reach their drivers.** After any calls that install and uninstall drivers, the handlers of
their lines and other handlers, an interrupt goes through the handlers of its vector, and that of a line
asks the line's drivers, the last one first, until one does not pass. The handler of a line is there once if
the line has one, so that no driver is asked twice. -/
theorem halDispatch_after_run (interrupts : InterruptHandlers α (InterruptFn φ) (Option δ))
    (next : β → Option β) (fields : β → HalIrqHandler ψ σ θ δ) {ops : List (HalOp α β φ ψ σ θ δ)}
    (hallowed : AllowedHalOps fuel ops HalTable.empty) :
    let a := ops.foldl (fun a op => op.apply a) HalTable.empty
    ∃ s, runHalOps fuel ops
        ⟨{ interrupts with head := fun _ => none }, fun _ => none, fun _ => none, next, fields⟩ = some s ∧
      ∀ v : Word, v.toNat < maxInterrupts →
        (a.registry.installed v).countP (·.handler = .halX86FastIrqHandler) =
          (if (a.upstream (v - apicIrqBase)).isSome then 1 else 0) ∧
        ∀ {ρ : Type} (calls : HalCalls ψ θ δ ρ) (other : φ → Word → ρ → Option δ → ρ × Bool) (regs : ρ),
          (a.registry.installed v).length < fuel → (a.drivers v).length < fuel →
          interruptsDispatch (invokeInterruptFn calls other fuel s) fuel s.interrupts v (some regs) =
            some (Prod.map some id
              (dispatchInstalled (a.invoke calls other) v (a.registry.installed v) regs)) := by
  intro a
  obtain ⟨s, hrun, hrep⟩ := (halRep_empty interrupts next fields).run hallowed
  refine ⟨s, hrun, fun v hv => ⟨hrep.lines.countP_eq hrep.registry v, ?_⟩⟩
  intro ρ calls other regs hinstalled hdrivers
  exact hrep.dispatch calls other hv hinstalled hdrivers regs

/-- The handler of system calls, and two drivers of line 72, which has the same vector. -/
def someHalOps : List (HalOp ℕ ℕ String ℕ Unit ℕ Unit) :=
  [.other (.install 0 0x80 (.other "syscalls_handler") none),
   .install 0 none (some 7) 1 72 10 (some ()) "with thread" none,
   .install 1 (some 99) none 2 72 11 none "without thread" none]

theorem allowedHalOps_someHalOps : AllowedHalOps 3 someHalOps HalTable.empty := by
  refine ⟨⟨⟨by decide, fun _ list => ?_⟩, nofun⟩, ⟨by decide, fun _ => List.not_mem_nil,
    fun _ _ list => ?_⟩, ⟨by decide, fun v => ?_, fun hnone => absurd hnone (by decide)⟩, trivial⟩
  · cases list <;> exact List.not_mem_nil
  · cases list with
    | free => exact List.not_mem_nil
    | vector v =>
      by_cases hv : v = 0x80#32
      · subst hv
        decide
      · simp [Registry.nodes, HalOp.apply, HandlerOp.apply, HalTable.empty, Registry.empty, hv]
  · by_cases hv : v = 0x80#32
    · subst hv
      decide
    · simp [HalOp.apply, HalTable.installUpstream, HalTable.empty, apicIrqBase, hv]

/-- The driver with the function 10 defers its work, the others pass. -/
def someHalCalls : HalCalls ℕ ℕ Unit (List ℕ) where
  fast f _ regs _ := (f :: regs, if f = 10 then .defer else .pass)
  threadWake thread regs := (1000 + thread) :: regs
  kprintf _ regs := regs

/-- The second driver passes, the first one defers, and the handler of system calls is not called. -/
theorem halDispatch_after_run_line72 :
    ∃ s, runHalOps 3 someHalOps ⟨⟨fun _ => none, fun _ => none, fun _ => 0, fun _ => .halX86FastIrqHandler,
        fun _ => none⟩, fun _ => none, fun _ => none, fun _ => none,
        fun _ => ⟨0, 0, 0, "", none, none, none⟩⟩ = some s ∧
      interruptsDispatch (invokeInterruptFn someHalCalls (fun _ _ regs _ => (regs, true)) 3 s) 3
        s.interrupts 0x80 (some []) = some (some [1007, 10, 11], true) := by
  obtain ⟨s, hrun, hdispatch⟩ := halDispatch_after_run
    ⟨fun _ => none, fun _ => none, fun _ => 0, fun _ => .halX86FastIrqHandler, fun _ => none⟩
    (fun _ => none) (fun _ => ⟨0, 0, 0, "", none, none, none⟩) allowedHalOps_someHalOps
  exact ⟨s, hrun, (hdispatch 0x80 (by decide)).2 someHalCalls _ [] (by decide) (by decide)⟩

end Runs

end ChrisOS.Ia32
