import ChrisOS.Kern.Mutex
import ChrisOS.Sys.Param

/-!
# Spinlocks that nest

`kern/spinlock.c` with the flags register. A thread that holds a lock may acquire it again, and the
lock counts how often. Acquiring disables interrupts and returns the flags from before, releasing
restores the flags it is given.

The compare-and-swap of the loop in `spinlock_acquire` returns what it found, so on a free lock the
first one stores the owner and goes around once more. The loop is given a number of iterations it
may take; `none` is a failed assertion or a loop that does not end in that number.
-/

namespace ChrisOS.Kern

open ChrisOS.Utils ChrisOS.Sys

/-- `struct spinlock`. -/
structure Spinlock where
  owner : Word
  nested : Word
deriving DecidableEq, Repr

/-- `spinlock_init`. -/
def spinlockInit : Spinlock := ⟨0, 0⟩

/-- `flags_if_bit`. -/
def flagsIfBit : Nat := 9

/-- `flags_register_is_set`, for the value of the register. -/
def flagsRegisterIsSet (eflags : Word) (bit : Nat) : Bool := isset eflags bit

/-- `interrupts_enter_cli`: the flags it returns and the register after it. -/
def interruptsEnterCli (eflags : Word) : Word × Word :=
  (eflags, withbit eflags flagsIfBit 0)

/-- `interrupts_leave_cli`: the register after it. -/
def interruptsLeaveCli (flags : Word) : Word := flags

/-- The flags register and the locks. -/
structure SpinlockCpu (κ : Type*) where
  eflags : Word
  lock : κ → Spinlock

/-- The loop of `spinlock_acquire`: the owner it leaves. -/
def spinlockSpin (me : Word) : ℕ → Word → Option Word
  | 0, _ => none
  | fuel + 1, owner =>
    let result := syncValCompareAndSwap owner 0 me
    if result.1 ≠ me then spinlockSpin me fuel result.2 else some result.2

section Functions

variable {κ : Type*} [DecidableEq κ]

/-- `spinlock_acquire` by the thread with identifier `me`: the flags it returns and the state. -/
def spinlockAcquire (fuel : ℕ) (me : Word) (s : SpinlockCpu κ) (l : κ) :
    Option (Word × SpinlockCpu κ) :=
  let (flags, eflags) := interruptsEnterCli s.eflags
  if me = 0 then none
  else (spinlockSpin me fuel (s.lock l).owner).map fun owner =>
    (flags, ⟨eflags, Function.update s.lock l ⟨owner, (s.lock l).nested + 1⟩⟩)

/-- `spinlock_release`. -/
def spinlockRelease (s : SpinlockCpu κ) (l : κ) (flags : Word) : Option (SpinlockCpu κ) :=
  if flagsRegisterIsSet s.eflags flagsIfBit then none
  else
    let nested := (s.lock l).nested - 1
    let owner := if nested = 0 then 0 else (s.lock l).owner
    some ⟨interruptsLeaveCli flags, Function.update s.lock l ⟨owner, nested⟩⟩

/-- What the thread does next. -/
inductive SpinlockAct (κ : Type*)
  | acquire (l : κ)
  /-- Release the lock acquired last, with the flags that were returned. -/
  | release
  /-- Other code, which may change any flag but the interrupt flag. -/
  | work (eflags : Word)

/-- The state and the acquires that are not released yet, last first, with the flags returned. -/
structure SpinlockRun (κ : Type*) where
  cpu : SpinlockCpu κ
  held : List (κ × Word)

/-- Perform an act. -/
def SpinlockRun.perform (fuel : ℕ) (me : Word) (r : SpinlockRun κ) :
    SpinlockAct κ → Option (SpinlockRun κ)
  | .acquire l =>
    (spinlockAcquire fuel me r.cpu l).map fun result => ⟨result.2, (l, result.1) :: r.held⟩
  | .release =>
    match r.held with
    | (l, flags) :: rest => (spinlockRelease r.cpu l flags).map fun cpu => ⟨cpu, rest⟩
    | [] => none
  | .work eflags =>
    some { r with
      cpu := { r.cpu with eflags := withbit eflags flagsIfBit (getbit r.cpu.eflags flagsIfBit) } }

/-- Perform acts in order. -/
def SpinlockRun.performAll (fuel : ℕ) (me : Word) (r : SpinlockRun κ)
    (acts : List (SpinlockAct κ)) : Option (SpinlockRun κ) :=
  acts.foldlM (fun r act => r.perform fuel me act) r

/-- The locks held after a sequence of acts, last acquired first. There are none if a release has
no acquire or a lock would be held `2 ^ 32` times; a sequence is well-bracketed if it ends with
nothing held, and its beginnings are the sequences for which there are some. -/
def heldLocks : List κ → List (SpinlockAct κ) → Option (List κ)
  | held, [] => some held
  | held, .acquire l :: rest =>
    if held.count l + 1 < 2 ^ 32 then heldLocks (l :: held) rest else none
  | _ :: held, .release :: rest => heldLocks held rest
  | [], .release :: _ => none
  | held, .work _ :: rest => heldLocks held rest

/-- Whether interrupts are enabled. -/
def interruptsEnabled (eflags : Word) : Bool := eflags.getLsbD flagsIfBit

/-- A lock that is held a number of times. -/
def Spinlock.heldBy (me : Word) (depth : ℕ) : Spinlock :=
  if depth = 0 then spinlockInit else ⟨me, BitVec.ofNat 32 depth⟩

/-- The flags returned by the outermost acquire are those from the beginning, all others have
interrupts disabled. -/
def FlagsSaved (enabled : Bool) : List (κ × Word) → Prop
  | [] => True
  | (_, flags) :: rest => interruptsEnabled flags = (rest.isEmpty && enabled) ∧ FlagsSaved enabled rest

/-- The invariant, for a run that began with interrupts `enabled` or not and now holds locks. -/
structure Nests (me : Word) (enabled : Bool) (held : List κ) (r : SpinlockRun κ) : Prop where
  locks : r.held.map Prod.fst = held
  depth : ∀ l, held.count l < 2 ^ 32
  lock : ∀ l, r.cpu.lock l = Spinlock.heldBy me (held.count l)
  interrupts : interruptsEnabled r.cpu.eflags = (held.isEmpty && enabled)
  saved : FlagsSaved enabled r.held

end Functions

section Flags

/-- The register after `cli`. -/
theorem interruptsEnabled_enterCli (eflags : Word) :
    interruptsEnabled (interruptsEnterCli eflags).2 = false := by
  rw [interruptsEnabled, interruptsEnterCli, withbit, getLsbD_withbits _ _ (by decide) (by decide)]
  rfl

/-- Other code does not change the interrupt flag. -/
theorem interruptsEnabled_work (eflags eflags' : Word) :
    interruptsEnabled (withbit eflags' flagsIfBit (getbit eflags flagsIfBit)) =
      interruptsEnabled eflags := by
  rw [interruptsEnabled, withbit, getLsbD_withbits _ _ (by decide) (by decide), getbit,
    getLsbD_getbits _ (by decide) (by decide), interruptsEnabled]
  simp

end Flags

variable {fuel : ℕ}

/-- The loop ends with the second compare-and-swap on a free lock and with the first on one's own. -/
theorem spinlockSpin_eq {me owner : Word} (howner : owner = 0 ∨ owner = me) (hfuel : 2 ≤ fuel) :
    spinlockSpin me fuel owner = some me := by
  obtain ⟨n, rfl⟩ : ∃ n, fuel = n + 2 := ⟨fuel - 2, by omega⟩
  have hown : ∀ n, spinlockSpin me (n + 1) me = some me := fun n => by
    rw [spinlockSpin]
    simp [syncValCompareAndSwap]
  rcases howner with rfl | rfl
  · rw [spinlockSpin]
    simp [syncValCompareAndSwap, hown]
  · exact hown (n + 1)

section Depth

/-- The owner of a lock that is held or free. -/
theorem Spinlock.heldBy_owner (me : Word) (depth : ℕ) :
    (Spinlock.heldBy me depth).owner = 0 ∨ (Spinlock.heldBy me depth).owner = me := by
  rw [heldBy]
  split
  · exact Or.inl rfl
  · exact Or.inr rfl

/-- The count of a lock. -/
theorem Spinlock.heldBy_nested (me : Word) (depth : ℕ) :
    (Spinlock.heldBy me depth).nested = BitVec.ofNat 32 depth := by
  rw [heldBy]
  split
  · next hzero => rw [hzero]; rfl
  · rfl

/-- A lock after one more acquire. -/
theorem Spinlock.heldBy_succ (me : Word) (depth : ℕ) :
    Spinlock.heldBy me (depth + 1) = ⟨me, (Spinlock.heldBy me depth).nested + 1⟩ := by
  rw [heldBy_nested, heldBy, if_neg (Nat.succ_ne_zero depth), BitVec.ofNat_add]
  rfl

/-- A lock after one release. -/
theorem Spinlock.heldBy_pred {me : Word} {depth : ℕ} (hdepth : depth + 1 < 2 ^ 32) :
    Spinlock.heldBy me depth =
      ⟨if (Spinlock.heldBy me (depth + 1)).nested - 1 = 0 then 0
        else (Spinlock.heldBy me (depth + 1)).owner,
        (Spinlock.heldBy me (depth + 1)).nested - 1⟩ := by
  have hnested : (Spinlock.heldBy me (depth + 1)).nested - 1 = BitVec.ofNat 32 depth := by
    rw [heldBy_nested, BitVec.ofNat_add]
    exact BitVec.add_sub_cancel _ _
  have hzero : BitVec.ofNat 32 depth = 0 ↔ depth = 0 := by
    rw [← BitVec.toNat_inj, BitVec.toNat_ofNat, Nat.mod_eq_of_lt (by omega)]
    rfl
  rw [hnested]
  by_cases hdepth0 : depth = 0
  · subst hdepth0
    rfl
  · rw [heldBy, if_neg hdepth0, if_neg fun h => hdepth0 (hzero.mp h), heldBy,
      if_neg (Nat.succ_ne_zero depth)]

end Depth

section Runs

variable {κ : Type*} [DecidableEq κ] {me : Word} {enabled : Bool} {held : List κ}
  {r : SpinlockRun κ}

omit [DecidableEq κ] in
/-- Nothing is held when no acquire is outstanding. -/
theorem isEmpty_of_map_fst {entries : List (κ × Word)} (h : entries.map Prod.fst = held) :
    entries.isEmpty = held.isEmpty := by
  rw [← h, List.isEmpty_map]

/-- An acquire. -/
theorem Nests.acquire (h : Nests me enabled held r) (hme : me ≠ 0) (hfuel : 2 ≤ fuel) {l : κ}
    (hdepth : held.count l + 1 < 2 ^ 32) :
    ∃ r', r.perform fuel me (.acquire l) = some r' ∧ Nests me enabled (l :: held) r' := by
  have howner : (r.cpu.lock l).owner = 0 ∨ (r.cpu.lock l).owner = me := by
    rw [h.lock l]
    exact Spinlock.heldBy_owner me _
  refine ⟨⟨⟨(interruptsEnterCli r.cpu.eflags).2,
    Function.update r.cpu.lock l ⟨me, (r.cpu.lock l).nested + 1⟩⟩, (l, r.cpu.eflags) :: r.held⟩,
    ?_, ?_, fun x => ?_, fun x => ?_, interruptsEnabled_enterCli _, ?_, h.saved⟩
  · rw [SpinlockRun.perform, spinlockAcquire]
    dsimp only
    rw [if_neg hme, spinlockSpin_eq howner hfuel]
    rfl
  · rw [List.map_cons, h.locks]
  · by_cases hx : x = l
    · rwa [hx, List.count_cons_self]
    · rw [List.count_cons_of_ne (Ne.symm hx)]
      exact h.depth x
  · by_cases hx : x = l
    · rw [hx, List.count_cons_self, Spinlock.heldBy_succ, ← h.lock l]
      exact Function.update_self ..
    · rw [List.count_cons_of_ne (Ne.symm hx), ← h.lock x]
      exact Function.update_of_ne hx ..
  · rw [h.interrupts, isEmpty_of_map_fst h.locks]

/-- A release of the lock acquired last. -/
theorem Nests.release {l : κ} (h : Nests me enabled (l :: held) r) (fuel : ℕ) :
    ∃ r', r.perform fuel me .release = some r' ∧ Nests me enabled held r' := by
  obtain ⟨cpu, entries⟩ := r
  obtain ⟨⟨l', flags⟩, rest, rfl, rfl, hrest⟩ := List.map_eq_cons_iff.mp h.locks
  -- interrupts are disabled while the lock is held, so the assertion holds
  have hdisabled : ¬ flagsRegisterIsSet cpu.eflags flagsIfBit = true := by
    have hinterrupts : interruptsEnabled cpu.eflags = false := h.interrupts
    rw [flagsRegisterIsSet, isset_eq_getLsbD]
    exact ne_true_of_eq_false hinterrupts
  have hself := h.lock l'
  have hdepth := h.depth l'
  rw [List.count_cons_self] at hself hdepth
  let nested := (cpu.lock l').nested - 1
  let released : Spinlock := ⟨if nested = 0 then 0 else (cpu.lock l').owner, nested⟩
  refine ⟨⟨⟨flags, Function.update cpu.lock l' released⟩, rest⟩, ?_, hrest, fun x => ?_, fun x => ?_,
    ?_, h.saved.2⟩
  · change (spinlockRelease cpu l' flags).map _ = _
    rw [spinlockRelease, if_neg hdisabled]
    rfl
  · exact Nat.lt_of_le_of_lt List.count_le_count_cons (h.depth x)
  · by_cases hx : x = l'
    · rw [hx, Spinlock.heldBy_pred hdepth, ← hself]
      exact Function.update_self ..
    · have hother := h.lock x
      rw [List.count_cons_of_ne (Ne.symm hx)] at hother
      rw [← hother]
      exact Function.update_of_ne hx ..
  · rw [← isEmpty_of_map_fst hrest]
    exact h.saved.1

/-- Other code. -/
theorem Nests.work (h : Nests me enabled held r) (fuel : ℕ) (eflags : Word) :
    ∃ r', r.perform fuel me (.work eflags) = some r' ∧ Nests me enabled held r' :=
  ⟨_, rfl, h.locks, h.depth, h.lock, (interruptsEnabled_work _ _).trans h.interrupts, h.saved⟩

/-- A beginning of a well-bracketed sequence. -/
theorem Nests.performAll (h : Nests me enabled held r) (hme : me ≠ 0) (hfuel : 2 ≤ fuel)
    {acts : List (SpinlockAct κ)} {held' : List κ} (hacts : heldLocks held acts = some held') :
    ∃ r', r.performAll fuel me acts = some r' ∧ Nests me enabled held' r' := by
  induction acts generalizing held r with
  | nil =>
    cases hacts
    exact ⟨r, rfl, h⟩
  | cons act rest ih =>
    obtain ⟨held₁, hact, hrest⟩ : ∃ held₁, (∃ r₁, r.perform fuel me act = some r₁ ∧
        Nests me enabled held₁ r₁) ∧ heldLocks held₁ rest = some held' := by
      cases act with
      | acquire l =>
        obtain ⟨hdepth, hrest⟩ := Option.ite_none_right_eq_some.mp hacts
        exact ⟨l :: held, h.acquire hme hfuel hdepth, hrest⟩
      | release =>
        cases held with
        | nil => cases hacts
        | cons l held => exact ⟨held, h.release fuel, hacts⟩
      | work eflags => exact ⟨held, h.work fuel eflags, by cases held <;> exact hacts⟩
    obtain ⟨r₁, hperform, h₁⟩ := hact
    obtain ⟨r', hall, h'⟩ := ih h₁ hrest
    refine ⟨r', ?_, h'⟩
    rw [SpinlockRun.performAll, List.foldlM_cons, hperform]
    exact hall

end Runs

/-- In every sequence of acquires and releases that is well-bracketed so far, begun with all locks
free, no call fails. Interrupts are disabled while a lock is held, the locks count how often they
are held, and when nothing is held all locks are free and interrupts are as in the beginning. -/
theorem spinlocks_nest {κ : Type*} [DecidableEq κ] {me : Word} (hme : me ≠ 0) {fuel : ℕ}
    (hfuel : 2 ≤ fuel) (eflags : Word) {acts : List (SpinlockAct κ)} {held : List κ}
    (hacts : heldLocks [] acts = some held) :
    ∃ r : SpinlockRun κ,
      SpinlockRun.performAll fuel me ⟨⟨eflags, fun _ => spinlockInit⟩, []⟩ acts = some r ∧
      (held ≠ [] → interruptsEnabled r.cpu.eflags = false) ∧
      (∀ l ∈ held, (r.cpu.lock l).owner = me ∧ (r.cpu.lock l).nested.toNat = held.count l) ∧
      (∀ l ∉ held, r.cpu.lock l = spinlockInit) ∧
      (held = [] → interruptsEnabled r.cpu.eflags = interruptsEnabled eflags) := by
  have hinit : Nests me (interruptsEnabled eflags) [] ⟨⟨eflags, fun _ : κ => spinlockInit⟩, []⟩ :=
    ⟨rfl, fun _ => Nat.two_pow_pos 32, fun _ => rfl, rfl, trivial⟩
  obtain ⟨r, hrun, h⟩ := hinit.performAll hme hfuel hacts
  refine ⟨r, hrun, fun hne => ?_, fun l hl => ?_, fun l hl => ?_, fun hnil => ?_⟩
  · rw [h.interrupts, List.isEmpty_eq_false_iff.mpr hne, Bool.false_and]
  · have hcount : held.count l ≠ 0 := Nat.ne_of_gt (List.count_pos_iff.mpr hl)
    rw [h.lock l, Spinlock.heldBy_nested, BitVec.toNat_ofNat, Nat.mod_eq_of_lt (h.depth l)]
    exact ⟨by rw [Spinlock.heldBy, if_neg hcount], rfl⟩
  · rw [h.lock l, List.count_eq_zero_of_not_mem hl]
    rfl
  · rw [h.interrupts, hnil]
    rfl

/-- Two locks, one of them acquired twice, with interrupts enabled in the beginning. -/
theorem spinlocks_nest_two :
    ∃ r : SpinlockRun Bool,
      SpinlockRun.performAll 2 1 ⟨⟨0x202, fun _ => spinlockInit⟩, []⟩
        [.acquire true, .acquire false, .acquire true, .release, .release, .release] = some r ∧
      (∀ l, r.cpu.lock l = spinlockInit) ∧ interruptsEnabled r.cpu.eflags = true := by
  have hacts : heldLocks [] [.acquire true, .acquire false, .acquire true, .release, .release,
      .release] = some ([] : List Bool) := by decide
  obtain ⟨r, hrun, -, -, hfree, hflags⟩ :=
    spinlocks_nest (by decide : (1 : Word) ≠ 0) (Nat.le_refl 2) 0x202 hacts
  exact ⟨r, hrun, fun l => hfree l (List.not_mem_nil), (hflags rfl).trans (by decide)⟩

end ChrisOS.Kern
