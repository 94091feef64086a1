import ChrisOS.Kern.SchedulerRun

/-!
# The scheduler without exits

For code that blocks and wakes threads, only two facts about the scheduler matter: who is
blocked and who is current. While no thread exits, blocking and waking an added thread always
succeed and change nothing else, and a switch changes nobody's being blocked and goes to a
thread that is running.
-/

namespace ChrisOS.Kern

open ChrisOS.Utils ChrisOS.Lib

variable {τ : Type*} [DecidableEq τ]

/-- A yield unblocks nobody and blocks nobody, and the thread it switches to is running. -/
theorem SchedInv.yield_states {r : SchedRun τ} {l : Queue → List τ} (h : SchedInv r l)
    (hlive : ∀ t, t ∉ r.exited) {ticks : Word} {s' : Scheduler τ}
    (hyield : schedulerYield r.sched ticks = some s') :
    (∀ t, s'.state t = .blocked ↔ r.sched.state t = .blocked) ∧
      ∀ t, s'.current = some t → s'.state t = .running := by
  obtain ⟨old, s₁, hrun, _, hcurrent, hrunning, _, hstate, _⟩ | ⟨_, hnone⟩ |
    ⟨next, rest, s₁, hl, hrun, hcurrent, hstate, _⟩ := schedulerYield_cases h.lists ticks
  · obtain rfl := Option.some.inj (hrun.symm.trans hyield)
    refine ⟨fun t => by rw [hstate], fun t ht => ?_⟩
    obtain rfl := Option.some.inj (hcurrent.symm.trans ht)
    rw [hstate, hrunning]
  · rw [hnone] at hyield
    cases hyield
  · obtain rfl := Option.some.inj (hrun.symm.trans hyield)
    refine ⟨fun t => ?_, fun t ht => ?_⟩
    · by_cases htn : t = next
      · -- the head of the runnable list was not blocked, or it would be on both lists
        have hmem : t ∈ l .runnable := htn ▸ hl ▸ List.mem_cons_self
        have hplaced := (h.mem_of_live ((h.linked t).mpr ⟨_, hmem⟩) (hlive t)).2
        have hbefore : r.sched.state t ≠ .blocked := fun hblocked => by
          rw [hblocked] at hplaced
          exact h.lists.disjoint .runnable .blocked (by decide) t hmem hplaced
        rw [hstate, htn, Function.update_self]
        exact iff_of_false (by decide) (htn ▸ hbefore)
      · rw [hstate, Function.update_of_ne htn]
        obtain ⟨hsame, _⟩ | ⟨hput, hrunning⟩ := h.demoted_cases t
        · rw [hsame]
        · rw [hput, hrunning]
          simp
    · obtain rfl := Option.some.inj (hcurrent.symm.trans ht)
      rw [hstate, Function.update_self]

omit [DecidableEq τ] in
/-- With nothing on the runnable list, every added thread is blocked. -/
theorem SchedInv.all_blocked {r : SchedRun τ} {l : Queue → List τ} (h : SchedInv r l)
    (hlive : ∀ t, t ∉ r.exited) (hl : l .runnable = []) {t : τ} (ht : t ∈ r.added) :
    r.sched.state t = .blocked := by
  obtain ⟨hcreated, hmem⟩ := h.mem_of_live ht (hlive t)
  have hdead : r.sched.state t ≠ .dead := fun hdead => hlive t (h.dead t ht hdead)
  cases hstate : r.sched.state t with
  | blocked => rfl
  | created => exact absurd hstate hcreated
  | dead => exact absurd hstate hdead
  | running =>
    rw [hstate, queueOf, hl] at hmem
    cases hmem
  | runnable =>
    rw [hstate, queueOf, hl] at hmem
    cases hmem

variable {state : τ → ThreadState}

/-- After a thread is woken, the other blocked threads are still blocked and no more. -/
theorem blocked_woken_iff {t x : τ} :
    Function.update state t .runnable x = .blocked ↔ x ≠ t ∧ state x = .blocked := by
  by_cases hx : x = t
  · simp [hx]
  · simp [hx]

/-- Adding a created thread changes nobody's being blocked. -/
theorem blocked_added_iff {t x : τ} (hcreated : state t = .created) :
    Function.update state t .runnable x = .blocked ↔ state x = .blocked := by
  rw [blocked_woken_iff]
  refine and_iff_right_of_imp fun hx hxt => ?_
  rw [hxt, hcreated] at hx
  cases hx

/-- Waking a thread blocks nobody. -/
theorem blocked_of_woken {t x : τ} (h : Function.update state t .runnable x = .blocked) :
    state x = .blocked :=
  (blocked_woken_iff.mp h).2

/-- A scheduler before any thread is added, and nobody blocked. -/
structure KernelInit (s : Scheduler τ) : Prop extends SchedInit s where
  ready : ∀ t, s.state t ≠ .blocked

example : KernelInit (Scheduler.zeroed : Scheduler Bool) :=
  ⟨Scheduler.zeroed_init, fun _ h => by cases h⟩

/-- A scheduler that some run without exits has reached, with the threads added in it. -/
def SchedLive (added : Set τ) (s : Scheduler τ) : Prop :=
  ∃ s₀, SchedInit s₀ ∧ SchedReachable (fun _ _ => False) s₀ ⟨s, added, ∅⟩

/-- A scheduler before any thread is added. -/
theorem SchedInit.live {s : Scheduler τ} (h : SchedInit s) : SchedLive ∅ s := ⟨s, h, .refl⟩

section Live

variable {added : Set τ} {s s' : Scheduler τ} {t : τ}

/-- The invariant of the lists. -/
theorem SchedLive.inv (h : SchedLive added s) : ∃ l, SchedInv ⟨s, added, ∅⟩ l := by
  obtain ⟨s₀, h₀, hreach⟩ := h
  exact SchedInv.of_reachable h₀ hreach

/-- A step without exits leads to a live scheduler. -/
theorem SchedLive.tail (h : SchedLive added s) {added' : Set τ}
    (hstep : SchedStep (fun _ _ => False) ⟨s, added, ∅⟩ ⟨s', added', ∅⟩) : SchedLive added' s' := by
  obtain ⟨s₀, h₀, hreach⟩ := h
  exact ⟨s₀, h₀, hreach.tail hstep⟩

/-- Blocking an added thread succeeds. -/
theorem SchedLive.exists_makeBlocked (h : SchedLive added s) (ht : t ∈ added) :
    ∃ s', schedulerMakeBlocked s t = some s' := by
  obtain ⟨l, hinv⟩ := h.inv
  obtain ⟨s', hmake, _⟩ := schedulerMakeBlocked_spec hinv.lists
    (hinv.mem_of_live ht (Set.notMem_empty t)).2
  exact ⟨s', hmake⟩

/-- Waking an added thread succeeds. -/
theorem SchedLive.exists_makeRunnable (h : SchedLive added s) (ht : t ∈ added) :
    ∃ s', schedulerMakeRunnable s t = some s' := by
  obtain ⟨l, hinv⟩ := h.inv
  obtain ⟨s', hmake, _⟩ := schedulerMakeRunnable_spec hinv.lists
    (hinv.mem_of_live ht (Set.notMem_empty t)).2
  exact ⟨s', hmake⟩

/-- Blocking an added thread. -/
theorem SchedLive.makeBlocked (h : SchedLive added s) (ht : t ∈ added)
    (hmake : schedulerMakeBlocked s t = some s') :
    SchedLive added s' ∧ s'.current = s.current ∧
      s'.state = Function.update s.state t .blocked := by
  obtain ⟨l, hinv⟩ := h.inv
  obtain ⟨s₁, hmake', hcurrent, hstate, _⟩ := schedulerMakeBlocked_spec hinv.lists
    (hinv.mem_of_live ht (Set.notMem_empty t)).2
  obtain rfl := Option.some.inj (hmake'.symm.trans hmake)
  exact ⟨h.tail (.makeBlocked _ t s₁ ht (Set.notMem_empty t) hmake), hcurrent, hstate⟩

/-- Waking an added thread. -/
theorem SchedLive.makeRunnable (h : SchedLive added s) (ht : t ∈ added)
    (hmake : schedulerMakeRunnable s t = some s') :
    SchedLive added s' ∧ s'.current = s.current ∧
      s'.state = Function.update s.state t .runnable := by
  obtain ⟨l, hinv⟩ := h.inv
  obtain ⟨s₁, hmake', hcurrent, hstate, _⟩ := schedulerMakeRunnable_spec hinv.lists
    (hinv.mem_of_live ht (Set.notMem_empty t)).2
  obtain rfl := Option.some.inj (hmake'.symm.trans hmake)
  exact ⟨h.tail (.makeRunnable _ t s₁ ht (Set.notMem_empty t) hmake), hcurrent, hstate⟩

/-- Adding a created thread. -/
theorem SchedLive.addThread (h : SchedLive added s) (hcreated : s.state t = .created)
    (ht : t ∉ added) (hadd : schedulerAddThread s t = some s') :
    SchedLive (insert t added) s' ∧ s'.current = s.current ∧
      s'.state = Function.update s.state t .runnable := by
  obtain ⟨l, hinv⟩ := h.inv
  obtain ⟨s₁, hadd', hcurrent, hstate, _⟩ := schedulerAddThread_spec hinv.lists hcreated
    fun q hq => ht ((hinv.linked t).mpr ⟨q, hq⟩)
  obtain rfl := Option.some.inj (hadd'.symm.trans hadd)
  exact ⟨h.tail (.add _ t s₁ hcreated ht hadd), hcurrent, hstate⟩

/-- A switch. -/
theorem SchedLive.yield (h : SchedLive added s) {ticks : Word}
    (hyield : schedulerYield s ticks = some s') :
    SchedLive added s' ∧ (∀ t, s'.state t = .blocked ↔ s.state t = .blocked) ∧
      ∀ t, s'.current = some t → s'.state t ≠ .blocked := by
  obtain ⟨l, hinv⟩ := h.inv
  obtain ⟨hstates, hrunning⟩ := hinv.yield_states (fun t => Set.notMem_empty t) hyield
  refine ⟨h.tail (.yield _ ticks s' hyield), hstates, fun t ht hblocked => ?_⟩
  exact absurd ((hrunning t ht).symm.trans hblocked) (by decide)

/-- A switch fails only if every added thread is blocked. -/
theorem SchedLive.yield_isSome (h : SchedLive added s) (ticks : Word) :
    (schedulerYield s ticks).isSome ∨ ∀ t ∈ added, s.state t = .blocked := by
  obtain ⟨l, hinv⟩ := h.inv
  obtain ⟨_, s', hyield, _⟩ | ⟨hnil, _⟩ | ⟨_, _, s', _, hyield, _⟩ :=
    schedulerYield_cases hinv.lists ticks
  · exact Or.inl (Option.isSome_of_eq_some hyield)
  · exact Or.inr fun t ht => hinv.all_blocked (fun x => Set.notMem_empty x) hnil ht
  · exact Or.inl (Option.isSome_of_eq_some hyield)

end Live

end ChrisOS.Kern
