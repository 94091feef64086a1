import ChrisOS.Kern.SchedulerQueue
import Mathlib.Data.Set.Insert
import Mathlib.Logic.Relation

/-!
# The scheduler over whole runs

The state field of a thread and the list it is on are written by different functions. Over
every run of adding threads, scheduling, waking, blocking and exiting, the two stay in step
for all threads that have not exited, and at most the current thread is running.
-/

namespace ChrisOS.Kern

open ChrisOS.Utils ChrisOS.Lib

variable {τ : Type*} [DecidableEq τ]

/-- The scheduler, the threads added to it and the threads that have exited. -/
structure SchedRun (τ : Type*) where
  sched : Scheduler τ
  added : Set τ
  exited : Set τ

/-- One step of a run. A thread may be woken or blocked at any time after it was added until it
exits; only the current thread exits, and only when `mayExit` allows it. -/
inductive SchedStep (mayExit : Scheduler τ → τ → Prop) : SchedRun τ → SchedRun τ → Prop
  | add (r : SchedRun τ) (t : τ) (sched : Scheduler τ) (hcreated : r.sched.state t = .created)
      (hnew : t ∉ r.added) (h : schedulerAddThread r.sched t = some sched) :
      SchedStep mayExit r ⟨sched, insert t r.added, r.exited⟩
  | yield (r : SchedRun τ) (ticks : Word) (sched : Scheduler τ)
      (h : schedulerYield r.sched ticks = some sched) :
      SchedStep mayExit r ⟨sched, r.added, r.exited⟩
  | makeRunnable (r : SchedRun τ) (t : τ) (sched : Scheduler τ) (hadded : t ∈ r.added)
      (hlive : t ∉ r.exited) (h : schedulerMakeRunnable r.sched t = some sched) :
      SchedStep mayExit r ⟨sched, r.added, r.exited⟩
  | makeBlocked (r : SchedRun τ) (t : τ) (sched : Scheduler τ) (hadded : t ∈ r.added)
      (hlive : t ∉ r.exited) (h : schedulerMakeBlocked r.sched t = some sched) :
      SchedStep mayExit r ⟨sched, r.added, r.exited⟩
  | exit (r : SchedRun τ) (t : τ) (ticks : Word) (sched : Scheduler τ)
      (hcurrent : r.sched.current = some t) (hlive : t ∉ r.exited) (hmay : mayExit r.sched t)
      (h : threadExit r.sched t ticks = some sched) :
      SchedStep mayExit r ⟨sched, r.added, insert t r.exited⟩

/-- Before any thread is added: empty lists, and nobody but the bootstrap thread, which is on no
list, is running. -/
structure SchedInit (s : Scheduler τ) : Prop where
  head : ∀ q, s.head q = none
  running : ∀ t, s.state t = .running → s.current = some t

/-- The states of runs from an initial scheduler. -/
def SchedReachable (mayExit : Scheduler τ → τ → Prop) (s₀ : Scheduler τ) (r : SchedRun τ) : Prop :=
  Relation.ReflTransGen (SchedStep mayExit) ⟨s₀, ∅, ∅⟩ r

/-- The inductive invariant, for the lists the two heads represent. -/
structure SchedInv (r : SchedRun τ) (l : Queue → List τ) : Prop where
  lists : DLists r.sched.links r.sched.head l
  linked : ∀ t, t ∈ r.added ↔ ∃ q, t ∈ l q
  placed : ∀ t ∈ r.added, r.sched.state t ≠ .dead →
    r.sched.state t ≠ .created ∧ t ∈ l (queueOf (r.sched.state t))
  dead : ∀ t ∈ r.added, r.sched.state t = .dead → t ∈ r.exited
  running : ∀ t, r.sched.state t = .running → r.sched.current = some t

variable {l : Queue → List τ} {r : SchedRun τ}

omit [DecidableEq τ] in
/-- A live added thread is where its state says. -/
theorem SchedInv.mem_of_live (h : SchedInv r l) {t : τ} (hadded : t ∈ r.added) (hlive : t ∉ r.exited) :
    r.sched.state t ≠ .created ∧ t ∈ l (queueOf (r.sched.state t)) :=
  h.placed t hadded fun hdead => hlive (h.dead t hadded hdead)

variable {s' : Scheduler τ}

/-- Putting one thread on the list of its new state keeps the invariant. -/
theorem SchedInv.place {l l' : Queue → List τ} (h : SchedInv r l) {t : τ} {state : ThreadState}
    (hto : state = .runnable ∨ state = .blocked)
    (hmem : ∀ x q, x ∈ l' q ↔ (x = t ∧ q = queueOf state) ∨ (x ≠ t ∧ x ∈ l q))
    (hstate : s'.state = Function.update r.sched.state t state)
    (hcurrent : s'.current = r.sched.current) (hlists : DLists s'.links s'.head l') :
    SchedInv ⟨s', insert t r.added, r.exited⟩ l' := by
  have hself : s'.state t = state := by rw [hstate, Function.update_self]
  have hother : ∀ x, x ≠ t → s'.state x = r.sched.state x := fun x hx => by
    rw [hstate, Function.update_of_ne hx]
  have hold : ∀ x, x ≠ t → x ∈ insert t r.added → x ∈ r.added := fun x hxt hx => hx.resolve_left hxt
  refine ⟨hlists, fun x => ?_, fun x hx hdead => ?_, fun x hx hdead => ?_, fun x hx => ?_⟩
  · by_cases hxt : x = t
    · exact ⟨fun _ => ⟨_, (hmem x _).mpr (Or.inl ⟨hxt, rfl⟩)⟩, fun _ => Or.inl hxt⟩
    · change x = t ∨ x ∈ r.added ↔ _
      simp only [hmem, h.linked x, hxt, false_and, false_or, ne_eq, not_false_eq_true, true_and]
  · change s'.state x ≠ .dead at hdead
    change s'.state x ≠ _ ∧ x ∈ l' (queueOf (s'.state x))
    by_cases hxt : x = t
    · subst hxt
      rw [hself]
      exact ⟨by rintro rfl; simp at hto, (hmem x _).mpr (Or.inl ⟨rfl, rfl⟩)⟩
    · rw [hother x hxt] at hdead ⊢
      obtain ⟨hcreated, hin⟩ := h.placed x (hold x hxt hx) hdead
      exact ⟨hcreated, (hmem x _).mpr (Or.inr ⟨hxt, hin⟩)⟩
  · change s'.state x = .dead at hdead
    by_cases hxt : x = t
    · rw [hxt, hself] at hdead
      exact absurd hdead (by rintro rfl; simp at hto)
    · rw [hother x hxt] at hdead
      exact h.dead x (hold x hxt hx) hdead
  · change s'.state x = .running at hx
    change s'.current = some x
    by_cases hxt : x = t
    · rw [hxt, hself] at hx
      exact absurd hx (by rintro rfl; simp at hto)
    · rw [hother x hxt] at hx
      rw [hcurrent]
      exact h.running x hx

omit [DecidableEq τ] in
/-- The members of the lists with a new thread at the back of the runnable one. -/
theorem mem_appended {t : τ} (ht : ∀ q, t ∉ l q) (x : τ) (q : Queue) :
    x ∈ Function.update l .runnable (l .runnable ++ [t]) q ↔
      (x = t ∧ q = .runnable) ∨ (x ≠ t ∧ x ∈ l q) := by
  have hne : x ∈ l q → x ≠ t := fun hx heq => ht q (heq ▸ hx)
  cases q with
  | runnable =>
    rw [Function.update_self, List.mem_append, List.mem_singleton]
    grind
  | blocked =>
    rw [Function.update_of_ne (by decide)]
    grind

/-- Putting the running thread back leaves no thread running and moves nobody. -/
theorem SchedInv.demoted_cases (h : SchedInv r l) (x : τ) :
    (demoted r.sched x = r.sched.state x ∧ r.sched.state x ≠ .running) ∨
      (demoted r.sched x = .runnable ∧ r.sched.state x = .running) := by
  unfold demoted
  by_cases hrunning : r.sched.state x = .running
  · exact Or.inr ⟨if_pos ⟨h.running x hrunning, hrunning⟩, hrunning⟩
  · exact Or.inl ⟨if_neg fun hand => hrunning hand.2, hrunning⟩

omit [DecidableEq τ] in
/-- A rotated list has the same members. -/
theorem mem_rotated {next : τ} {rest : List τ} (hl : l .runnable = next :: rest) (x : τ) (q : Queue) :
    x ∈ Function.update l .runnable (rest ++ [next]) q ↔ x ∈ l q := by
  cases q with
  | runnable => rw [Function.update_self, hl, List.mem_append, List.mem_singleton, List.mem_cons,
      or_comm]
  | blocked => rw [Function.update_of_ne (by decide)]

/-- Switching to the head of the runnable list keeps the invariant. -/
theorem SchedInv.switch (h : SchedInv r l) {next : τ} {rest : List τ} (hl : l .runnable = next :: rest)
    (hstate : s'.state = Function.update (demoted r.sched) next .running)
    (hcurrent : s'.current = some next)
    (hlists : DLists s'.links s'.head (Function.update l .runnable (rest ++ [next]))) :
    SchedInv ⟨s', r.added, r.exited⟩ (Function.update l .runnable (rest ++ [next])) := by
  have hmem := mem_rotated hl
  have hself : s'.state next = .running := by rw [hstate, Function.update_self]
  have hother : ∀ x, x ≠ next → s'.state x = demoted r.sched x := fun x hx => by
    rw [hstate, Function.update_of_ne hx]
  refine ⟨hlists, fun x => ?_, fun x hx hdead => ?_, fun x hx hdead => ?_, fun x hx => ?_⟩
  · simp only [hmem]
    exact h.linked x
  · change s'.state x ≠ .created ∧ x ∈ Function.update l _ _ (queueOf (s'.state x))
    change s'.state x ≠ .dead at hdead
    rw [hmem]
    by_cases hxn : x = next
    · rw [hxn, hself]
      exact ⟨by decide, hl ▸ List.mem_cons_self⟩
    · rw [hother x hxn] at hdead ⊢
      obtain ⟨hsame, _⟩ | ⟨hput, hrunning⟩ := h.demoted_cases x
      · rw [hsame] at hdead ⊢
        exact h.placed x hx hdead
      · have hplaced := h.placed x hx (by rw [hrunning]; decide)
        rw [hrunning] at hplaced
        rw [hput]
        exact ⟨by decide, hplaced.2⟩
  · change s'.state x = .dead at hdead
    have hxn : x ≠ next := by
      rintro rfl
      rw [hself] at hdead
      cases hdead
    rw [hother x hxn] at hdead
    obtain ⟨hsame, _⟩ | ⟨hput, _⟩ := h.demoted_cases x
    · exact h.dead x hx (hsame ▸ hdead)
    · rw [hput] at hdead
      cases hdead
  · change s'.state x = .running at hx
    change s'.current = some x
    by_cases hxn : x = next
    · rw [hxn, hcurrent]
    · rw [hother x hxn] at hx
      obtain ⟨hsame, hne⟩ | ⟨hput, _⟩ := h.demoted_cases x
      · exact absurd (hsame ▸ hx) hne
      · rw [hput] at hx
        cases hx

/-- A step that writes the fields of one thread and leaves the others where they are. -/
structure Touches (r r' : SchedRun τ) (l l' : Queue → List τ) (t : τ) : Prop where
  allowed : t ∉ r.exited ∨ r.sched.state t = .created
  state : ∀ x, x ≠ t → r'.sched.state x = r.sched.state x
  mem : ∀ x q, x ≠ t → (x ∈ l' q ↔ x ∈ l q)
  current : r'.sched.current = r.sched.current
  exited : r'.exited = r.exited

/-- A switch to a thread that was running or on the runnable list. -/
structure Switches (s s' : Scheduler τ) (l l' : Queue → List τ) (t : τ) : Prop where
  chosen : s.state t = .running ∨ t ∈ l .runnable
  current : s'.current = some t
  state : ∀ x, x ≠ t → s.state x = .dead → s'.state x = .dead
  mem : ∀ x q, x ∈ l' q ↔ x ∈ l q

/-- A yield is a switch and keeps the invariant. -/
theorem SchedInv.yield (h : SchedInv r l) {ticks : Word}
    (hyield : schedulerYield r.sched ticks = some s') :
    ∃ l' t, SchedInv ⟨s', r.added, r.exited⟩ l' ∧ Switches r.sched s' l l' t := by
  obtain ⟨old, s₁, hrun, hold, hcurrent, hrunning, _, hstate, hlists⟩ | ⟨_, hnone⟩ |
    ⟨next, rest, s₁, hl, hrun, hcurrent, hstate, hlists⟩ := schedulerYield_cases h.lists ticks
  · obtain rfl := Option.some.inj (hrun.symm.trans hyield)
    refine ⟨l, old, ⟨hlists, h.linked, ?_, ?_, ?_⟩, Or.inl hrunning, hcurrent, ?_, fun _ _ => Iff.rfl⟩
    · simpa only [hstate] using h.placed
    · simpa only [hstate] using h.dead
    · simpa only [hstate, hcurrent, hold] using h.running
    · exact fun x _ hdead => hstate ▸ hdead
  · rw [hnone] at hyield
    cases hyield
  · obtain rfl := Option.some.inj (hrun.symm.trans hyield)
    refine ⟨_, next, h.switch hl hstate hcurrent hlists, Or.inr (hl ▸ List.mem_cons_self), hcurrent,
      fun x hx hdead => ?_, mem_rotated hl⟩
    rw [hstate, Function.update_of_ne hx, demoted, if_neg (by simp [hdead]), hdead]

/-- Marking the current thread dead keeps the invariant and every link. -/
theorem SchedInv.die (h : SchedInv r l) (t : τ) :
    SchedInv ⟨r.sched.setState t .dead, r.added, insert t r.exited⟩ l := by
  have hself : (r.sched.setState t .dead).state t = .dead := Function.update_self ..
  have hother : ∀ x, x ≠ t → (r.sched.setState t .dead).state x = r.sched.state x :=
    fun x hx => Function.update_of_ne hx ..
  refine ⟨h.lists, h.linked, fun x hx hdead => ?_, fun x hx hdead => ?_, fun x hx => ?_⟩
  · have hxt : x ≠ t := by
      rintro rfl
      exact hdead hself
    dsimp only at hdead ⊢
    rw [hother x hxt] at hdead ⊢
    exact h.placed x hx hdead
  · by_cases hxt : x = t
    · exact Or.inl hxt
    · exact Or.inr (h.dead x hx (hother x hxt ▸ hdead))
  · by_cases hxt : x = t
    · rw [hxt] at hx
      exact absurd (hself.symm.trans hx) (by decide)
    · exact h.running x (hother x hxt ▸ hx)

/-- Waking or blocking a live thread, which does nothing to one already in that state. -/
theorem SchedInv.touch (h : SchedInv r l) {t : τ} (hadded : t ∈ r.added) (hlive : t ∉ r.exited)
    {state : ThreadState}
    (hstate : s'.state = Function.update r.sched.state t state)
    (hcurrent : s'.current = r.sched.current) (hto : state = .runnable ∨ state = .blocked)
    (hlists : (r.sched.state t = state ∧ s' = r.sched) ∨
      DLists s'.links s'.head (moveTo l t (queueOf (r.sched.state t)) (queueOf state))) :
    ∃ l', SchedInv ⟨s', r.added, r.exited⟩ l' ∧ Touches r ⟨s', r.added, r.exited⟩ l l' t := by
  obtain ⟨_, rfl⟩ | hlists := hlists
  · exact ⟨l, h, Or.inl hlive, fun _ _ => rfl, fun _ _ _ => Iff.rfl, rfl, rfl⟩
  · have hmem := mem_moveTo h.lists (h.mem_of_live hadded hlive).2 (queueOf state)
    have hplaced := h.place hto hmem hstate hcurrent hlists
    rw [Set.insert_eq_of_mem hadded] at hplaced
    refine ⟨_, hplaced, Or.inl hlive, fun x hx => ?_, fun x q hx => ?_, hcurrent, rfl⟩
    · change s'.state x = _
      rw [hstate, Function.update_of_ne hx]
    · simp only [hmem, hx, false_and, false_or, ne_eq, not_false_eq_true, true_and]

variable {mayExit : Scheduler τ → τ → Prop}

/-- Every step keeps the invariant, and is one thread's update, a switch or an exit. -/
theorem SchedInv.step {r r' : SchedRun τ} (hstep : SchedStep mayExit r r') (h : SchedInv r l) :
    ∃ l', SchedInv r' l' ∧ ((∃ t, Touches r r' l l' t) ∨
      (∃ t, Switches r.sched r'.sched l l' t ∧ r'.exited = r.exited) ∨
      ∃ c t, mayExit r.sched c ∧ Switches (r.sched.setState c .dead) r'.sched l l' t ∧
        r'.exited = insert c r.exited) := by
  cases hstep with
  | add t sched hcreated hnew hadd =>
    have hunlinked : ∀ q, t ∉ l q := fun q hq => hnew ((h.linked t).mpr ⟨q, hq⟩)
    obtain ⟨s', hrun, hcurrent, hstate, hlists⟩ :=
      schedulerAddThread_spec h.lists hcreated hunlinked
    obtain rfl := Option.some.inj (hrun.symm.trans hadd)
    have hmem := mem_appended hunlinked
    refine ⟨_, h.place (Or.inl rfl) hmem hstate hcurrent hlists, Or.inl ⟨t, Or.inr hcreated,
      fun x hx => ?_, fun x q hx => ?_, hcurrent, rfl⟩⟩
    · rw [hstate, Function.update_of_ne hx]
    · simp only [hmem, hx, false_and, false_or, ne_eq, not_false_eq_true, true_and]
  | yield ticks sched hyield =>
    obtain ⟨l', t, hinv, hswitch⟩ := h.yield hyield
    exact ⟨l', hinv, Or.inr (Or.inl ⟨t, hswitch, rfl⟩)⟩
  | makeRunnable t sched hadded hlive hmake =>
    have hplaced := (h.mem_of_live hadded hlive).2
    obtain ⟨s', hrun, hcurrent, hstate, hlists⟩ := schedulerMakeRunnable_spec h.lists hplaced
    obtain rfl := Option.some.inj (hrun.symm.trans hmake)
    obtain ⟨l', hinv, htouch⟩ := h.touch hadded hlive hstate hcurrent (Or.inl rfl) hlists
    exact ⟨l', hinv, Or.inl ⟨t, htouch⟩⟩
  | makeBlocked t sched hadded hlive hmake =>
    have hplaced := (h.mem_of_live hadded hlive).2
    obtain ⟨s', hrun, hcurrent, hstate, hlists⟩ := schedulerMakeBlocked_spec h.lists hplaced
    obtain rfl := Option.some.inj (hrun.symm.trans hmake)
    obtain ⟨l', hinv, htouch⟩ := h.touch hadded hlive hstate hcurrent (Or.inr rfl) hlists
    exact ⟨l', hinv, Or.inl ⟨t, htouch⟩⟩
  | exit t ticks sched hcurrent hlive hmay hexit =>
    obtain ⟨l', next, hinv, hswitch⟩ := (h.die t).yield hexit
    exact ⟨l', hinv, Or.inr (Or.inr ⟨t, next, hmay, hswitch, rfl⟩)⟩

omit [DecidableEq τ] in
/-- The invariant holds before any thread is added. -/
theorem SchedInit.inv {s : Scheduler τ} (h : SchedInit s) : SchedInv ⟨s, ∅, ∅⟩ fun _ => [] where
  lists := ⟨fun q => by rw [h.head q]; exact DLRep.nil _, fun _ _ _ x hx => by cases hx⟩
  linked := fun t => ⟨fun ht => ht.elim, fun ⟨_, ht⟩ => by cases ht⟩
  placed := fun _ ht => ht.elim
  dead := fun _ ht => ht.elim
  running := h.running

/-- The invariant holds in every reachable state. -/
theorem SchedInv.of_reachable {s₀ : Scheduler τ} (h₀ : SchedInit s₀) (hr : SchedReachable mayExit s₀ r) :
    ∃ l, SchedInv r l := by
  induction hr with
  | refl => exact ⟨_, h₀.inv⟩
  | tail _ hstep ih =>
    obtain ⟨l, hinv⟩ := ih
    obtain ⟨l', hinv', _⟩ := hinv.step hstep
    exact ⟨l', hinv'⟩

/-- The two heads lead through the lists `R` and `B`, which together hold the added threads, each
once and where its state says; at most the current thread is running. -/
structure QueuesMatch (r : SchedRun τ) (R B : List τ) : Prop where
  runnable : DLRep r.sched.links (r.sched.head .runnable) R
  blocked : DLRep r.sched.links (r.sched.head .blocked) B
  disjoint : ∀ t ∈ R, t ∉ B
  linked : ∀ t, t ∈ r.added ↔ t ∈ R ∨ t ∈ B
  runs : ∀ t ∈ r.added, r.sched.state t = .running ∨ r.sched.state t = .runnable → t ∈ R
  waits : ∀ t ∈ r.added, r.sched.state t = .blocked → t ∈ B
  live : ∀ t ∈ r.added, t ∉ r.exited → r.sched.state t = .running ∨ r.sched.state t = .runnable ∨
    r.sched.state t = .blocked
  running : ∀ t, r.sched.state t = .running → r.sched.current = some t

/-- No legal call fails an assertion or reads a null pointer, provided a pick finds a thread. -/
structure CallsReturn (r : SchedRun τ) (R : List τ) : Prop where
  add : ∀ t ∉ r.added, r.sched.state t = .created → (schedulerAddThread r.sched t).isSome
  makeRunnable : ∀ t ∈ r.added, t ∉ r.exited → (schedulerMakeRunnable r.sched t).isSome
  makeBlocked : ∀ t ∈ r.added, t ∉ r.exited → (schedulerMakeBlocked r.sched t).isSome
  yield : R ≠ [] → ∀ ticks, (schedulerYield r.sched ticks).isSome

omit [DecidableEq τ] in
/-- The invariant gives the match of lists and states. -/
theorem SchedInv.queuesMatch (h : SchedInv r l) : QueuesMatch r (l .runnable) (l .blocked) where
  runnable := h.lists.rep .runnable
  blocked := h.lists.rep .blocked
  disjoint := h.lists.disjoint .runnable .blocked (by decide)
  linked := fun t => by
    rw [h.linked t]
    refine ⟨fun ⟨q, hq⟩ => ?_, fun ht => ht.elim (⟨_, ·⟩) (⟨_, ·⟩)⟩
    cases q with
    | runnable => exact Or.inl hq
    | blocked => exact Or.inr hq
  runs := fun t ht hstate => by
    have hplaced := h.placed t ht
    rcases hstate with hstate | hstate <;>
    · rw [hstate] at hplaced
      exact (hplaced (by decide)).2
  waits := fun t ht hstate => by
    have hplaced := h.placed t ht
    rw [hstate] at hplaced
    exact (hplaced (by decide)).2
  live := fun t ht hlive => by
    have hcreated := (h.mem_of_live ht hlive).1
    have hdead : r.sched.state t ≠ .dead := fun hdead => hlive (h.dead t ht hdead)
    cases hstate : r.sched.state t <;> simp_all
  running := h.running

/-- The invariant makes every legal call return. -/
theorem SchedInv.callsReturn (h : SchedInv r l) : CallsReturn r (l .runnable) where
  add := fun t hnew hcreated => by
    obtain ⟨s', hrun, _⟩ := schedulerAddThread_spec h.lists hcreated
      fun q hq => hnew ((h.linked t).mpr ⟨q, hq⟩)
    rw [hrun]
    rfl
  makeRunnable := fun t ht hlive => by
    obtain ⟨s', hrun, _⟩ := schedulerMakeRunnable_spec h.lists (h.mem_of_live ht hlive).2
    rw [hrun]
    rfl
  makeBlocked := fun t ht hlive => by
    obtain ⟨s', hrun, _⟩ := schedulerMakeBlocked_spec h.lists (h.mem_of_live ht hlive).2
    rw [hrun]
    rfl
  yield := fun hne ticks => by
    obtain ⟨_, s', hrun, _⟩ | ⟨hnil, _⟩ | ⟨_, _, s', _, hrun, _⟩ :=
      schedulerYield_cases h.lists ticks
    · rw [hrun]
      rfl
    · exact absurd hnil hne
    · rw [hrun]
      rfl

/-- In every run, whoever exits, states and lists stay in step and legal calls return. -/
theorem scheduler_queues_of_reachable {mayExit : Scheduler τ → τ → Prop} {s₀ : Scheduler τ}
    (h₀ : SchedInit s₀) {r : SchedRun τ} (hr : SchedReachable mayExit s₀ r) :
    ∃ R B, QueuesMatch r R B ∧ CallsReturn r R := by
  obtain ⟨l, hinv⟩ := SchedInv.of_reachable h₀ hr
  exact ⟨_, _, hinv.queuesMatch, hinv.callsReturn⟩

/-- The scheduler's zero-initialised variables, with every thread freshly created. -/
def Scheduler.zeroed : Scheduler τ where
  links := ⟨fun _ => none, fun _ => none⟩
  state := fun _ => .created
  timeSlice := fun _ => 0
  head := fun _ => none
  current := none
  lastScheduledTimeTicks := 0

omit [DecidableEq τ] in
theorem Scheduler.zeroed_init : SchedInit (Scheduler.zeroed : Scheduler τ) :=
  ⟨fun _ => rfl, fun _ h => by cases h⟩

/-- Two threads are added and the first of them is scheduled. -/
def twoThreads : SchedRun Bool :=
  let s₁ := (schedulerAddThread Scheduler.zeroed false).get (by decide)
  let s₂ := (schedulerAddThread s₁ true).get (by decide)
  ⟨(schedulerYield s₂ 5).get (by decide), insert true (insert false ∅), ∅⟩

theorem twoThreads_reachable (mayExit : Scheduler Bool → Bool → Prop) :
    SchedReachable mayExit Scheduler.zeroed twoThreads := by
  let s₁ := (schedulerAddThread Scheduler.zeroed false).get (by decide)
  let s₂ := (schedulerAddThread s₁ true).get (by decide)
  exact ((Relation.ReflTransGen.single
    (.add ⟨_, ∅, ∅⟩ false s₁ rfl (fun h => h) (Option.some_get _).symm)).tail
    (.add ⟨s₁, _, ∅⟩ true s₂ (by decide) (by simp) (Option.some_get _).symm)).tail
    (.yield ⟨s₂, _, ∅⟩ 5 _ (Option.some_get _).symm)

/-- The scheduled thread of the two is blocked before it is switched out. -/
theorem scheduler_queues_two :
    ∃ r : SchedRun Bool, SchedReachable (fun _ _ => False) Scheduler.zeroed r ∧
      r.sched.current = some false ∧ r.sched.state false = .blocked ∧
      ∃ R B, QueuesMatch r R B ∧ CallsReturn r R := by
  let s := (schedulerMakeBlocked twoThreads.sched false).get (by decide)
  have hreach := (twoThreads_reachable fun _ _ => False).tail
    (.makeBlocked _ false s (by simp [twoThreads]) (fun h => h) (Option.some_get _).symm)
  exact ⟨_, hreach, by decide, by decide, scheduler_queues_of_reachable Scheduler.zeroed_init hreach⟩

end ChrisOS.Kern
