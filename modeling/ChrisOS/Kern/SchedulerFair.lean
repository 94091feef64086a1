import ChrisOS.Kern.ThreadExit
import ChrisOS.Lib.RoundRobin

/-!
# Round-robin scheduling starves nobody

The runnable list is a queue that is served in turn: picking a thread sends it to the back, new
and woken threads join there, blocking leaves. The one thread that can be sent to the back without
being picked is the current one, when it is woken while it runs. So a thread that waits on the
list keeps its place among the others, and no other thread is picked twice before it.
-/

namespace ChrisOS.Kern

open ChrisOS.Utils ChrisOS.Lib

variable {τ : Type*} [DecidableEq τ]

/-- The thread that `scheduler_next_thread` takes from the head of `_runnable_threads`: none when
it returns the running thread early. -/
def schedulerTakes (s : Scheduler τ) (ticks : Word) : Option τ :=
  match s.current with
  | some old =>
    if s.state old = .running ∧ s.timeSlice old - (ticks - s.lastScheduledTimeTicks) > 0 then none
    else s.head .runnable
  | none => s.head .runnable

/-- One step of a run without exits, and the thread it takes from the head of the runnable list. -/
inductive SchedTakes : SchedRun τ → Option τ → SchedRun τ → Prop
  | next (r : SchedRun τ) (ticks : Word) (sched : Scheduler τ) (taken : Option τ)
      (htaken : schedulerTakes r.sched ticks = taken)
      (h : schedulerYield r.sched ticks = some sched) :
      SchedTakes r taken ⟨sched, r.added, r.exited⟩
  | add (r : SchedRun τ) (t : τ) (sched : Scheduler τ) (hcreated : r.sched.state t = .created)
      (hnew : t ∉ r.added) (h : schedulerAddThread r.sched t = some sched) :
      SchedTakes r none ⟨sched, insert t r.added, r.exited⟩
  | makeRunnable (r : SchedRun τ) (t : τ) (sched : Scheduler τ) (hadded : t ∈ r.added)
      (hlive : t ∉ r.exited) (h : schedulerMakeRunnable r.sched t = some sched) :
      SchedTakes r none ⟨sched, r.added, r.exited⟩
  | makeBlocked (r : SchedRun τ) (t : τ) (sched : Scheduler τ) (hadded : t ∈ r.added)
      (hlive : t ∉ r.exited) (h : schedulerMakeBlocked r.sched t = some sched) :
      SchedTakes r none ⟨sched, r.added, r.exited⟩

/-- A run during which `u` is linked in the runnable list, with the threads taken, in order. -/
inductive LinkedRun (u : τ) : SchedRun τ → List τ → SchedRun τ → Prop
  | refl (r : SchedRun τ) (hlinked : OnRunnableList r.sched u) : LinkedRun u r [] r
  | tail {r r' r'' : SchedRun τ} {takes : List τ} {taken : Option τ} (hrun : LinkedRun u r takes r')
      (hstep : SchedTakes r' taken r'') (hlinked : OnRunnableList r''.sched u) :
      LinkedRun u r (takes ++ taken.toList) r''

variable {r r' : SchedRun τ} {taken : Option τ}

/-- The steps are steps of the scheduler's runs. -/
theorem SchedTakes.schedStep (h : SchedTakes r taken r') (mayExit : Scheduler τ → τ → Prop) :
    SchedStep mayExit r r' := by
  cases h with
  | next ticks sched _ _ hyield => exact .yield r ticks sched hyield
  | add t sched hcreated hnew hadd => exact .add r t sched hcreated hnew hadd
  | makeRunnable t sched hadded hlive hmake => exact .makeRunnable r t sched hadded hlive hmake
  | makeBlocked t sched hadded hlive hmake => exact .makeBlocked r t sched hadded hlive hmake

variable {l : Queue → List τ}

/-- A yield that takes nobody keeps the current thread and the lists; one that takes a thread
rotates the runnable list and makes that thread current. -/
theorem schedulerYield_taken {s s' : Scheduler τ} (h : DLists s.links s.head l) {ticks : Word}
    (hyield : schedulerYield s ticks = some s') :
    (schedulerTakes s ticks = none ∧ s'.current = s.current ∧ DLists s'.links s'.head l) ∨
      ∃ next rest, schedulerTakes s ticks = some next ∧ l .runnable = next :: rest ∧
        s'.current = some next ∧
        DLists s'.links s'.head (Function.update l .runnable (rest ++ [next])) := by
  by_cases hkeeps : ∃ old, s.current = some old ∧ s.state old = .running ∧
      s.timeSlice old - (ticks - s.lastScheduledTimeTicks) > 0
  · obtain ⟨old, hcurrent, hrunning, hleft⟩ := hkeeps
    left
    simp only [schedulerYield, schedulerNextThread, hcurrent, if_pos hrunning,
      Function.update_self, if_pos hleft] at hyield
    cases hyield
    refine ⟨?_, hcurrent.symm, h⟩
    simp only [schedulerTakes, hcurrent, if_pos (And.intro hrunning hleft)]
  · have htakes : schedulerTakes s ticks = s.head .runnable := by
      cases hcurrent : s.current with
      | none => simp only [schedulerTakes, hcurrent]
      | some old =>
        simp only [schedulerTakes, hcurrent]
        exact if_neg fun hand => hkeeps ⟨old, hcurrent, hand⟩
    obtain ⟨old, _, _, hcurrent, _, hrunning, hleft, _⟩ | ⟨_, hnone⟩ |
      ⟨next, rest, s₁, hl, hrun, hcurrent, _, hlists⟩ := schedulerYield_cases h ticks
    · exact absurd ⟨old, hcurrent, hrunning, hleft⟩ hkeeps
    · rw [hnone] at hyield
      cases hyield
    · obtain rfl := Option.some.inj (hrun.symm.trans hyield)
      refine Or.inr ⟨next, rest, ?_, hl, hcurrent, hlists⟩
      rw [htakes, (h.rep .runnable).head_eq, hl]
      rfl

/-- What a step does to the runnable list, as a queue served in turn, and to the current thread. -/
structure QueueStep (r r' : SchedRun τ) (taken : Option τ) (R R' : List τ) (event : QueueEvent τ) :
    Prop where
  apply : event.apply R = some R'
  serve : ∀ x, event = .serve x ↔ taken = some x
  /-- Only a running thread is sent to the back. -/
  requeue : ∀ x, event = .requeue x → r.sched.state x = .running
  current : r'.sched.current = taken.or r.sched.current

/-- The runnable list after a wake-up of a thread that is where its state says. -/
theorem moveTo_runnable (l : Queue → List τ) (t : τ) (q : Queue) :
    moveTo l t q .runnable .runnable =
      if q = .runnable then (l .runnable).erase t ++ [t] else l .runnable ++ [t] := by
  rw [moveTo, Function.update_self]
  split
  · next hq => rw [hq, Function.update_self]
  · next hq => rw [Function.update_of_ne (Ne.symm hq)]

/-- The runnable list after a thread that is where its state says is blocked. -/
theorem moveTo_blocked (l : Queue → List τ) (t : τ) (q : Queue) :
    moveTo l t q .blocked .runnable =
      if q = .runnable then (l .runnable).erase t else l .runnable := by
  rw [moveTo, Function.update_of_ne (by decide)]
  split
  · next hq => rw [hq, Function.update_self]
  · next hq => rw [Function.update_of_ne (Ne.symm hq)]

/-- Every step is one event of the queue. -/
theorem SchedInv.queueStep (h : SchedInv r l) (hstep : SchedTakes r taken r') :
    ∃ R' event, DLRep r'.sched.links (r'.sched.head .runnable) R' ∧
      QueueStep r r' taken (l .runnable) R' event := by
  cases hstep with
  | next ticks sched _ htaken hyield =>
    obtain ⟨hnone, hcurrent, hlists⟩ | ⟨next, rest, hsome, hl, hcurrent, hlists⟩ :=
      schedulerYield_taken h.lists hyield
    · obtain rfl := htaken.symm.trans hnone
      exact ⟨_, .keep, hlists.rep .runnable, rfl, by simp, by simp, hcurrent⟩
    · obtain rfl := htaken.symm.trans hsome
      have hrep := hlists.rep .runnable
      rw [Function.update_self] at hrep
      refine ⟨_, .serve next, hrep, ?_, by simp, by simp, hcurrent⟩
      rw [hl]
      exact if_pos rfl
  | add t sched hcreated hnew hadd =>
    obtain ⟨s', hrun, hcurrent, _, hlists⟩ := schedulerAddThread_spec h.lists hcreated
      fun q hq => hnew ((h.linked t).mpr ⟨q, hq⟩)
    obtain rfl := Option.some.inj (hrun.symm.trans hadd)
    have hrep := hlists.rep .runnable
    rw [Function.update_self] at hrep
    exact ⟨_, .join t, hrep, rfl, by simp, by simp, hcurrent⟩
  | makeRunnable t sched hadded hlive hmake =>
    have hplaced := (h.mem_of_live hadded hlive).2
    by_cases hstate : r.sched.state t = .runnable
    · rw [schedulerMakeRunnable, if_neg (not_not_intro hstate)] at hmake
      cases hmake
      exact ⟨_, .keep, h.lists.rep .runnable, rfl, by simp, by simp, rfl⟩
    · obtain ⟨s', hrun, hcurrent, _, hlists⟩ := schedulerMakeRunnable_spec h.lists hplaced
      obtain rfl := Option.some.inj (hrun.symm.trans hmake)
      have hrep := (hlists.resolve_left fun hsame => hstate hsame.1).rep .runnable
      rw [moveTo_runnable] at hrep
      split at hrep
      · next hq =>
        -- a thread on the runnable list that is moved all the same is the running one
        have hrunning : r.sched.state t = .running := by
          cases hcase : r.sched.state t <;> simp_all [queueOf]
        exact ⟨_, .requeue t, hrep, rfl, by simp, fun x hx => by cases hx; exact hrunning, hcurrent⟩
      · exact ⟨_, .join t, hrep, rfl, by simp, by simp, hcurrent⟩
  | makeBlocked t sched hadded hlive hmake =>
    have hplaced := (h.mem_of_live hadded hlive).2
    obtain ⟨s', hrun, hcurrent, _, ⟨_, rfl⟩ | hlists⟩ := schedulerMakeBlocked_spec h.lists hplaced
    · obtain rfl := Option.some.inj (hrun.symm.trans hmake)
      exact ⟨_, .keep, h.lists.rep .runnable, rfl, by simp, by simp, rfl⟩
    · obtain rfl := Option.some.inj (hrun.symm.trans hmake)
      have hrep := hlists.rep .runnable
      rw [moveTo_blocked] at hrep
      split at hrep
      · exact ⟨_, .leave t, hrep, rfl, by simp, by simp, hcurrent⟩
      · exact ⟨_, .keep, hrep, rfl, by simp, by simp, hcurrent⟩

omit [DecidableEq τ] in
/-- The threads linked in the runnable list are those of the list it represents. -/
theorem SchedInv.onRunnableList_iff {r : SchedRun τ} (h : SchedInv r l) {t : τ} :
    OnRunnableList r.sched t ↔ t ∈ l .runnable := by
  refine ⟨fun ⟨R, hR, ht⟩ => ?_, fun ht => ⟨_, h.lists.rep .runnable, ht⟩⟩
  rwa [hR.unique (h.lists.rep .runnable)] at ht

/-- Every step keeps the invariant and is one event of the queue. -/
theorem SchedInv.takes (h : SchedInv r l) (hstep : SchedTakes r taken r') :
    ∃ l' event, SchedInv r' l' ∧ QueueStep r r' taken (l .runnable) (l' .runnable) event := by
  obtain ⟨l', hinv', _⟩ := h.step (hstep.schedStep fun _ _ => False)
  obtain ⟨R', event, hR', hqueue⟩ := h.queueStep hstep
  obtain rfl := hR'.unique (hinv'.lists.rep .runnable)
  exact ⟨l', event, hinv', hqueue⟩

/-- A thread `u` that is linked and not current is ahead of `t`. -/
structure Waits (u t : τ) (r : SchedRun τ) (l : Queue → List τ) : Prop where
  inv : SchedInv r l
  ahead : Ahead u t (l .runnable)
  current : r.sched.current ≠ some u

/-- Once `t` is taken, every other linked thread waits ahead of it. -/
theorem SchedInv.waits {u t : τ} (h : SchedInv r l) (hstep : SchedTakes r (some t) r')
    (hlinked : OnRunnableList r'.sched u) (hne : u ≠ t) :
    ∃ l', Waits u t r' l' := by
  obtain ⟨l', event, hinv', hqueue⟩ := h.takes hstep
  obtain rfl := (hqueue.serve t).mpr rfl
  have hu := hinv'.onRunnableList_iff.mp hlinked
  refine ⟨l', hinv', Ahead.of_serve (h.lists.rep .runnable).nodup hqueue.apply hu hne, ?_⟩
  rw [hqueue.current]
  exact fun heq => hne (Option.some.inj heq).symm

/-- A step that does not take `u` and leaves it linked keeps it waiting ahead of `t`. -/
theorem Waits.step {u t : τ} (h : Waits u t r l) (hstep : SchedTakes r taken r')
    (hlinked : OnRunnableList r'.sched u)
    (htaken : taken ≠ some u) : ∃ l', Waits u t r' l' := by
  obtain ⟨l', event, hinv', hqueue⟩ := h.inv.takes hstep
  refine ⟨l', hinv', h.ahead.apply hqueue.apply ?_ ?_ ?_, ?_⟩
  · exact fun hserve => htaken ((hqueue.serve u).mp hserve)
  · rintro rfl
    have hu := hinv'.onRunnableList_iff.mp hlinked
    rw [← Option.some.inj hqueue.apply] at hu
    exact ((h.inv.lists.rep .runnable).nodup.mem_erase_iff.mp hu).1 rfl
  · exact fun hrequeue => h.current (h.inv.running u (hqueue.requeue u hrequeue))
  · rw [hqueue.current]
    cases taken with
    | none => exact h.current
    | some x => exact htaken

variable {takes : List τ}

/-- Over a run in which `u` stays linked and is not taken, it stays ahead of `t`. -/
theorem Waits.run {u t : τ} (h : Waits u t r l) (hrun : LinkedRun u r takes r') (htakes : u ∉ takes) :
    ∃ l', Waits u t r' l' := by
  induction hrun with
  | refl => exact ⟨l, h⟩
  | tail _ hstep hlinked ih =>
    rw [List.mem_append, not_or] at htakes
    obtain ⟨l₁, hwaits⟩ := ih htakes.1
    exact hwaits.step hstep hlinked fun heq => htakes.2 (by simp [heq])

/-- A run in which `u` is linked all the time begins with `u` linked. -/
theorem LinkedRun.linked {u : τ} (h : LinkedRun u r takes r') : OnRunnableList r.sched u := by
  induction h with
  | refl hlinked => exact hlinked
  | tail _ _ _ ih => exact ih

/-- Between two times a thread `t` is taken from the head of the runnable list, consecutive ones in
particular, every other thread that was linked there all the time is taken. -/
theorem round_robin_starves_nobody {s₀ : Scheduler τ} (h₀ : SchedInit s₀)
    {r₀ r₁ r₂ r₃ : SchedRun τ} (hr : SchedReachable (fun _ _ => False) s₀ r₀) {t u : τ}
    {takes : List τ} (hfirst : SchedTakes r₀ (some t) r₁) (hrun : LinkedRun u r₁ takes r₂)
    (hsecond : SchedTakes r₂ (some t) r₃) (hne : u ≠ t) : u ∈ takes := by
  by_contra htakes
  obtain ⟨l₀, hinv₀⟩ := SchedInv.of_reachable h₀ hr
  obtain ⟨l₁, hwaits₁⟩ := hinv₀.waits hfirst hrun.linked hne
  obtain ⟨l₂, hwaits₂⟩ := hwaits₁.run hrun htakes
  -- `t` is not the head while `u` is ahead of it
  obtain ⟨l₃, event, _, hqueue⟩ := hwaits₂.inv.takes hsecond
  obtain rfl := (hqueue.serve t).mpr rfl
  exact hne (hwaits₂.ahead.not_serve hqueue.apply)

/-- In a run without exits, an added thread that is not blocked is linked in the runnable list. -/
theorem SchedReachable.onRunnableList {s₀ : Scheduler τ} (h₀ : SchedInit s₀) {r : SchedRun τ}
    (hr : SchedReachable (fun _ _ => False) s₀ r) {t : τ} (hadded : t ∈ r.added)
    (hstate : r.sched.state t = .running ∨ r.sched.state t = .runnable) :
    OnRunnableList r.sched t := by
  obtain ⟨l, hinv⟩ := SchedInv.of_reachable h₀ hr
  exact hinv.onRunnableList_iff.mpr (hinv.queuesMatch.runs t hadded hstate)

/-- Two threads are added and take turns. -/
theorem round_robin_two :
    ∃ (r₀ r₁ r₂ r₃ : SchedRun Bool) (takes : List Bool),
      SchedReachable (fun _ _ => False) Scheduler.zeroed r₀ ∧ SchedTakes r₀ (some false) r₁ ∧
        LinkedRun true r₁ takes r₂ ∧ SchedTakes r₂ (some false) r₃ ∧ true ∈ takes := by
  let s₁ := (schedulerAddThread Scheduler.zeroed false).get (by decide)
  let s₂ := (schedulerAddThread s₁ true).get (by decide)
  let s₃ := (schedulerYield twoThreads.sched 6).get (by decide)
  let s₄ := (schedulerYield s₃ 7).get (by decide)
  have hr₀ : SchedReachable (fun _ _ => False) Scheduler.zeroed ⟨s₂, _, ∅⟩ :=
    (Relation.ReflTransGen.single
      (.add ⟨_, ∅, ∅⟩ false s₁ rfl (fun h => h) (Option.some_get _).symm)).tail
      (.add ⟨s₁, _, ∅⟩ true s₂ (by decide) (by simp) (Option.some_get _).symm)
  have hr₁ := twoThreads_reachable fun _ _ => False
  have hr₂ := hr₁.tail (.yield _ 6 s₃ (Option.some_get _).symm)
  have hfirst : SchedTakes _ (some false) twoThreads :=
    .next ⟨s₂, _, ∅⟩ 5 _ _ (by decide) (Option.some_get _).symm
  have hbetween : SchedTakes twoThreads (some true) _ :=
    .next _ 6 s₃ _ (by decide) (Option.some_get _).symm
  have hsecond : SchedTakes _ (some false) _ :=
    .next ⟨s₃, twoThreads.added, ∅⟩ 7 s₄ _ (by decide) (Option.some_get _).symm
  have hlinked₁ : OnRunnableList twoThreads.sched true :=
    SchedReachable.onRunnableList Scheduler.zeroed_init hr₁ (by simp [twoThreads]) (by decide)
  have hlinked₂ : OnRunnableList s₃ true :=
    SchedReachable.onRunnableList Scheduler.zeroed_init hr₂ (by simp [twoThreads]) (by decide)
  have hrun := (LinkedRun.refl twoThreads hlinked₁).tail hbetween hlinked₂
  exact ⟨_, _, _, _, _, hr₀, hfirst, hrun, hsecond,
    round_robin_starves_nobody Scheduler.zeroed_init hr₀ hfirst hrun hsecond (by decide)⟩

end ChrisOS.Kern
