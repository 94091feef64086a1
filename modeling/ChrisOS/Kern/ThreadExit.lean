import ChrisOS.Kern.SchedulerRun

/-!
# Threads that exit

`thread_exit` marks the current thread dead and yields, but leaves it on the list it is on.
A running thread is on the runnable list, and picking the next thread reads only that list
and never the state, so a dead thread comes up again once the list has rotated to it, and the
yield in `thread_exit` returns. Only a thread that is not on the runnable list when it exits
stays buried.
-/

namespace ChrisOS.Kern

open ChrisOS.Utils ChrisOS.Lib

variable {τ : Type*} [DecidableEq τ]

/-- A thread is linked in the runnable list. -/
def OnRunnableList (s : Scheduler τ) (t : τ) : Prop :=
  ∃ R, DLRep s.links (s.head .runnable) R ∧ t ∈ R

variable {l : Queue → List τ} {r : SchedRun τ} {t : τ}

omit [DecidableEq τ] in
/-- A blocked thread is not linked in the runnable list. -/
theorem SchedInv.not_onRunnableList (h : SchedInv r l) (ht : t ∈ r.added)
    (hblocked : r.sched.state t = .blocked) :
    ¬ OnRunnableList r.sched t := by
  rintro ⟨R, hR, htR⟩
  rw [hR.unique (h.lists.rep .runnable)] at htR
  exact h.queuesMatch.disjoint t htR (h.queuesMatch.waits t ht hblocked)

/-- Every thread that exited is dead and on no list the scheduler picks from. -/
def Buried (r : SchedRun τ) (l : Queue → List τ) : Prop :=
  ∀ t ∈ r.exited, r.sched.state t = .dead ∧ t ∉ l .runnable

omit [DecidableEq τ] in
/-- A switch finds no buried thread and leaves them buried. -/
theorem Buried.switch {r r' : SchedRun τ} {l l' : Queue → List τ} (h : Buried r l)
    (hswitch : Switches r.sched r'.sched l l' t) (hexited : r'.exited = r.exited) :
    Buried r' l' ∧ ∀ x ∈ r'.exited, r'.sched.current ≠ some x := by
  have hlive : t ∉ r.exited := by
    intro ht
    obtain ⟨hdead, hunlinked⟩ := h t ht
    rcases hswitch.chosen with hrunning | hlinked
    · rw [hdead] at hrunning
      cases hrunning
    · exact hunlinked hlinked
  rw [Buried, hexited]
  have hne : ∀ x ∈ r.exited, x ≠ t := fun x hx heq => hlive (heq ▸ hx)
  refine ⟨fun x hx => ?_, fun x hx hcurrent => ?_⟩
  · obtain ⟨hdead, hunlinked⟩ := h x hx
    exact ⟨hswitch.state x (hne x hx) hdead, fun hx' => hunlinked ((hswitch.mem x _).mp hx')⟩
  · rw [hswitch.current] at hcurrent
    exact hne x hx (Option.some.inj hcurrent).symm

omit [DecidableEq τ] in
/-- A step that writes one thread's fields disturbs no buried thread. -/
theorem Buried.touch {r r' : SchedRun τ} {l l' : Queue → List τ} (h : Buried r l)
    (htouch : Touches r r' l l' t) : Buried r' l' := by
  intro x hx
  rw [htouch.exited] at hx
  obtain ⟨hdead, hunlinked⟩ := h x hx
  have hne : x ≠ t := by
    rintro rfl
    rcases htouch.allowed with hlive | hcreated
    · exact hlive hx
    · rw [hdead] at hcreated
      cases hcreated
  exact ⟨(htouch.state x hne).trans hdead, fun hx' => hunlinked ((htouch.mem x _ hne).mp hx')⟩

/-- A thread that is not on the runnable list is buried by its exit. -/
theorem Buried.die (h : Buried r l) (ht : t ∉ l .runnable) :
    Buried ⟨r.sched.setState t .dead, r.added, insert t r.exited⟩ l := by
  intro x hx
  by_cases hxt : x = t
  · rw [hxt]
    exact ⟨Function.update_self .., ht⟩
  · obtain ⟨hdead, hunlinked⟩ := h x (hx.resolve_left hxt)
    exact ⟨(Function.update_of_ne hxt ..).trans hdead, hunlinked⟩

/-- When threads exit off the runnable list only, every exited thread stays buried and is not
current. -/
theorem Buried.of_reachable {s₀ : Scheduler τ} (h₀ : SchedInit s₀)
    (hr : SchedReachable (fun s t => ¬ OnRunnableList s t) s₀ r) :
    ∃ l, SchedInv r l ∧ Buried r l ∧ ∀ t ∈ r.exited, r.sched.current ≠ some t := by
  induction hr with
  | refl => exact ⟨_, h₀.inv, fun _ ht => ht.elim, fun _ ht => ht.elim⟩
  | @tail r r' _ hstep ih =>
    obtain ⟨l, hinv, hburied, hcurrent⟩ := ih
    obtain ⟨l', hinv', ⟨t, htouch⟩ | ⟨t, hswitch, hexited⟩ | ⟨c, t, hmay, hswitch, hexited⟩⟩ :=
      hinv.step hstep
    · refine ⟨l', hinv', hburied.touch htouch, ?_⟩
      rw [htouch.exited, htouch.current]
      exact hcurrent
    · exact ⟨l', hinv', hburied.switch hswitch hexited⟩
    · have hunlinked : c ∉ l .runnable := fun hc => hmay ⟨_, hinv.lists.rep .runnable, hc⟩
      exact ⟨l', hinv', (hburied.die hunlinked).switch hswitch hexited⟩

/-- At the tick that ends the current time slice a yield switches to the head of the runnable
list. -/
theorem schedulerYield_rotates {s : Scheduler τ} (h : DLists s.links s.head l) {next : τ} {rest : List τ}
    (hl : l .runnable = next :: rest) :
    ∃ ticks s', schedulerYield s ticks = some s' ∧ s'.current = some next ∧
      DLists s'.links s'.head (Function.update l .runnable (rest ++ [next])) := by
  let left := (s.current.map s.timeSlice).getD 0
  obtain ⟨old, s', _, hcurrent, _, _, hleft, _⟩ | ⟨hnil, _⟩ |
    ⟨next', rest', s', hl', hrun, hcurrent, _, hlists⟩ :=
      schedulerYield_cases h (s.lastScheduledTimeTicks + left)
  · -- at that tick nothing is left of the slice
    have hslice : left = s.timeSlice old := by simp only [left, hcurrent, Option.map_some,
      Option.getD_some]
    rw [hslice] at hleft
    bv_omega
  · rw [hl] at hnil
    cases hnil
  · obtain ⟨rfl, rfl⟩ := List.cons.inj (hl.symm.trans hl')
    exact ⟨_, s', hrun, hcurrent, hlists⟩

/-- A list of runnable threads with an exited one on it rotates until an exited one is current. -/
theorem exited_comes_up (h : DLists r.sched.links r.sched.head l) {pre post : List τ} (ht : t ∈ r.exited)
    (hl : l .runnable = pre ++ t :: post) :
    ∃ s, Relation.ReflTransGen (SchedStep fun _ _ => False) r ⟨s, r.added, r.exited⟩ ∧
      s.current = some t := by
  induction pre generalizing r l post with
  | nil =>
    obtain ⟨ticks, s', hyield, hcurrent, _⟩ := schedulerYield_rotates h hl
    exact ⟨s', .single (.yield r ticks s' hyield), hcurrent⟩
  | cons x pre ih =>
    obtain ⟨ticks, s', hyield, _, hlists⟩ := schedulerYield_rotates h hl
    have hl' : Function.update l .runnable ((pre ++ t :: post) ++ [x]) .runnable =
        pre ++ t :: (post ++ [x]) := by
      rw [Function.update_self, List.append_assoc, List.cons_append]
    obtain ⟨s, hrun, hcurrent⟩ := ih (r := ⟨s', r.added, r.exited⟩) hlists ht hl'
    exact ⟨s, .head (.yield r ticks s' hyield) hrun, hcurrent⟩

/-- If threads exit only while they are not on the runnable list, no exited thread is ever
scheduled. A current thread that exits while it is on that list is scheduled again if the others
just run out their time slices. -/
theorem exited_scheduled_only_if_linked {s₀ : Scheduler τ} (h₀ : SchedInit s₀) :
    (∀ r, SchedReachable (fun s t => ¬ OnRunnableList s t) s₀ r →
      ∀ t ∈ r.exited, r.sched.current ≠ some t) ∧
    ∀ r t ticks, SchedReachable (fun _ _ => True) s₀ r → r.sched.current = some t →
      OnRunnableList r.sched t →
      ∃ s, threadExit r.sched t ticks = some s ∧ ∃ s', s'.current = some t ∧
        Relation.ReflTransGen (SchedStep fun _ _ => False) ⟨s, r.added, insert t r.exited⟩
          ⟨s', r.added, insert t r.exited⟩ := by
  refine ⟨fun r hr => ?_, fun r t ticks hr hcurrent hlinked => ?_⟩
  · obtain ⟨_, _, _, h⟩ := Buried.of_reachable h₀ hr
    exact h
  · obtain ⟨l, hinv⟩ := SchedInv.of_reachable h₀ hr
    obtain ⟨R, hR, htR⟩ := hlinked
    have ht : t ∈ l .runnable := hR.unique (hinv.lists.rep .runnable) ▸ htR
    have hsome : (threadExit r.sched t ticks).isSome :=
      (hinv.die t).callsReturn.yield (List.ne_nil_of_mem ht) ticks
    obtain ⟨s, hexit⟩ := Option.isSome_iff_exists.mp hsome
    obtain ⟨l', _, hinv', hswitch⟩ := (hinv.die t).yield hexit
    obtain ⟨pre, post, hsplit⟩ := List.append_of_mem ((hswitch.mem t .runnable).mpr ht)
    obtain ⟨s', hrun, hcurrent'⟩ := exited_comes_up hinv'.lists (Set.mem_insert t r.exited) hsplit
    exact ⟨s, hexit, s', hcurrent', hrun⟩

/-- A thread that blocks itself before it exits is buried and the other thread runs. -/
theorem exited_scheduled_only_if_linked_blocked :
    ∃ r : SchedRun Bool, SchedReachable (fun s t => ¬ OnRunnableList s t) Scheduler.zeroed r ∧
      false ∈ r.exited ∧ ∀ t ∈ r.exited, r.sched.current ≠ some t := by
  let s₁ := (schedulerMakeBlocked twoThreads.sched false).get (by decide)
  let s₂ := (threadExit s₁ false 5).get (by decide)
  have hblocked := (twoThreads_reachable fun s t => ¬ OnRunnableList s t).tail
    (.makeBlocked _ false s₁ (by simp [twoThreads]) (fun h => h) (Option.some_get _).symm)
  obtain ⟨l, hinv⟩ := SchedInv.of_reachable Scheduler.zeroed_init hblocked
  have hexited := hblocked.tail (.exit _ false 5 s₂ (by decide) (fun h => h)
    (hinv.not_onRunnableList (by simp [twoThreads]) (by decide)) (Option.some_get _).symm)
  exact ⟨_, hexited, Set.mem_insert _ _,
    (exited_scheduled_only_if_linked Scheduler.zeroed_init).1 _ hexited⟩

/-- Two threads are added and the first exits while it runs; the second runs out its slice and the
first, dead, is scheduled again. -/
theorem exited_thread_scheduled :
    ∃ r r' : SchedRun Bool, SchedReachable (fun _ _ => True) Scheduler.zeroed r ∧
      false ∈ r.exited ∧ r.sched.state false = .dead ∧
      Relation.ReflTransGen (SchedStep fun _ _ => True) r r' ∧ r'.sched.current = some false := by
  let s₁ := (threadExit twoThreads.sched false 5).get (by decide)
  let s₂ := (schedulerYield s₁ 6).get (by decide)
  have hexited := (twoThreads_reachable fun _ _ => True).tail
    (.exit _ false 5 s₁ (by decide) (fun h => h) trivial (Option.some_get _).symm)
  exact ⟨_, _, hexited, Set.mem_insert _ _, by decide,
    .single (.yield _ 6 s₂ (Option.some_get _).symm), by decide⟩

end ChrisOS.Kern
