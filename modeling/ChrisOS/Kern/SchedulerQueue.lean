import ChrisOS.Kern.Scheduler

/-!
# The scheduler's functions on its queues

What each function does to the two lists, from the list operations: a thread that is where its
state says moves to the back of one list, and a yield rotates the runnable list or keeps the
running thread.
-/

namespace ChrisOS.Kern

open ChrisOS.Utils ChrisOS.Lib

variable {τ : Type*} [DecidableEq τ]

/-- The list `scheduler_remove_thread` looks for a thread on. -/
def queueOf : ThreadState → Queue
  | .running => .runnable
  | .runnable => .runnable
  | _ => .blocked

/-- The lists with a thread moved from one to the back of another. -/
def moveTo (l : Queue → List τ) (t : τ) (q q' : Queue) : Queue → List τ :=
  Function.update (Function.update l q ((l q).erase t)) q'
    (Function.update l q ((l q).erase t) q' ++ [t])

variable {l : Queue → List τ} {t : τ}

/-- A moved thread is on its new list only, every other thread where it was. -/
theorem mem_moveTo {links : Links τ} {head : Queue → Option τ} (h : DLists links head l) {q : Queue}
    (ht : t ∈ l q) (q' : Queue) (x : τ) (p : Queue) :
    x ∈ moveTo l t q q' p ↔ (x = t ∧ p = q') ∨ (x ≠ t ∧ x ∈ l p) := by
  have herased : ∀ p, x ∈ Function.update l q ((l q).erase t) p ↔ x ≠ t ∧ x ∈ l p := by
    intro p
    by_cases hp : p = q
    · subst hp
      rw [Function.update_self, (h.rep p).nodup.mem_erase_iff]
    · rw [Function.update_of_ne hp]
      exact ⟨fun hx => ⟨fun heq => h.disjoint p q hp x hx (heq ▸ ht), hx⟩, fun hx => hx.2⟩
  unfold moveTo
  by_cases hp : p = q'
  · subst hp
    rw [Function.update_self, List.mem_append, herased, List.mem_singleton]
    grind
  · rw [Function.update_of_ne hp, herased]
    grind

variable {s : Scheduler τ}

/-- Linking a thread that is on no list. -/
theorem linkThread_spec (h : DLists s.links s.head l) (q : Queue) (ht : ∀ p, t ∉ l p) :
    ∃ links head, linkThread q s t = some { s with links := links, head := head } ∧
      DLists links head (Function.update l q (l q ++ [t])) ∧ s.head q ≠ some t := by
  obtain ⟨links, head, happend, hlists⟩ := h.append q ht
  have hne : s.head q ≠ some t := by
    rw [(h.rep q).head_eq]
    exact fun heq => ht q (List.mem_of_head? heq)
  refine ⟨links, _, ?_, hlists, hne⟩
  rw [linkThread, if_neg hne, happend]
  rfl

/-- Unlinking a thread from the list it is on. -/
theorem unlinkThread_spec (h : DLists s.links s.head l) {q : Queue} (ht : t ∈ l q) :
    ∃ links head, unlinkThread q s t = some { s with links := links, head := head } ∧
      DLists links head (Function.update l q ((l q).erase t)) := by
  obtain ⟨links, head, hdelete, hlists⟩ := h.delete q ht
  refine ⟨_, _, ?_, hlists⟩
  rw [unlinkThread, hdelete]
  rfl

/-- An unlinked thread is on no list. -/
theorem notMem_erase {links : Links τ} {head : Queue → Option τ} (h : DLists links head l) {q : Queue}
    (ht : t ∈ l q) (p : Queue) :
    t ∉ Function.update l q ((l q).erase t) p := by
  by_cases hp : p = q
  · subst hp
    rw [Function.update_self]
    exact fun hmem => ((h.rep p).nodup.mem_erase_iff.mp hmem).1 rfl
  · rw [Function.update_of_ne hp]
    exact h.disjoint q p (Ne.symm hp) t ht

/-- `scheduler_remove_thread` on a thread that is where its state says. -/
theorem schedulerRemoveThread_spec (h : DLists s.links s.head l) (ht : t ∈ l (queueOf (s.state t))) :
    ∃ links head, schedulerRemoveThread s t = some { s with links := links, head := head } ∧
      DLists links head
        (Function.update l (queueOf (s.state t)) ((l (queueOf (s.state t))).erase t)) := by
  obtain ⟨links, head, hunlink, hlists⟩ := unlinkThread_spec h ht
  refine ⟨links, head, ?_, hlists⟩
  rw [← hunlink]
  unfold schedulerRemoveThread schedulerRemoveRunnableThread schedulerRemoveBlockedThread
  cases hstate : s.state t <;> simp [queueOf]

/-- `scheduler_make_runnable` on a thread that is where its state says. -/
theorem schedulerMakeRunnable_spec (h : DLists s.links s.head l) (ht : t ∈ l (queueOf (s.state t))) :
    ∃ s', schedulerMakeRunnable s t = some s' ∧ s'.current = s.current ∧
      s'.state = Function.update s.state t .runnable ∧
      ((s.state t = .runnable ∧ s' = s) ∨
        DLists s'.links s'.head (moveTo l t (queueOf (s.state t)) .runnable)) := by
  by_cases hstate : s.state t = .runnable
  · refine ⟨s, ?_, rfl, ?_, Or.inl ⟨hstate, rfl⟩⟩
    · rw [schedulerMakeRunnable, if_neg (not_not_intro hstate)]
    · rw [← hstate, Function.update_eq_self]
  · obtain ⟨links, head, hremove, hlists⟩ := schedulerRemoveThread_spec h ht
    let s₁ : Scheduler τ :=
      { s with
        links := links
        head := head
        state := Function.update s.state t .runnable
        timeSlice := Function.update s.timeSlice t timeSliceTicks }
    obtain ⟨links', head', hlink, hlists', _⟩ := linkThread_spec (s := s₁) hlists .runnable
      (notMem_erase h ht)
    refine ⟨{ s₁ with links := links', head := head' }, ?_, rfl, rfl, Or.inr hlists'⟩
    rw [schedulerMakeRunnable, if_pos hstate, hremove]
    exact hlink

/-- `scheduler_make_blocked` on a thread that is where its state says. -/
theorem schedulerMakeBlocked_spec (h : DLists s.links s.head l) (ht : t ∈ l (queueOf (s.state t))) :
    ∃ s', schedulerMakeBlocked s t = some s' ∧ s'.current = s.current ∧
      s'.state = Function.update s.state t .blocked ∧
      ((s.state t = .blocked ∧ s' = s) ∨
        DLists s'.links s'.head (moveTo l t (queueOf (s.state t)) .blocked)) := by
  by_cases hstate : s.state t = .blocked
  · refine ⟨s, ?_, rfl, ?_, Or.inl ⟨hstate, rfl⟩⟩
    · rw [schedulerMakeBlocked, if_neg (not_not_intro hstate)]
    · rw [← hstate, Function.update_eq_self]
  · obtain ⟨links, head, hremove, hlists⟩ := schedulerRemoveThread_spec h ht
    let s₁ : Scheduler τ :=
      { s with links := links, head := head, state := Function.update s.state t .blocked }
    obtain ⟨links', head', hlink, hlists', hne⟩ := linkThread_spec (s := s₁) hlists .blocked
      (notMem_erase h ht)
    refine ⟨{ s₁ with links := links', head := head' }, ?_, rfl, rfl, Or.inr hlists'⟩
    rw [schedulerMakeBlocked, if_pos hstate, hremove]
    change (if head .blocked = some t then none else _) = _
    rw [if_neg hne]
    exact hlink

/-- `scheduler_add_thread` on a created thread that is on no list. -/
theorem schedulerAddThread_spec (h : DLists s.links s.head l) (hcreated : s.state t = .created)
    (ht : ∀ p, t ∉ l p) :
    ∃ s', schedulerAddThread s t = some s' ∧ s'.current = s.current ∧
      s'.state = Function.update s.state t .runnable ∧
      DLists s'.links s'.head (Function.update l .runnable (l .runnable ++ [t])) := by
  let s₁ : Scheduler τ :=
    { s with
      state := Function.update s.state t .runnable
      timeSlice := Function.update s.timeSlice t timeSliceTicks }
  obtain ⟨links, head, hlink, hlists, hne⟩ := linkThread_spec (s := s₁) h .runnable ht
  refine ⟨{ s₁ with links := links, head := head }, ?_, rfl, rfl, hlists⟩
  have hset : (s.setState t .runnable).state t = .runnable := Function.update_self ..
  rw [schedulerAddThread, if_neg (by simp [hcreated])]
  simp only [if_pos hcreated, if_pos hset]
  change (if s.head .runnable = some t then none else _) = _
  rw [if_neg hne]
  exact hlink

/-- Picking rotates the runnable list by one thread and marks that thread running. -/
theorem pickNextThread_spec (h : DLists s.links s.head l) {next : τ} {rest : List τ}
    (hl : l .runnable = next :: rest) :
    ∃ s', pickNextThread s = some (next, s') ∧ s'.current = s.current ∧
      s'.state = Function.update s.state next .running ∧
      DLists s'.links s'.head (Function.update l .runnable (rest ++ [next])) := by
  have hmem : next ∈ l .runnable := hl ▸ List.mem_cons_self
  have hhead : s.head .runnable = some next := by rw [(h.rep .runnable).head_eq, hl]; rfl
  obtain ⟨links, head, hunlink, hlists⟩ := unlinkThread_spec h hmem
  let s₁ : Scheduler τ :=
    { s with
      links := links
      head := head
      timeSlice := Function.update s.timeSlice next timeSliceTicks }
  obtain ⟨links', head', hlink, hlists', _⟩ := linkThread_spec (s := s₁) hlists .runnable
    (notMem_erase h hmem)
  have hrotated : Function.update (Function.update l .runnable ((l .runnable).erase next)) .runnable
      (Function.update l .runnable ((l .runnable).erase next) .runnable ++ [next]) =
        Function.update l .runnable (rest ++ [next]) := by
    rw [Function.update_idem, Function.update_self, hl, List.erase_cons_head]
  refine ⟨Scheduler.setState { s₁ with links := links', head := head' } next .running, ?_, rfl, rfl,
    hrotated ▸ hlists'⟩
  have hadd : schedulerAddRunnableThread { s with links := links, head := head } next =
      some { s₁ with links := links', head := head' } := hlink
  simp only [pickNextThread, hhead, schedulerRemoveRunnableThread, hunlink, hadd,
    Option.bind_eq_bind, Option.bind_some]

/-- Picking fails when nothing is runnable. -/
theorem pickNextThread_nil (h : DLists s.links s.head l) (hl : l .runnable = []) :
    pickNextThread s = none := by
  have hhead : s.head .runnable = none := by rw [(h.rep .runnable).head_eq, hl]; rfl
  simp only [pickNextThread, hhead]

/-- The states with a running current thread put back to runnable. -/
def demoted (s : Scheduler τ) (x : τ) : ThreadState :=
  if s.current = some x ∧ s.state x = .running then .runnable else s.state x

/-- `scheduler_next_thread` keeps a running thread with time left, or puts it back and picks. -/
theorem schedulerNextThread_cases (s : Scheduler τ) (ticks : Word) :
    (∃ old s', schedulerNextThread s ticks = some (old, s') ∧ s.current = some old ∧
      s.state old = .running ∧ s.timeSlice old - (ticks - s.lastScheduledTimeTicks) > 0 ∧
      s'.links = s.links ∧ s'.head = s.head ∧ s'.state = s.state) ∨
    ∃ s₁, schedulerNextThread s ticks = pickNextThread s₁ ∧ s₁.links = s.links ∧
      s₁.head = s.head ∧ s₁.state = demoted s := by
  unfold schedulerNextThread
  cases hcurrent : s.current with
  | none =>
    refine Or.inr ⟨_, rfl, rfl, rfl, ?_⟩
    funext x
    simp [demoted, hcurrent]
  | some old =>
    by_cases hrunning : s.state old = .running
    · dsimp only
      rw [if_pos hrunning]
      split
      · next hleft =>
        rw [Function.update_self] at hleft
        exact Or.inl ⟨old, _, rfl, rfl, hrunning, hleft, rfl, rfl, rfl⟩
      · refine Or.inr ⟨_, rfl, rfl, rfl, ?_⟩
        funext x
        by_cases hx : x = old
        · subst hx
          simp [demoted, Scheduler.setState, hcurrent, hrunning]
        · simp [demoted, Scheduler.setState, hcurrent, hx, Ne.symm hx]
    · dsimp only
      rw [if_neg hrunning]
      refine Or.inr ⟨_, rfl, rfl, rfl, ?_⟩
      funext x
      by_cases hx : x = old
      · subst hx
        simp [demoted, hcurrent, hrunning]
      · simp [demoted, hcurrent, Ne.symm hx]

/-- What a yield does to the queues: nothing, for a running thread with time left, or one
rotation of the runnable list, whose old head is then current and running. -/
theorem schedulerYield_cases (h : DLists s.links s.head l) (ticks : Word) :
    (∃ old s', schedulerYield s ticks = some s' ∧ s.current = some old ∧ s'.current = some old ∧
      s.state old = .running ∧ s.timeSlice old - (ticks - s.lastScheduledTimeTicks) > 0 ∧
      s'.state = s.state ∧ DLists s'.links s'.head l) ∨
    (l .runnable = [] ∧ schedulerYield s ticks = none) ∨
    ∃ next rest s', l .runnable = next :: rest ∧ schedulerYield s ticks = some s' ∧
      s'.current = some next ∧ s'.state = Function.update (demoted s) next .running ∧
      DLists s'.links s'.head (Function.update l .runnable (rest ++ [next])) := by
  unfold schedulerYield
  obtain ⟨old, s', hnext, hcurrent, hrunning, hleft, hlinks, hhead, hstate⟩ | ⟨s₁, hnext, hlinks,
    hhead, hstate⟩ := schedulerNextThread_cases s ticks
  · refine Or.inl ⟨old, { s' with current := some old }, by rw [hnext]; rfl, hcurrent, rfl, hrunning,
      hleft, hstate, ?_⟩
    change DLists s'.links s'.head l
    rw [hlinks, hhead]
    exact h
  · have h₁ : DLists s₁.links s₁.head l := by
      rw [hlinks, hhead]
      exact h
    cases hl : l .runnable with
    | nil => exact Or.inr (Or.inl ⟨rfl, by rw [hnext, pickNextThread_nil h₁ hl]; rfl⟩)
    | cons next rest =>
      obtain ⟨s', hpick, _, hstate', hlists⟩ := pickNextThread_spec h₁ hl
      refine Or.inr (Or.inr ⟨next, rest, { s' with current := some next }, rfl,
        by rw [hnext, hpick]; rfl, rfl, ?_, hlists⟩)
      change s'.state = _
      rw [hstate', hstate]

end ChrisOS.Kern
