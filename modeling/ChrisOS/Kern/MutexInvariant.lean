import ChrisOS.Kern.Mutex

/-!
# Invariants of the mutex

The owner field is set before its thread is on the waiting list, and a new owner is chosen
while it is still on that list. Two invariants cover the half-way states: one relates the
waiting list to the program counters and holds in every run, the other relates the owner and
the nesting count to them and holds as long as no thread nests `2 ^ 32` acquires.
-/

namespace ChrisOS.Kern

open ChrisOS.Utils ChrisOS.Lib

/-- Threads have distinct identifiers, none of them zero. -/
structure ThreadIds {τ : Type*} (tid : τ → Word) : Prop where
  injective : Function.Injective tid
  ne_zero : ∀ t, tid t ≠ 0

variable {τ : Type*} [DecidableEq τ]

/-- The program counters between `mutex_add_observer` and `mutex_remove_observer`. -/
def MutexPc.Observes (pc : MutexPc) : Prop := pc = .wait ∨ pc = .removeObserver

/-- The waiting list holds the threads between adding and removing themselves, and only a thread
in the wait loop is blocked. -/
structure WaitInv (s : MutexSystem τ) (W : List τ) : Prop where
  rep : DLRep s.waitQueue s.mutex.waitingThreads W
  unlinked : ∀ t ∉ W, s.waitQueue.next t = none
  mem_iff : ∀ t, t ∈ W ↔ (s.pc t).Observes
  blocked : ∀ t, s.blocked t = true → s.pc t = .wait

omit [DecidableEq τ] in
theorem mutexInit_waitInv : WaitInv (mutexInit τ) [] where
  rep := DLRep.nil _
  unlinked := fun _ _ => rfl
  mem_iff := fun _ => by simp [mutexInit, MutexPc.Observes]
  blocked := fun _ h => by cases h

variable {s s' : MutexSystem τ} {W : List τ} {t : τ}

omit [DecidableEq τ] in
/-- A thread outside the wait loop is not blocked. -/
theorem WaitInv.ready (h : WaitInv s W) (hpc : s.pc t ≠ .wait) : s.blocked t = false :=
  Bool.eq_false_iff.mpr fun hblocked => hpc (h.blocked t hblocked)

/-- The blocked threads stay in the wait loop when another one moves. -/
theorem WaitInv.blocked_goto (h : WaitInv s W) (hready : s.blocked t = false) (hpc : s'.pc = s.pc)
    (pc : MutexPc) {x : τ}
    (hx : s.blocked x = true) : (s'.goto t pc).pc x = .wait := by
  have hxt : x ≠ t := by
    rintro rfl
    exact Bool.false_ne_true (hready.symm.trans hx)
  rw [MutexSystem.goto_pc_of_ne _ hxt, hpc]
  exact h.blocked x hx

/-- A ready thread moves without joining or leaving the waiting list. -/
theorem WaitInv.goto (h : WaitInv s W) (hready : s.blocked t = false) (pc : MutexPc)
    (hpc : pc.Observes ↔ (s.pc t).Observes) :
    WaitInv (s.goto t pc) W := by
  refine ⟨h.rep, h.unlinked, fun x => ?_, fun x hx => h.blocked_goto hready rfl pc hx⟩
  by_cases hxt : x = t
  · rw [hxt, h.mem_iff t, MutexSystem.goto_pc_self, hpc]
  · rw [h.mem_iff x, MutexSystem.goto_pc_of_ne s hxt]

omit [DecidableEq τ] in
/-- The waiting list does not depend on the owner. -/
theorem WaitInv.setOwner (h : WaitInv s W) (owner : Word) : WaitInv (s.setOwner owner) W :=
  { h with }

/-- A thread in the wait loop may block, and any thread may be woken. -/
theorem WaitInv.setBlocked (h : WaitInv s W) {b : Bool} (hb : b = true → s.pc t = .wait) :
    WaitInv { s with blocked := Function.update s.blocked t b } W := by
  refine ⟨h.rep, h.unlinked, h.mem_iff, fun x hx => ?_⟩
  change Function.update s.blocked t b x = true at hx
  by_cases hxt : x = t
  · rw [hxt, Function.update_self] at hx
    exact hxt ▸ hb hx
  · rw [Function.update_of_ne hxt] at hx
    exact h.blocked x hx

/-- `mutex_add_observer` appends the thread. -/
theorem WaitInv.addObserver (h : WaitInv s W) (hpc : s.pc t = .addObserver) :
    ∃ queue head, mutexAddObserver s t = some { s with
        waitQueue := queue
        mutex := { s.mutex with waitingThreads := head } } ∧
      WaitInv (MutexSystem.goto { s with
        waitQueue := queue
        mutex := { s.mutex with waitingThreads := head } } t .wait) (W ++ [t]) := by
  have ht : t ∉ W := fun hmem => by simpa [hpc, MutexPc.Observes] using (h.mem_iff t).mp hmem
  have hready : s.blocked t = false := h.ready (by simp [hpc])
  obtain ⟨queue, happend, hrep, houtside⟩ := dlAppend_spec h.rep ht
  refine ⟨queue, _, ?_, hrep, fun x hx => ?_, fun x => ?_,
    fun x hx => h.blocked_goto hready rfl .wait hx⟩
  · rw [mutexAddObserver, if_neg (not_not_intro (h.unlinked t ht)), happend]
    rfl
  · rw [List.mem_append, List.mem_singleton, not_or] at hx
    have hx' : x ∉ t :: W := fun hmem => (List.mem_cons.mp hmem).elim hx.2 hx.1
    exact (houtside x hx').1.trans (h.unlinked x hx.1)
  · rw [List.mem_append, List.mem_singleton, h.mem_iff x]
    by_cases hxt : x = t
    · subst hxt
      simp [MutexPc.Observes]
    · simp [MutexSystem.goto_pc_of_ne _ hxt, hxt]

/-- `mutex_remove_observer` unlinks the thread. -/
theorem WaitInv.removeObserver (h : WaitInv s W) (hpc : s.pc t = .removeObserver) :
    ∃ queue head, mutexRemoveObserver s t = some { s with
        waitQueue := queue
        mutex := { s.mutex with waitingThreads := head } } ∧
      WaitInv (MutexSystem.goto { s with
        waitQueue := queue
        mutex := { s.mutex with waitingThreads := head } } t .count) (W.erase t) := by
  have ht : t ∈ W := (h.mem_iff t).mpr (Or.inr hpc)
  have hready : s.blocked t = false := h.ready (by simp [hpc])
  obtain ⟨queue, hdelete, hrep, houtside⟩ := dlDelete_spec h.rep ht
  have hmem : ∀ x, x ∈ W.erase t ↔ x ≠ t ∧ x ∈ W := fun x => h.rep.nodup.mem_erase_iff
  have hne : ∀ x ∈ W.erase t, x ≠ t := fun x hx => ((hmem x).mp hx).1
  refine ⟨(queue.setNext t none).setPrev t none, (W.erase t).head?, ?_, ?_,
    fun x hx => ?_, fun x => ?_, fun x hx => h.blocked_goto hready rfl .count hx⟩
  · rw [mutexRemoveObserver, hdelete]
    rfl
  · exact hrep.congr (fun x hx => Links.setNext_next_of_ne _ (hne x hx) _)
      (fun x hx => Links.setPrev_prev_of_ne _ (hne x hx) _)
  · change ((queue.setNext t none).setPrev t none).next x = none
    by_cases hxt : x = t
    · rw [hxt]
      exact Function.update_self ..
    · have hx' : x ∉ W := fun hmemW => hx ((hmem x).mpr ⟨hxt, hmemW⟩)
      exact (Links.setNext_next_of_ne _ hxt _).trans ((houtside x hx').1.trans (h.unlinked x hx'))
  · rw [hmem, h.mem_iff x]
    by_cases hxt : x = t
    · subst hxt
      simp [MutexPc.Observes]
    · simp [MutexSystem.goto_pc_of_ne _ hxt, hxt]

variable {tid : τ → Word}

/-- The first compare-and-swap takes a free mutex but goes on to the waiting list, recognises the
thread's own mutex, and otherwise changes nothing. -/
theorem compareOwner_cases (ids : ThreadIds tid) (s : MutexSystem τ) (t : τ) :
    (s.mutex.owner = 0 ∧ compareOwner tid s t = (s.setOwner (tid t)).goto t .addObserver) ∨
    (s.mutex.owner = tid t ∧ compareOwner tid s t = s.goto t .count) ∨
    (s.mutex.owner ≠ 0 ∧ s.mutex.owner ≠ tid t ∧ compareOwner tid s t = s.goto t .addObserver) := by
  unfold compareOwner
  obtain ⟨hzero, hswap⟩ | ⟨hself, hswap⟩ | ⟨hzero, hself, hswap⟩ :=
    syncValCompareAndSwap_owner s.mutex.owner (tid t)
  · exact Or.inl ⟨hzero, by simp only [hswap, if_pos (ids.ne_zero t).symm]⟩
  · refine Or.inr (Or.inl ⟨hself, ?_⟩)
    simp only [hswap, if_neg (not_not_intro hself)]
    rfl
  · refine Or.inr (Or.inr ⟨hzero, hself, ?_⟩)
    simp only [hswap, if_pos hself]
    rfl

/-- The compare-and-swap of the wait loop takes a free mutex and blocks its thread, lets the owner
out, and blocks any other thread. -/
theorem schedulerWaitObjectAcquire_cases (ids : ThreadIds tid) (s : MutexSystem τ) (t : τ) :
    (s.mutex.owner = 0 ∧ schedulerWaitObjectAcquire tid s t =
      { s.setOwner (tid t) with blocked := Function.update s.blocked t true }) ∨
    (s.mutex.owner = tid t ∧ schedulerWaitObjectAcquire tid s t = s.goto t .removeObserver) ∨
    (s.mutex.owner ≠ 0 ∧ s.mutex.owner ≠ tid t ∧ schedulerWaitObjectAcquire tid s t =
      { s with blocked := Function.update s.blocked t true }) := by
  unfold schedulerWaitObjectAcquire
  obtain ⟨hzero, hswap⟩ | ⟨hself, hswap⟩ | ⟨hzero, hself, hswap⟩ :=
    syncValCompareAndSwap_owner s.mutex.owner (tid t)
  · refine Or.inl ⟨hzero, ?_⟩
    simp only [hswap, if_pos (ids.ne_zero t).symm]
    rfl
  · refine Or.inr (Or.inl ⟨hself, ?_⟩)
    simp only [hswap, if_neg (not_not_intro hself)]
    rfl
  · refine Or.inr (Or.inr ⟨hzero, hself, ?_⟩)
    simp only [hswap, if_pos hself]
    rfl

/-- The final release in terms of the waiting list. -/
theorem mutexReleaseAndWakeNextThread_owner (h : DLRep s.waitQueue s.mutex.waitingThreads W) :
    (mutexReleaseAndWakeNextThread tid s).mutex.owner = (W.head?.map tid).getD 0 := by
  unfold mutexReleaseAndWakeNextThread
  rw [h.head_eq]
  cases W.head? <;> rfl

/-- Every statement keeps the waiting list in order, and no assertion fails. -/
theorem WaitInv.exec (ids : ThreadIds tid) (h : WaitInv s W) (hready : s.blocked t = false)
    (hbusy : s.pc t ≠ .idle) :
    ∃ s' W', execStatement tid s t = some s' ∧ WaitInv s' W' := by
  cases hpc : s.pc t with
  | idle => exact absurd hpc hbusy
  | compare =>
    refine ⟨compareOwner tid s t, W, by rw [execStatement, hpc], ?_⟩
    obtain ⟨_, heq⟩ | ⟨_, heq⟩ | ⟨_, _, heq⟩ := compareOwner_cases ids s t
    · rw [heq]
      exact (h.setOwner (tid t)).goto hready .addObserver (by simp [MutexSystem.setOwner, hpc,
        MutexPc.Observes])
    · rw [heq]
      exact h.goto hready .count (by simp [hpc, MutexPc.Observes])
    · rw [heq]
      exact h.goto hready .addObserver (by simp [hpc, MutexPc.Observes])
  | addObserver =>
    obtain ⟨queue, head, hadd, hinv⟩ := h.addObserver hpc
    exact ⟨_, _, by rw [execStatement, hpc]; dsimp only; rw [hadd]; rfl, hinv⟩
  | wait =>
    refine ⟨schedulerWaitObjectAcquire tid s t, W, by rw [execStatement, hpc], ?_⟩
    obtain ⟨_, heq⟩ | ⟨_, heq⟩ | ⟨_, _, heq⟩ := schedulerWaitObjectAcquire_cases ids s t
    · rw [heq]
      exact (h.setOwner _).setBlocked fun _ => hpc
    · rw [heq]
      exact h.goto hready .removeObserver (by simp [hpc, MutexPc.Observes])
    · rw [heq]
      exact h.setBlocked fun _ => hpc
  | removeObserver =>
    obtain ⟨queue, head, hremove, hinv⟩ := h.removeObserver hpc
    exact ⟨_, _, by rw [execStatement, hpc]; dsimp only; rw [hremove]; rfl, hinv⟩
  | count =>
    have hcount : WaitInv (countNested s t) W := { h with }
    exact ⟨_, W, by rw [execStatement, hpc], hcount.goto hready .idle
      (by simp [countNested, hpc, MutexPc.Observes])⟩
  | uncount =>
    have huncount : WaitInv (uncountNested s t) W := { h with }
    exact ⟨_, W, by rw [execStatement, hpc], huncount.goto hready .test
      (by simp [uncountNested, hpc, MutexPc.Observes])⟩
  | test =>
    refine ⟨_, W, by rw [execStatement, hpc], h.goto hready _ ?_⟩
    split <;> simp [hpc, MutexPc.Observes]
  | wake =>
    refine ⟨_, W, by rw [execStatement, hpc], ?_⟩
    have hwake : WaitInv (mutexReleaseAndWakeNextThread tid s) W ∧
        (mutexReleaseAndWakeNextThread tid s).blocked t = false ∧
        (mutexReleaseAndWakeNextThread tid s).pc = s.pc := by
      unfold mutexReleaseAndWakeNextThread
      cases s.mutex.waitingThreads with
      | none => exact ⟨h.setOwner 0, hready, rfl⟩
      | some next =>
        refine ⟨(h.setOwner (tid next)).setBlocked (b := false) (fun hb => by cases hb), ?_, rfl⟩
        by_cases ht : t = next
        · exact ht ▸ Function.update_self ..
        · exact (Function.update_of_ne ht ..).trans hready
    exact hwake.1.goto hwake.2.1 .idle (by simp [hwake.2.2, hpc, MutexPc.Observes])

/-- Everything a statement of a thread can do. -/
inductive Executes (tid : τ → Word) (s : MutexSystem τ) (t : τ) : MutexSystem τ → Prop
  | take (hpc : s.pc t = .compare) (hfree : s.mutex.owner = 0) :
      Executes tid s t ((s.setOwner (tid t)).goto t .addObserver)
  | recognise (hpc : s.pc t = .compare) (howner : s.mutex.owner = tid t) :
      Executes tid s t (s.goto t .count)
  | miss (hpc : s.pc t = .compare) (howned : s.mutex.owner ≠ 0) (hother : s.mutex.owner ≠ tid t) :
      Executes tid s t (s.goto t .addObserver)
  | enqueue (hpc : s.pc t = .addObserver) (queue : Links τ) (head : Option τ) :
      Executes tid s t (MutexSystem.goto { s with
        waitQueue := queue
        mutex := { s.mutex with waitingThreads := head } } t .wait)
  | takeAndBlock (hpc : s.pc t = .wait) (hfree : s.mutex.owner = 0) :
      Executes tid s t { s.setOwner (tid t) with blocked := Function.update s.blocked t true }
  | enter (hpc : s.pc t = .wait) (howner : s.mutex.owner = tid t) :
      Executes tid s t (s.goto t .removeObserver)
  | block (hpc : s.pc t = .wait) (howned : s.mutex.owner ≠ 0) (hother : s.mutex.owner ≠ tid t) :
      Executes tid s t { s with blocked := Function.update s.blocked t true }
  | dequeue (hpc : s.pc t = .removeObserver) (queue : Links τ) (head : Option τ) :
      Executes tid s t (MutexSystem.goto { s with
        waitQueue := queue
        mutex := { s.mutex with waitingThreads := head } } t .count)
  | count (hpc : s.pc t = .count) : Executes tid s t ((countNested s t).goto t .idle)
  | uncount (hpc : s.pc t = .uncount) : Executes tid s t ((uncountNested s t).goto t .test)
  | again (hpc : s.pc t = .test) (hnested : s.mutex.nested ≠ 0) : Executes tid s t (s.goto t .idle)
  | last (hpc : s.pc t = .test) (hnested : s.mutex.nested = 0) : Executes tid s t (s.goto t .wake)
  | wake (hpc : s.pc t = .wake) :
      Executes tid s t ((mutexReleaseAndWakeNextThread tid s).goto t .idle)

/-- A statement does one of these. -/
theorem WaitInv.executes (ids : ThreadIds tid) (h : WaitInv s W)
    (hexec : execStatement tid s t = some s') : Executes tid s t s' := by
  unfold execStatement at hexec
  cases hpc : s.pc t with
  | idle =>
    simp only [hpc] at hexec
    cases hexec
  | compare =>
    simp only [hpc] at hexec
    cases hexec
    obtain ⟨hfree, heq⟩ | ⟨howner, heq⟩ | ⟨howned, hother, heq⟩ := compareOwner_cases ids s t
    · exact heq ▸ .take hpc hfree
    · exact heq ▸ .recognise hpc howner
    · exact heq ▸ .miss hpc howned hother
  | addObserver =>
    obtain ⟨queue, head, hadd, _⟩ := h.addObserver hpc
    simp only [hpc, hadd, Option.map_some] at hexec
    cases hexec
    exact .enqueue hpc queue head
  | wait =>
    simp only [hpc] at hexec
    cases hexec
    obtain ⟨hfree, heq⟩ | ⟨howner, heq⟩ | ⟨howned, hother, heq⟩ :=
      schedulerWaitObjectAcquire_cases ids s t
    · exact heq ▸ .takeAndBlock hpc hfree
    · exact heq ▸ .enter hpc howner
    · exact heq ▸ .block hpc howned hother
  | removeObserver =>
    obtain ⟨queue, head, hremove, _⟩ := h.removeObserver hpc
    simp only [hpc, hremove, Option.map_some] at hexec
    cases hexec
    exact .dequeue hpc queue head
  | count =>
    simp only [hpc] at hexec
    exact Option.some.inj hexec ▸ .count hpc
  | uncount =>
    simp only [hpc] at hexec
    exact Option.some.inj hexec ▸ .uncount hpc
  | test =>
    simp only [hpc] at hexec
    cases hexec
    split
    · next hnested => exact .last hpc hnested
    · next hnested => exact .again hpc hnested
  | wake =>
    simp only [hpc] at hexec
    exact Option.some.inj hexec ▸ .wake hpc

/-- Every step keeps the waiting list in order. -/
theorem WaitInv.step (ids : ThreadIds tid) {may : MutexSystem τ → τ → Prop}
    (hstep : MutexStep tid may s s') (h : WaitInv s W) :
    ∃ W', WaitInv s' W' := by
  obtain ⟨t, hready, _, ⟨hidle, rfl⟩ | ⟨hidle, _, rfl⟩ | ⟨hbusy, hexec⟩⟩ := hstep.exists_thread
  · exact ⟨W, h.goto hready .compare (by simp [hidle, MutexPc.Observes])⟩
  · exact ⟨W, h.goto hready .uncount (by simp [hidle, MutexPc.Observes])⟩
  · obtain ⟨s₁, W', hexec', hinv⟩ := h.exec ids hready hbusy
    obtain rfl := Option.some.inj (hexec'.symm.trans hexec)
    exact ⟨W', hinv⟩

/-- In every run the waiting list is in order. -/
theorem WaitInv.of_reachable (ids : ThreadIds tid) {may : MutexSystem τ → τ → Prop}
    (hs : MutexReachable tid may s) :
    ∃ W, WaitInv s W := by
  induction hs with
  | refl => exact ⟨[], mutexInit_waitInv⟩
  | tail _ hstep ih =>
    obtain ⟨W, h⟩ := ih
    exact h.step ids hstep

/-- The program counters at which a thread is the owner whatever its depth. -/
def MutexPc.Owns : MutexPc → Prop
  | .removeObserver | .count | .uncount | .test | .wake => True
  | .idle | .compare | .addObserver | .wait => False

/-- The owner field and the nesting count follow the owning thread. -/
structure OwnerInv (tid : τ → Word) (s : MutexSystem τ) : Prop where
  owner : ∀ t, 0 < s.depth t ∨ (s.pc t).Owns → s.mutex.owner = tid t
  nested : ∀ t, s.mutex.owner = tid t → s.mutex.nested.toNat = s.depth t
  free : s.mutex.owner = 0 → s.mutex.nested = 0
  last : ∀ t, s.pc t = .wake → s.depth t = 0
  held : ∀ t, s.pc t = .uncount → 0 < s.depth t

omit [DecidableEq τ] in
theorem mutexInit_ownerInv (ids : ThreadIds tid) : OwnerInv tid (mutexInit τ) where
  owner := fun t h => by simp [mutexInit, MutexPc.Owns] at h
  nested := fun t h => absurd h.symm (ids.ne_zero t)
  free := fun _ => rfl
  last := fun _ _ => rfl
  held := fun _ h => by cases h

omit [DecidableEq τ] in
/-- A thread at a statement of the owner is the owner. -/
theorem OwnerInv.owner_of_pc (h : OwnerInv tid s) {pc : MutexPc} (hpc : s.pc t = pc) (howns : pc.Owns) :
    s.mutex.owner = tid t :=
  h.owner t (Or.inr (hpc ▸ howns))

/-- A move that takes only the owner to where the owner is. -/
theorem OwnerInv.goto (h : OwnerInv tid s) (t : τ) (pc : MutexPc)
    (howns : pc.Owns → s.mutex.owner = tid t)
    (hlast : pc = .wake → s.depth t = 0 := by simp)
    (hheld : pc = .uncount → 0 < s.depth t := by simp) : OwnerInv tid (s.goto t pc) := by
  have hsplit : ∀ x, (x = t ∧ (s.goto t pc).pc x = pc) ∨ (s.goto t pc).pc x = s.pc x := by
    intro x
    by_cases hx : x = t
    · exact Or.inl ⟨hx, hx ▸ s.goto_pc_self t pc⟩
    · exact Or.inr (s.goto_pc_of_ne hx pc)
  refine ⟨fun x hx => ?_, h.nested, h.free, fun x hx => ?_, fun x hx => ?_⟩
  · obtain ⟨rfl, hpc⟩ | hpc := hsplit x
    · rw [hpc] at hx
      exact hx.elim (fun hdepth => h.owner x (Or.inl hdepth)) howns
    · rw [hpc] at hx
      exact h.owner x hx
  · obtain ⟨rfl, hpc⟩ | hpc := hsplit x
    · exact hlast (hpc.symm.trans hx)
    · exact h.last x (hpc.symm.trans hx)
  · obtain ⟨rfl, hpc⟩ | hpc := hsplit x
    · exact hheld (hpc.symm.trans hx)
    · exact h.held x (hpc.symm.trans hx)

omit [DecidableEq τ] in
/-- While no thread owns the mutex, the owner field may be given any value. -/
theorem OwnerInv.give (h : OwnerInv tid s) (hnobody : ∀ t, ¬ (0 < s.depth t ∨ (s.pc t).Owns))
    (hzero : s.mutex.nested = 0) (owner : Word) :
    OwnerInv tid (s.setOwner owner) := by
  refine ⟨fun t ht => absurd ht (hnobody t), fun t _ => ?_, fun _ => hzero, h.last, h.held⟩
  have hdepth : s.depth t = 0 := Nat.eq_zero_of_not_pos fun hpos => hnobody t (Or.inl hpos)
  change s.mutex.nested.toNat = s.depth t
  rw [hzero, hdepth]
  rfl

omit [DecidableEq τ] in
/-- A free mutex may be given to any thread. -/
theorem OwnerInv.take (ids : ThreadIds tid) (h : OwnerInv tid s) (hfree : s.mutex.owner = 0) (t : τ) :
    OwnerInv tid (s.setOwner (tid t)) :=
  h.give (fun x hx => ids.ne_zero x ((h.owner x hx).symm.trans hfree)) (h.free hfree) (tid t)

/-- The last release may hand the mutex to anybody. -/
theorem OwnerInv.handOver (ids : ThreadIds tid) (h : OwnerInv tid s) (hpc : s.pc t = .wake)
    (owner : Word) :
    OwnerInv tid ((s.setOwner owner).goto t .idle) := by
  have howner : s.mutex.owner = tid t := h.owner_of_pc hpc trivial
  have hzero : s.mutex.nested.toNat = 0 := (h.nested t howner).trans (h.last t hpc)
  have hidle : OwnerInv tid (s.goto t .idle) :=
    h.goto t .idle False.elim
  refine hidle.give (fun x hx => ?_) (BitVec.eq_of_toNat_eq hzero) owner
  obtain rfl : x = t := ids.injective ((hidle.owner x hx).symm.trans howner)
  rw [MutexSystem.goto_pc_self] at hx
  exact hx.elim (fun hpos => Nat.lt_irrefl 0 (h.last x hpc ▸ hpos)) fun howns => howns

/-- The owner may change the count and its depth together. -/
theorem OwnerInv.recount (ids : ThreadIds tid) (h : OwnerInv tid s) (howner : s.mutex.owner = tid t)
    (hwake : s.pc t ≠ .wake)
    (huncount : s.pc t ≠ .uncount) {nested : Word} {depth : ℕ} (hdepth : nested.toNat = depth) :
    OwnerInv tid { s with
      mutex := { s.mutex with nested := nested }
      depth := Function.update s.depth t depth } := by
  have hother : ∀ x, x ≠ t → Function.update s.depth t depth x = s.depth x := fun x hx =>
    Function.update_of_ne hx ..
  refine ⟨fun x hx => ?_, fun x hx => ?_, fun hx => ?_, fun x hx => ?_, fun x hx => ?_⟩
  · by_cases hxt : x = t
    · exact hxt ▸ howner
    · dsimp only at hx
      rw [hother x hxt] at hx
      exact h.owner x hx
  · obtain rfl : t = x := ids.injective (howner.symm.trans hx)
    change nested.toNat = Function.update s.depth t depth t
    rw [Function.update_self, hdepth]
  · exact absurd (howner.symm.trans hx) (ids.ne_zero t)
  · exact (hother x fun heq => hwake (heq ▸ hx)).trans (h.last x hx)
  · change 0 < Function.update s.depth t depth x
    rw [hother x fun heq => huncount (heq ▸ hx)]
    exact h.held x hx

/-- An acquire that returns counts one more, as long as the counter has room. -/
theorem OwnerInv.count (ids : ThreadIds tid) (h : OwnerInv tid s) (hpc : s.pc t = .count)
    (hbound : s.depth t + 1 < 2 ^ 32) :
    OwnerInv tid ((countNested s t).goto t .idle) := by
  have howner : s.mutex.owner = tid t := h.owner_of_pc hpc trivial
  have hnested : (s.mutex.nested + 1).toNat = s.depth t + 1 := by
    rw [BitVec.toNat_add, h.nested t howner]
    exact Nat.mod_eq_of_lt hbound
  have hidle : OwnerInv tid (s.goto t .idle) :=
    h.goto t .idle False.elim
  exact hidle.recount ids howner (by simp) (by simp) hnested

/-- A release that begins counts one less. -/
theorem OwnerInv.uncount (ids : ThreadIds tid) (h : OwnerInv tid s) (hpc : s.pc t = .uncount) :
    OwnerInv tid ((uncountNested s t).goto t .test) := by
  have howner : s.mutex.owner = tid t := h.owner_of_pc hpc trivial
  have hnested : (s.mutex.nested - 1).toNat = s.depth t - 1 := by
    have htoNat := h.nested t howner
    have hpos := h.held t hpc
    bv_omega
  have htest : OwnerInv tid (s.goto t .test) :=
    h.goto t .test (fun _ => howner)
  exact htest.recount ids howner (by simp) (by simp) hnested

/-- The `nested` counter does not overflow: an acquire returns only below depth `2 ^ 32`. -/
def DepthBounded (s : MutexSystem τ) (t : τ) : Prop := s.pc t = .count → s.depth t + 1 < 2 ^ 32

instance (s : MutexSystem τ) (t : τ) : Decidable (DepthBounded s t) :=
  inferInstanceAs (Decidable (_ → _))

/-- Every statement keeps the owner and the count in step with the threads. -/
theorem OwnerInv.exec (ids : ThreadIds tid) (h : OwnerInv tid s) (hwait : WaitInv s W)
    (hbound : DepthBounded s t)
    (hexec : execStatement tid s t = some s') : OwnerInv tid s' := by
  cases hwait.executes ids hexec with
  | take hpc hfree => exact (h.take ids hfree t).goto t .addObserver False.elim
  | recognise hpc howner => exact h.goto t .count fun _ => howner
  | miss hpc _ _ => exact h.goto t .addObserver False.elim
  | enqueue hpc queue head =>
    have hmoved := h.goto t .wait False.elim
    exact { hmoved with }
  | takeAndBlock hpc hfree =>
    have htaken := h.take ids hfree t
    exact { htaken with }
  | enter hpc howner => exact h.goto t .removeObserver fun _ => howner
  | block hpc _ _ => exact { h with }
  | dequeue hpc queue head =>
    have hmoved := h.goto t .count fun _ => h.owner_of_pc hpc trivial
    exact { hmoved with }
  | count hpc => exact h.count ids hpc (hbound hpc)
  | uncount hpc => exact h.uncount ids hpc
  | again hpc hnested => exact h.goto t .idle False.elim
  | last hpc hnested =>
    have howner := h.owner_of_pc hpc trivial
    have hdepth : s.depth t = 0 := by
      rw [← h.nested t howner, hnested]
      rfl
    exact h.goto t .wake (fun _ => howner) fun _ => hdepth
  | wake hpc =>
    unfold mutexReleaseAndWakeNextThread
    cases s.mutex.waitingThreads with
    | none => exact h.handOver ids hpc 0
    | some next =>
      have hgiven := h.handOver ids hpc (tid next)
      exact { hgiven with }

/-- Every step keeps the invariant, as long as the counter does not overflow. -/
theorem OwnerInv.step (ids : ThreadIds tid) (hwait : WaitInv s W) (h : OwnerInv tid s)
    (hstep : MutexStep tid DepthBounded s s') :
    OwnerInv tid s' := by
  obtain ⟨t, _, hbound, ⟨_, rfl⟩ | ⟨_, hheld, rfl⟩ | ⟨_, hexec⟩⟩ := hstep.exists_thread
  · exact h.goto t .compare False.elim
  · exact h.goto t .uncount (fun _ => h.owner t (Or.inl hheld)) (by simp) fun _ => hheld
  · exact h.exec ids hwait hbound hexec

/-- In every run without overflow the owner and the count are in step with the threads. -/
theorem OwnerInv.of_reachable (ids : ThreadIds tid) (hs : MutexReachable tid DepthBounded s) :
    OwnerInv tid s := by
  induction hs with
  | refl => exact mutexInit_ownerInv ids
  | tail hrun hstep ih =>
    obtain ⟨W, hwait⟩ := WaitInv.of_reachable ids hrun
    exact ih.step ids hwait hstep

end ChrisOS.Kern
