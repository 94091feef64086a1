import ChrisOS.Kern.TimerRun

/-!
# The order of the timer lists

Whoever reads the timer lists looks at the head only, or stops at the first timer that is
late. What they find is right because the near list is kept sorted by delay and the far list by
time, through insertions, ticks that count all delays down together, deletions and the moves
from the far to the near list.

A far timer moves when it is within ten seconds of the clock. That threshold is a time itself,
so it is right as long as the clock is ten seconds short of the last 64-bit second.
-/

namespace ChrisOS.Kern

open ChrisOS.Utils

variable {κ : Type*}

/-- No delay goes below the least `long`. -/
def DelaysFit (s : Timers κ) (usecs : Word) : Prop :=
  ∀ nt ∈ s.nearTimers, -2 ^ 31 ≤ nt.delay.toInt - usecs.toNat

/-- One step of the timers alone; a callback makes any legal calls. -/
inductive TimersStep : Timers κ → Timers κ → Prop
  | call (s : Timers κ) (c : TimerCall κ) (hlegal : c.Legal) : TimersStep s (c.run s)
  | tick (s : Timers κ) (allocated : Word → Bool) (usecs : Word) (hfits : DelaysFit s usecs) :
      TimersStep s (clockTick allocated s usecs)
  | handle (s : Timers κ) (calls : List (TimerCall κ)) (hlegal : ∀ c ∈ calls, c.Legal) :
      TimersStep s (timersHandleNearTimers (fun _ _ s => calls.foldl TimerCall.run s) s).1

/-- No timers yet, at some time. -/
def Timers.initial (utc : Timeval) : Timers κ := ⟨0, [], [], utc⟩

/-- The states of runs that begin at a given time. -/
def TimersReachable (utc : Timeval) (s : Timers κ) : Prop :=
  Relation.ReflTransGen TimersStep (Timers.initial utc) s

/-- Every step of a run with its log is one of the timers. -/
theorem TimerStep.timers {r r' : TimerRun κ} (h : TimerStep r r') :
    TimersStep r.timers r'.timers := by
  cases h with
  | call c hlegal =>
    rw [TimerRun.call_timers]
    exact .call r.timers c hlegal
  | tick allocated usecs hfits => exact .tick r.timers allocated usecs hfits.2
  | handle calls hlegal =>
    rw [TimerRun.handle_timers]
    exact .handle r.timers calls hlegal

/-- The near list is sorted by delay and the far list by time, of which all are normalised. -/
structure TimersSorted (s : Timers κ) : Prop where
  near : s.nearTimers.Pairwise fun a b => a.delay.toInt ≤ b.delay.toInt
  far : s.farTimers.Pairwise fun a b => a.time.usecs ≤ b.time.usecs
  normal : ∀ ft ∈ s.farTimers, ft.time.Normal

/-- A sort by a comparison that agrees with a key on the list sorts by the key. -/
theorem pairwise_insertionSort_key {α : Type*} (r : α → α → Prop) [DecidableRel r] (key : α → ℤ)
    (l : List α) (h : ∀ a ∈ l, ∀ b ∈ l, r a b ↔ key a ≤ key b) :
    (l.insertionSort r).Pairwise fun a b => key a ≤ key b := by
  have hmap := List.map_insertionSort r (· ≤ ·) key l h
  rw [← List.pairwise_map (R := (· ≤ ·)), hmap]
  exact List.pairwise_insertionSort _ _

theorem timerNearTimersCmp_le_zero (a b : NearTimer κ) :
    timerNearTimersCmp a b ≤ 0 ↔ a.delay.toInt ≤ b.delay.toInt := by
  unfold timerNearTimersCmp
  split
  · omega
  · split <;> omega

variable {s : Timers κ}

/-- The near list is sorted after every insertion. -/
theorem TimersSorted.scheduleDelayWithId (h : TimersSorted s) (allocated : Bool) (id usecs : Word)
    (callback : Option κ) :
    TimersSorted (timerScheduleDelayWithId allocated s id usecs callback) := by
  unfold timerScheduleDelayWithId
  split
  · refine ⟨?_, h.far, h.normal⟩
    exact pairwise_insertionSort_key _ (fun nt : NearTimer κ => nt.delay.toInt) _
      fun a _ b _ => timerNearTimersCmp_le_zero a b
  · exact h

/-- The far list is sorted after every insertion of a normalised time. -/
theorem TimersSorted.scheduleAt (h : TimersSorted s) (allocated : Bool) {time : Timeval}
    (htime : time.Normal) (callback : Option κ) :
    TimersSorted (timerScheduleAt allocated s time callback).1 := by
  unfold timerScheduleAt
  split
  · have hnormal : ∀ ft ∈ ⟨timerNextId s.nextTimerId, time, callback⟩ :: s.farTimers,
        ft.time.Normal := List.forall_mem_cons.mpr ⟨htime, h.normal⟩
    refine ⟨h.near, ?_, fun ft hft => hnormal ft ((List.mem_insertionSort _).mp hft)⟩
    exact pairwise_insertionSort_key _ (fun ft : FarTimer κ => ft.time.usecs) _
      fun a ha b hb => timeCmp_le_zero (hnormal a ha) (hnormal b hb)
  · exact h

/-- A cancellation deletes from the lists. -/
theorem TimersSorted.cancel (h : TimersSorted s) (id : Word) : TimersSorted (timerCancel s id).1 := by
  unfold timerCancel
  split
  · exact ⟨h.near.sublist List.eraseP_sublist, h.far, h.normal⟩
  · split
    · exact ⟨h.near, h.far.sublist List.eraseP_sublist,
        fun ft hft => h.normal ft (List.eraseP_subset hft)⟩
    · exact h

/-- Every legal call keeps the lists sorted. -/
theorem TimersSorted.call (h : TimersSorted s) {c : TimerCall κ} (hlegal : c.Legal) :
    TimersSorted (c.run s) := by
  cases c with
  | scheduleDelay allocated useconds callback =>
    have hnext : TimersSorted { s with nextTimerId := timerNextId s.nextTimerId } := { h with }
    exact hnext.scheduleDelayWithId allocated _ useconds callback
  | scheduleAt allocated time callback => exact h.scheduleAt allocated hlegal callback
  | cancel id => exact h.cancel id

/-- Legal calls one after another keep the lists sorted. -/
theorem TimersSorted.calls (h : TimersSorted s) {calls : List (TimerCall κ)}
    (hlegal : ∀ c ∈ calls, c.Legal) : TimersSorted (calls.foldl TimerCall.run s) := by
  induction calls generalizing s with
  | nil => exact h
  | cons c rest ih =>
    rw [List.forall_mem_cons] at hlegal
    exact ih (h.call hlegal.1) hlegal.2

/-- Handling near timers keeps the lists sorted, whatever legal calls a callback makes. -/
theorem TimersSorted.handle (h : TimersSorted s) {calls : List (TimerCall κ)}
    (hlegal : ∀ c ∈ calls, c.Legal) :
    TimersSorted (timersHandleNearTimers (fun _ _ s => calls.foldl TimerCall.run s) s).1 := by
  unfold timersHandleNearTimers
  cases s.nearTimers with
  | nil => exact h
  | cons timer rest =>
    dsimp only
    split
    · cases timer.callback with
      | none => exact h.cancel timer.id
      | some callback => exact (h.calls hlegal).cancel timer.id
    · exact h

/-- The loop over the far timers leaves those from the first that is late on. -/
theorem updateFarTimersFrom_far (allocated : Word → Bool) (threshold : Timeval)
    (l : List (FarTimer κ)) (s : Timers κ) (hl : s.farTimers = l) :
    (updateFarTimersFrom allocated threshold l s).farTimers =
        l.dropWhile (timeCmp ·.time threshold ≤ 0) ∧
      (updateFarTimersFrom allocated threshold l s).timeNowUtc = s.timeNowUtc := by
  induction l generalizing s with
  | nil => exact ⟨hl, rfl⟩
  | cons ft rest ih =>
    by_cases hnear : timeCmp ft.time threshold ≤ 0
    · obtain ⟨hfar, _, hutc⟩ := timersConvertFarToNear_keeps (allocated ft.id) s ft
      rw [hl] at hfar
      obtain ⟨hfar', hutc'⟩ := ih _ hfar
      rw [updateFarTimersFrom_of_near hnear, List.dropWhile_cons_of_pos (by simpa using hnear)]
      exact ⟨hfar', hutc'.trans hutc⟩
    · rw [updateFarTimersFrom_of_late hnear, List.dropWhile_cons_of_neg (by simpa using hnear)]
      exact ⟨hl, rfl⟩

/-- The loop over the far timers keeps the lists sorted. -/
theorem TimersSorted.updateFrom (h : TimersSorted s) (allocated : Word → Bool) (threshold : Timeval)
    (l : List (FarTimer κ)) :
    TimersSorted (updateFarTimersFrom allocated threshold l s) := by
  induction l generalizing s with
  | nil => exact h
  | cons ft rest ih =>
    unfold updateFarTimersFrom
    split
    · have htail : TimersSorted { s with farTimers := s.farTimers.tail } :=
        ⟨h.near, h.far.sublist (List.tail_sublist _),
          fun ft hft => h.normal ft (List.mem_of_mem_tail hft)⟩
      exact ih (htail.scheduleDelayWithId (allocated ft.id) ft.id _ ft.callback)
    · exact h

/-- Counting all delays down together keeps them sorted. -/
theorem TimersSorted.countDown (h : TimersSorted s) {usecs : Word} (hfits : DelaysFit s usecs) :
    (s.nearTimers.map fun nt => { nt with delay := nt.delay - usecs }).Pairwise
      fun a b => a.delay.toInt ≤ b.delay.toInt := by
  rw [List.pairwise_map]
  refine h.near.imp_of_mem fun {a b} ha hb hab => ?_
  rw [toInt_sub_toNat (hfits a ha), toInt_sub_toNat (hfits b hb)]
  omega

/-- A tick that lets no delay wrap keeps the lists sorted. -/
theorem TimersSorted.tick (h : TimersSorted s) (allocated : Word → Bool) {usecs : Word}
    (hfits : DelaysFit s usecs) : TimersSorted (clockTick allocated s usecs) := by
  let s' : Timers κ :=
    { s with
      timeNowUtc := timeAdd s.timeNowUtc ⟨0, usecs⟩
      nearTimers := s.nearTimers.map fun nt => { nt with delay := nt.delay - usecs } }
  have hsorted : TimersSorted s' := ⟨h.countDown hfits, h.far, h.normal⟩
  exact hsorted.updateFrom allocated _ s'.farTimers

/-- Every step keeps the lists sorted. -/
theorem TimersSorted.step {s s' : Timers κ} (h : TimersSorted s) (hstep : TimersStep s s') :
    TimersSorted s' := by
  cases hstep with
  | call c hlegal => exact h.call hlegal
  | tick allocated usecs hfits => exact h.tick allocated hfits
  | handle calls hlegal => exact h.handle hlegal

/-- The lists are sorted in every run. -/
theorem TimersSorted.of_reachable {utc : Timeval} (hs : TimersReachable utc s) : TimersSorted s := by
  induction hs with
  | refl => exact ⟨.nil, .nil, List.forall_mem_nil _⟩
  | tail _ hstep ih => exact ih.step hstep

/-- If the first delay is not over, none is. -/
theorem TimersSorted.pos_of_handle (h : TimersSorted s) {invoke : Word → κ → Timers κ → Timers κ}
    (hidle : (timersHandleNearTimers invoke s).2 = false) :
    (timersHandleNearTimers invoke s).1 = s ∧ ∀ nt ∈ s.nearTimers, 0 < nt.delay.toInt := by
  have hnear := h.near
  unfold timersHandleNearTimers at hidle ⊢
  cases hlist : s.nearTimers with
  | nil => exact ⟨rfl, List.forall_mem_nil _⟩
  | cons timer rest =>
    rw [hlist] at hnear
    simp only [hlist] at hidle
    split at hidle
    · cases hidle
    · next hpos =>
      dsimp only
      rw [if_neg hpos]
      refine ⟨rfl, List.forall_mem_cons.mpr ⟨by omega, fun nt hnt => ?_⟩⟩
      have hle := List.rel_of_pairwise_cons hnear hnt
      omega

/-- The head of the near list has the smallest delay. -/
theorem TimersSorted.nextDelay (h : TimersSorted s) : (timersNextDelay s).toInt =
      ((s.nearTimers.map (·.delay.toInt)).min?.map (max 0)).getD (-1) := by
  have hnear := h.near
  unfold timersNextDelay
  cases hlist : s.nearTimers with
  | nil => rfl
  | cons timer rest =>
    rw [hlist] at hnear
    have hmin : ((timer :: rest).map (·.delay.toInt)).min? = some timer.delay.toInt := by
      refine List.min?_eq_some_iff.mpr ⟨List.mem_cons_self, fun delay hdelay => ?_⟩
      obtain ⟨nt, hnt, rfl⟩ := List.mem_map.mp hdelay
      rcases List.mem_cons.mp hnt with rfl | hnt
      · exact Int.le_refl _
      · exact List.rel_of_pairwise_cons hnear hnt
    rw [hmin]
    change _ = max 0 timer.delay.toInt
    dsimp only
    split
    · next hneg =>
      rw [Int.max_eq_left (by omega)]
      rfl
    · next hnonneg => rw [Int.max_eq_right (by omega)]

/-- Ten seconds on, the clock does not overflow. -/
def ThresholdFits (now : Timeval) : Prop :=
  now.usecs + nearThresholdSecs.toNat * 1000000 < 2 ^ 64 * 1000000

/-- What is left on a sorted list after the timers up to the threshold is past the threshold. -/
theorem lt_of_mem_dropWhile {threshold : Timeval} (hthreshold : threshold.Normal)
    {l : List (FarTimer κ)} (hl : l.Pairwise fun a b => a.time.usecs ≤ b.time.usecs)
    (hnormal : ∀ ft ∈ l, ft.time.Normal) {ft : FarTimer κ}
    (hft : ft ∈ l.dropWhile (timeCmp ·.time threshold ≤ 0)) :
    threshold.usecs < ft.time.usecs := by
  induction l with
  | nil => cases hft
  | cons first rest ih =>
    rw [List.forall_mem_cons] at hnormal
    have hfirst := timeCmp_le_zero hnormal.1 hthreshold
    by_cases hnear : timeCmp first.time threshold ≤ 0
    · rw [List.dropWhile_cons_of_pos (by simpa using hnear)] at hft
      exact ih hl.of_cons hnormal.2 hft
    · rw [List.dropWhile_cons_of_neg (by simpa using hnear)] at hft
      rw [hfirst] at hnear
      rcases List.mem_cons.mp hft with rfl | hrest
      · omega
      · have hle := List.rel_of_pairwise_cons hl hrest
        omega

/-- After a tick no far timer is due within ten seconds. -/
theorem TimersSorted.far_of_tick (h : TimersSorted s) (allocated : Word → Bool) (usecs : Word)
    (hfits : ThresholdFits (clockTick allocated s usecs).timeNowUtc) :
    ∀ ft ∈ (clockTick allocated s usecs).farTimers,
      (clockTick allocated s usecs).timeNowUtc.usecs + nearThresholdSecs.toNat * 1000000 <
        ft.time.usecs := by
  -- the far list does not depend on the delays, so they may wrap here
  obtain ⟨hfar, hutc⟩ := updateFarTimersFrom_far allocated
    (timeAdd (timeAdd s.timeNowUtc ⟨0, usecs⟩) ⟨nearThresholdSecs, 0⟩) s.farTimers
    { s with
      timeNowUtc := timeAdd s.timeNowUtc ⟨0, usecs⟩
      nearTimers := s.nearTimers.map fun nt => { nt with delay := nt.delay - usecs } } rfl
  change (clockTick allocated s usecs).farTimers = _ at hfar
  change (clockTick allocated s usecs).timeNowUtc = timeAdd s.timeNowUtc ⟨0, usecs⟩ at hutc
  obtain ⟨hnormal, husecs⟩ := timeAdd_secs_spec (timeAdd s.timeNowUtc ⟨0, usecs⟩) nearThresholdSecs
  intro ft hft
  rw [hfar] at hft
  rw [hutc] at hfits ⊢
  unfold ThresholdFits at hfits
  have hthreshold := lt_of_mem_dropWhile hnormal h.far h.normal hft
  -- a clock before zero only moves the threshold on, by the whole range of times
  omega

/-- The lists are sorted; when handling finds nothing to do every delay is positive; the next delay
is the smallest, or zero if that is over, or -1 without near timers; and a tick leaves no far timer
that is due within ten seconds of the clock. -/
structure NoneOverlooked (s : Timers κ) : Prop where
  near : s.nearTimers.Pairwise fun a b => a.delay.toInt ≤ b.delay.toInt
  far : s.farTimers.Pairwise fun a b => a.time.usecs ≤ b.time.usecs
  idle : ∀ invoke, (timersHandleNearTimers invoke s).2 = false →
    ∀ nt ∈ (timersHandleNearTimers invoke s).1.nearTimers, 0 < nt.delay.toInt
  next : (timersNextDelay s).toInt =
    ((s.nearTimers.map (·.delay.toInt)).min?.map (max 0)).getD (-1)
  moved : ∀ allocated usecs, ThresholdFits (clockTick allocated s usecs).timeNowUtc →
    ∀ ft ∈ (clockTick allocated s usecs).farTimers,
      (clockTick allocated s usecs).timeNowUtc.usecs + nearThresholdSecs.toNat * 1000000 <
        ft.time.usecs

/-- In every run no due timer is overlooked. -/
theorem timers_none_overlooked {utc : Timeval} {s : Timers κ} (hs : TimersReachable utc s) :
    NoneOverlooked s := by
  have hsorted := TimersSorted.of_reachable hs
  refine ⟨hsorted.near, hsorted.far, fun invoke hidle => ?_, hsorted.nextDelay,
    hsorted.far_of_tick⟩
  obtain ⟨hsame, hpos⟩ := hsorted.pos_of_handle hidle
  rw [hsame]
  exact hpos

/-- Two delays and a time beyond the threshold, none of them over. -/
theorem timers_none_overlooked_three :
    ∃ s : Timers Unit, TimersReachable ⟨0, 0⟩ s ∧ s.nearTimers.length = 2 ∧
      s.farTimers.length = 1 ∧ timersNextDelay s = 5 ∧ NoneOverlooked s := by
  let s₁ := TimerCall.run (Timers.initial ⟨0, 0⟩ : Timers Unit) (.scheduleDelay true 100 (some ()))
  let s₂ := TimerCall.run s₁ (.scheduleAt true ⟨60, 0⟩ (some ()))
  let s₃ := TimerCall.run s₂ (.scheduleDelay true 5 (some ()))
  have hreach : TimersReachable ⟨0, 0⟩ s₃ :=
    ((Relation.ReflTransGen.single (.call _ (.scheduleDelay true 100 (some ())) trivial)).tail
      (.call s₁ (.scheduleAt true ⟨60, 0⟩ (some ())) (by constructor <;> decide))).tail
      (.call s₂ (.scheduleDelay true 5 (some ())) trivial)
  exact ⟨s₃, hreach, by decide, by decide, by decide, timers_none_overlooked hreach⟩

/-- A tick of one second when the clock shows a whole second in its microseconds. -/
theorem timeAdd_second (secs : BitVec 64) :
    timeAdd ⟨secs, 1000000⟩ ⟨0, 1000000⟩ = ⟨secs + 1, 1000000⟩ := by
  have hdiv : (1000000 : Word).toInt.tdiv 1000000 = 1 := by decide
  have hmod : (1000000 : Word).toInt.tmod 1000000 = 0 := by decide
  have hnormal : timeNormalise ⟨secs, 1000000⟩ = ⟨secs + 1, 0⟩ := by
    unfold timeNormalise
    dsimp only
    rw [hdiv, hmod, if_neg (by decide)]
    rfl
  rw [timeAdd, hnormal]
  simp

/-- The clock comes to every second if it ticks long enough. -/
theorem ticks_reachable (secs : ℕ) :
    TimersReachable ⟨0, 0⟩ (Timers.initial ⟨BitVec.ofNat 64 secs, 1000000⟩ : Timers κ) := by
  have hstep : ∀ utc, TimersStep (Timers.initial utc : Timers κ)
      (Timers.initial (timeAdd utc ⟨0, 1000000⟩)) := fun utc =>
    .tick (Timers.initial utc) (fun _ => true) 1000000 (List.forall_mem_nil _)
  induction secs with
  | zero =>
    have hfirst : timeAdd ⟨0, 0⟩ ⟨0, 1000000⟩ = ⟨BitVec.ofNat 64 0, 1000000⟩ := by decide
    exact hfirst ▸ .single (hstep ⟨0, 0⟩)
  | succ secs ih =>
    have hnext := hstep ⟨BitVec.ofNat 64 secs, 1000000⟩
    rw [timeAdd_second, show BitVec.ofNat 64 secs + 1 = BitVec.ofNat 64 (secs + 1) from
      (BitVec.ofNat_add ..).symm] at hnext
    exact ih.tail hnext

/-- Four seconds before the last 64-bit second the threshold wraps: a timer for two seconds later
stays on the far list. -/
theorem timers_due_overlooked :
    ∃ s : Timers Unit, TimersReachable ⟨0, 0⟩ s ∧ DelaysFit s 10000 ∧
      ∃ ft ∈ (clockTick (fun _ => true) s 10000).farTimers,
        ft.time.usecs ≤ (clockTick (fun _ => true) s 10000).timeNowUtc.usecs + 2 * 1000000 := by
  let s := TimerCall.run (Timers.initial ⟨BitVec.ofNat 64 (2 ^ 64 - 5), 1000000⟩ : Timers Unit)
    (.scheduleAt true ⟨BitVec.ofNat 64 (2 ^ 64 - 2), 0⟩ (some ()))
  have hreach : TimersReachable ⟨0, 0⟩ s := (ticks_reachable (2 ^ 64 - 5)).tail
    (.call _ (.scheduleAt true ⟨BitVec.ofNat 64 (2 ^ 64 - 2), 0⟩ (some ())) (by constructor <;> decide))
  have hany : ((clockTick (fun _ => true) s 10000).farTimers.any fun ft => ft.time.usecs ≤
      (clockTick (fun _ => true) s 10000).timeNowUtc.usecs + 2 * 1000000) = true := by decide
  obtain ⟨ft, hft, hle⟩ := List.any_eq_true.mp hany
  exact ⟨s, hreach, List.forall_mem_nil _, ft, hft, of_decide_eq_true hle⟩

end ChrisOS.Kern
