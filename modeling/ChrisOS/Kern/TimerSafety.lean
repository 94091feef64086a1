import ChrisOS.Kern.TimerRun

/-!
# Timers fire once, on time and not after cancellation

The invariant relates the delay left to each near timer to the moment it was scheduled, or,
for a timer that came from the far list, to the clock. While a callback runs its timer is
still on the near list, so the invariant has an exception for that one timer.
-/

namespace ChrisOS.Kern

open ChrisOS.Utils

/-- After the microseconds `left` the timer will be due. -/
def Due.Remains : Due → ℤ → ℕ → ℤ → Prop
  | .delay usecs since, left, elapsed, _ => since + usecs ≤ elapsed + left
  | .time usecs, left, _, utc => usecs ≤ utc ∨ usecs ≤ utc + left

/-- With nothing left the timer is due. -/
theorem Due.Remains.reached {due : Due} {left : ℤ} {elapsed : ℕ} {utc : ℤ}
    (h : due.Remains left elapsed utc) (hleft : left ≤ 0) : due.Reached elapsed utc := by
  cases due with
  | delay usecs since =>
    change since + usecs ≤ elapsed + left at h
    change since + usecs ≤ elapsed
    omega
  | time usecs =>
    change usecs ≤ utc ∨ usecs ≤ utc + left at h
    change usecs ≤ utc
    omega

/-- A tick takes from what is left what it adds to the clocks. -/
theorem Due.Remains.tick {due : Due} {left : ℤ} {elapsed : ℕ} {utc : ℤ}
    (h : due.Remains left elapsed utc) (usecs : ℕ) :
    due.Remains (left - usecs) (elapsed + usecs) (utc + usecs) := by
  cases due with
  | delay delay since =>
    change since + delay ≤ elapsed + left at h
    change since + delay ≤ ↑(elapsed + usecs) + (left - usecs)
    omega
  | time time =>
    change time ≤ utc ∨ time ≤ utc + left at h
    change time ≤ utc + usecs ∨ time ≤ utc + usecs + (left - usecs)
    omega

variable {id : Word}

/-- Events about other timers, and schedulings, leave a timer untouched. -/
theorem Untouched.append {log : List TimerEvent} (h : Untouched id log) {event : TimerEvent}
    (hinvoked : ∀ e u, event ≠ .invoked id e u)
    (hcancelled : event ≠ .cancelled id) : Untouched id (log ++ [event]) :=
  ⟨fun e u hmem => h.1 e u (mem_of_mem_append hmem (hinvoked e u).symm),
    fun hmem => h.2 (mem_of_mem_append hmem hcancelled.symm)⟩

section

variable {κ : Type*}

/-- The identifiers of all timers. -/
def Timers.ids (s : Timers κ) : List Word := s.nearTimers.map (·.id) ++ s.farTimers.map (·.id)

/-- The inductive invariant; `firing` is the timer whose callback is running. -/
structure TimerInv (firing : Option Word) (r : TimerRun κ) : Prop where
  contract : TimerContract r.log
  next : r.timers.nextTimerId.toNat = r.issued
  clock : 0 ≤ r.timers.timeNowUtc.tvUsec.toInt
  fresh : ∀ id due, .scheduled id due ∈ r.log → id.toNat ≤ r.issued
  unique : ∀ id due due', .scheduled id due ∈ r.log → .scheduled id due' ∈ r.log → due = due'
  cancelled : ∀ id, .cancelled id ∈ r.log → ∃ due, .scheduled id due ∈ r.log
  near : ∀ nt ∈ r.timers.nearTimers, ∃ due, .scheduled nt.id due ∈ r.log ∧
    due.Remains nt.delay.toInt r.elapsed r.timers.timeNowUtc.usecs
  far : ∀ ft ∈ r.timers.farTimers, .scheduled ft.id (.time ft.time.usecs) ∈ r.log ∧ ft.time.Normal
  nodup : r.timers.ids.Nodup
  live : ∀ id ∈ r.timers.ids, some id ≠ firing → Untouched id r.log

theorem TimerRun.initial_inv {utc : Timeval} (hutc : 0 ≤ utc.tvUsec.toInt) :
    TimerInv none (TimerRun.initial utc : TimerRun κ) where
  contract := TimerContract.nil
  next := rfl
  clock := hutc
  fresh := fun _ _ h => by cases h
  unique := fun _ _ _ h => by cases h
  cancelled := fun _ h => by cases h
  near := fun _ h => by cases h
  far := fun _ h => by cases h
  nodup := List.nodup_nil
  live := fun _ h => by cases h

variable {r : TimerRun κ} {firing : Option Word}

/-- Every timer was scheduled. -/
theorem TimerInv.scheduled_of_mem (h : TimerInv firing r) (hid : id ∈ r.timers.ids) :
    ∃ due, .scheduled id due ∈ r.log := by
  rcases List.mem_append.mp hid with hid | hid
  · obtain ⟨nt, hnt, rfl⟩ := List.mem_map.mp hid
    obtain ⟨due, hdue, _⟩ := h.near nt hnt
    exact ⟨due, hdue⟩
  · obtain ⟨ft, hft, rfl⟩ := List.mem_map.mp hid
    exact ⟨_, (h.far ft hft).1⟩

/-- The next identifier, while there are some left. -/
theorem TimerInv.timerNextId_toNat (h : TimerInv firing r) (hids : r.issued + 1 < 2 ^ 31) :
    (timerNextId r.timers.nextTimerId).toNat = r.issued + 1 := by
  have hadd : (r.timers.nextTimerId + 1).toNat = r.issued + 1 := by
    have hnext := h.next
    bv_omega
  have hsign : ¬ (r.timers.nextTimerId + 1).toInt < 0 := by
    rw [BitVec.toInt_eq_toNat_cond, hadd, if_pos (by omega)]
    omega
  unfold timerNextId
  dsimp only
  rw [if_neg hsign, hadd]

/-- A new timer keeps the invariant. -/
theorem TimerInv.schedule (h : TimerInv firing r) (hids : r.issued + 1 < 2 ^ 31)
    (hid : id = timerNextId r.timers.nextTimerId)
    {due : Due} {s' : Timers κ} (hnext : s'.nextTimerId = id)
    (hutc : s'.timeNowUtc = r.timers.timeNowUtc) (hperm : s'.ids.Perm (id :: r.timers.ids))
    (hnear : ∀ nt ∈ s'.nearTimers, nt ∈ r.timers.nearTimers ∨
      (nt.id = id ∧ due.Remains nt.delay.toInt r.elapsed r.timers.timeNowUtc.usecs))
    (hfar : ∀ ft ∈ s'.farTimers, ft ∈ r.timers.farTimers ∨
      (ft.id = id ∧ due = .time ft.time.usecs ∧ ft.time.Normal)) :
    TimerInv firing ⟨s', r.elapsed, r.issued + 1, r.log ++ [.scheduled id due]⟩ := by
  have htoNat : id.toNat = r.issued + 1 := hid ▸ h.timerNextId_toNat hids
  have hnew : ∀ due', .scheduled id due' ∉ r.log := by
    intro due' hmem
    have hle := h.fresh id due' hmem
    omega
  have huntouched : Untouched id r.log := by
    refine ⟨fun e u hmem => ?_, fun hmem => ?_⟩
    · obtain ⟨due', hdue'⟩ := h.contract.known id e u hmem
      exact hnew due' hdue'
    · obtain ⟨due', hdue'⟩ := h.cancelled id hmem
      exact hnew due' hdue'
  have hpending : id ∉ r.timers.ids := by
    intro hmem
    obtain ⟨due', hdue'⟩ := h.scheduled_of_mem hmem
    exact hnew due' hdue'
  have hold : ∀ id' due', .scheduled id' due' ∈ r.log ++ [.scheduled id due] →
      .scheduled id' due' ∈ r.log ∨ (id' = id ∧ due' = due) := by
    intro id' due' hmem
    rcases List.mem_append.mp hmem with hmem | hmem
    · exact Or.inl hmem
    · cases List.mem_singleton.mp hmem
      exact Or.inr ⟨rfl, rfl⟩
  refine
    { contract := h.contract.append (fun _ _ _ heq => by cases heq) fun _ e u _ heq => ?_
      next := ?_
      clock := ?_
      fresh := fun id' due' hmem => ?_
      unique := fun id' due₁ due₂ hmem₁ hmem₂ => ?_
      cancelled := fun id' hmem => ?_
      near := fun nt hnt => ?_
      far := fun ft hft => ?_
      nodup := hperm.nodup_iff.mpr (List.nodup_cons.mpr ⟨hpending, h.nodup⟩)
      live := fun id' hid' hfiring => ?_ }
  · cases heq
    exact huntouched.1 e u
  · exact hnext ▸ htoNat
  · exact hutc ▸ h.clock
  · rcases hold id' due' hmem with hmem | ⟨rfl, _⟩
    · exact Nat.le_succ_of_le (h.fresh id' due' hmem)
    · exact htoNat.le
  · rcases hold id' due₁ hmem₁ with hlog₁ | ⟨rfl, rfl⟩
    · rcases hold id' due₂ hmem₂ with hlog₂ | ⟨rfl, _⟩
      · exact h.unique id' due₁ due₂ hlog₁ hlog₂
      · exact absurd hlog₁ (hnew due₁)
    · rcases hold id' due₂ hmem₂ with hlog₂ | ⟨_, rfl⟩
      · exact absurd hlog₂ (hnew due₂)
      · rfl
  · obtain ⟨due', hdue'⟩ := h.cancelled id' (mem_of_mem_append hmem (by simp))
    exact ⟨due', List.mem_append_left _ hdue'⟩
  · dsimp only
    rw [hutc]
    rcases hnear nt hnt with hnt | ⟨rfl, hremains⟩
    · obtain ⟨due', hdue', hremains⟩ := h.near nt hnt
      exact ⟨due', List.mem_append_left _ hdue', hremains⟩
    · exact ⟨due, List.mem_append_right _ (List.mem_singleton.mpr rfl), hremains⟩
  · rcases hfar ft hft with hft | ⟨rfl, rfl, hnormal⟩
    · exact ⟨List.mem_append_left _ (h.far ft hft).1, (h.far ft hft).2⟩
    · exact ⟨List.mem_append_right _ (List.mem_singleton.mpr rfl), hnormal⟩
  · have hbefore : Untouched id' r.log := by
      rcases List.mem_cons.mp (hperm.mem_iff.mp hid') with rfl | hid'
      · exact huntouched
      · exact h.live id' hid' hfiring
    exact hbefore.append (fun _ _ heq => by cases heq) (fun heq => by cases heq)

/-- `timer_cancel` erases the identifier and tells whether it was there. -/
theorem timerCancel_spec (s : Timers κ) (id : Word) :
    (timerCancel s id).1.ids = s.ids.erase id ∧ ((timerCancel s id).2 = true ↔ id ∈ s.ids) ∧
      (timerCancel s id).1.nearTimers ⊆ s.nearTimers ∧
      (timerCancel s id).1.farTimers ⊆ s.farTimers ∧
      (timerCancel s id).1.nextTimerId = s.nextTimerId ∧
      (timerCancel s id).1.timeNowUtc = s.timeNowUtc := by
  have herase : ∀ {α : Type _} (f : α → Word) (l : List α),
      (l.eraseP fun t => f t = id).map f = (l.map f).erase id := by
    intro α f l
    induction l with
    | nil => rfl
    | cons t rest ih =>
      by_cases ht : f t = id
      · simp [ht]
      · simp [ht, ih]
  have hany : ∀ {α : Type _} (f : α → Word) (l : List α),
      (l.any fun t => f t = id) = true ↔ id ∈ l.map f := by
    intro α f l
    simp [List.any_eq_true, List.mem_map]
  unfold timerCancel Timers.ids
  split
  · next hnear =>
    have hmem := (hany (·.id) s.nearTimers).mp hnear
    refine ⟨?_, by simp [hmem], List.eraseP_subset, fun _ h => h, rfl, rfl⟩
    rw [List.erase_append_left _ hmem]
    exact congrArg (· ++ _) (herase (·.id) s.nearTimers)
  · next hnear =>
    have hmem := mt (hany (·.id) s.nearTimers).mpr hnear
    split
    · next hfar =>
      have hmem' := (hany (·.id) s.farTimers).mp hfar
      refine ⟨?_, by simp [hmem'], fun _ h => h, List.eraseP_subset, rfl, rfl⟩
      rw [List.erase_append_right _ hmem]
      exact congrArg (_ ++ ·) (herase (·.id) s.farTimers)
    · next hfar =>
      have hmem' := mt (hany (·.id) s.farTimers).mpr hfar
      have hnot : id ∉ s.nearTimers.map (·.id) ++ s.farTimers.map (·.id) := fun h =>
        (List.mem_append.mp h).elim hmem hmem'
      exact ⟨(List.erase_of_not_mem hnot).symm, by simp [hnot], fun _ h => h, fun _ h => h, rfl, rfl⟩

/-- A cancellation keeps the invariant and leaves no timer of its identifier. -/
theorem TimerInv.cancel (h : TimerInv firing r) (id : Word) :
    TimerInv firing (r.call (.cancel id)) ∧ id ∉ (r.call (.cancel id)).timers.ids := by
  obtain ⟨hids, hresult, hnear, hfar, hnext, hutc⟩ := timerCancel_spec r.timers id
  have hmem : ∀ id', id' ∈ (timerCancel r.timers id).1.ids ↔ id' ≠ id ∧ id' ∈ r.timers.ids := by
    intro id'
    rw [hids]
    exact h.nodup.mem_erase_iff
  have hnodup : (timerCancel r.timers id).1.ids.Nodup := hids ▸ h.nodup.erase id
  refine ⟨?_, fun hid => ((hmem id).mp hid).1 rfl⟩
  by_cases hfound : (timerCancel r.timers id).2 = true
  · have hcall : r.call (.cancel id) =
        ⟨(timerCancel r.timers id).1, r.elapsed, r.issued, r.log ++ [.cancelled id]⟩ := by
      simp only [TimerRun.call, hfound, if_true]
    have hsched : ∀ id' due, .scheduled id' due ∈ r.log ++ [.cancelled id] →
        .scheduled id' due ∈ r.log := fun id' due hlog => mem_of_mem_append hlog (by simp)
    rw [hcall]
    refine
      { contract := h.contract.append (fun _ _ _ heq => by cases heq) fun _ _ _ _ heq => by cases heq
        next := hnext ▸ h.next
        clock := hutc ▸ h.clock
        fresh := fun id' due hlog => h.fresh id' due (hsched id' due hlog)
        unique := fun id' due due' hlog hlog' =>
          h.unique id' due due' (hsched id' due hlog) (hsched id' due' hlog')
        cancelled := fun id' hlog => ?_
        near := fun nt hnt => ?_
        far := fun ft hft => ?_
        nodup := hnodup
        live := fun id' hid' hfiring => ?_ }
    · have hknown : ∃ due, .scheduled id' due ∈ r.log := by
        rcases List.mem_append.mp hlog with hlog | hlog
        · exact h.cancelled id' hlog
        · cases List.mem_singleton.mp hlog
          exact h.scheduled_of_mem (hresult.mp hfound)
      obtain ⟨due, hdue⟩ := hknown
      exact ⟨due, List.mem_append_left _ hdue⟩
    · obtain ⟨due, hdue, hremains⟩ := h.near nt (hnear hnt)
      exact ⟨due, List.mem_append_left _ hdue, hutc ▸ hremains⟩
    · exact ⟨List.mem_append_left _ (h.far ft (hfar hft)).1, (h.far ft (hfar hft)).2⟩
    · obtain ⟨hne, hid'⟩ := (hmem id').mp hid'
      exact (h.live id' hid' hfiring).append (fun _ _ heq => by cases heq) fun heq => by
        cases heq
        exact hne rfl
  · have hcall : r.call (.cancel id) =
        ⟨(timerCancel r.timers id).1, r.elapsed, r.issued, r.log⟩ := by
      simp only [TimerRun.call, if_neg hfound]
    rw [hcall]
    exact
      { contract := h.contract
        next := hnext ▸ h.next
        clock := hutc ▸ h.clock
        fresh := h.fresh
        unique := h.unique
        cancelled := h.cancelled
        near := fun nt hnt => hutc ▸ h.near nt (hnear hnt)
        far := fun ft hft => h.far ft (hfar hft)
        nodup := hnodup
        live := fun id' hid' => h.live id' ((hmem id').mp hid').2 }

/-- The identifiers after a near timer is added. -/
theorem timerScheduleDelayWithId_spec (s : Timers κ) (id usecs : Word) (callback : Option κ) :
    (timerScheduleDelayWithId true s id usecs callback).nearTimers.Perm
      (⟨id, usecs, callback⟩ :: s.nearTimers) :=
  List.perm_insertionSort _ _

/-- Every call keeps the invariant, while there are identifiers left. -/
theorem TimerInv.call (h : TimerInv firing r) {c : TimerCall κ} (hlegal : c.Legal)
    (hids : (r.call c).issued < 2 ^ 31) :
    TimerInv firing (r.call c) := by
  cases c with
  | cancel id => exact (h.cancel id).1
  | scheduleDelay allocated useconds callback =>
    cases allocated with
    | true =>
      have hperm := timerScheduleDelayWithId_spec
        { r.timers with nextTimerId := timerNextId r.timers.nextTimerId }
        (timerNextId r.timers.nextTimerId) useconds callback
      refine h.schedule hids rfl rfl rfl ((hperm.map (·.id)).append_right _) (fun nt hnt => ?_)
        fun ft hft => Or.inl hft
      rcases List.mem_cons.mp (hperm.mem_iff.mp hnt) with rfl | hnt
      · exact Or.inr ⟨rfl, Int.le_refl _⟩
      · exact Or.inl hnt
    | false =>
      exact
        { h with
          next := h.timerNextId_toNat hids
          fresh := fun id due hmem => Nat.le_succ_of_le (h.fresh id due hmem) }
  | scheduleAt allocated time callback =>
    cases allocated with
    | true =>
      have hperm : (timerScheduleAt true r.timers time callback).1.farTimers.Perm
          (⟨timerNextId r.timers.nextTimerId, time, callback⟩ :: r.timers.farTimers) :=
        List.perm_insertionSort _ _
      refine h.schedule hids rfl rfl rfl ?_ (fun nt hnt => Or.inl hnt) fun ft hft => ?_
      · exact ((hperm.map (·.id)).append_left _).trans List.perm_middle
      · rcases List.mem_cons.mp (hperm.mem_iff.mp hft) with rfl | hft
        · exact Or.inr ⟨rfl, rfl, hlegal⟩
        · exact Or.inl hft
    | false => exact h

/-- A far timer as the near timer it becomes. -/
def FarTimer.toNear (now : Timeval) (ft : FarTimer κ) : NearTimer κ :=
  ⟨ft.id, usecsUntil ft.time now, ft.callback⟩

/-- The loop over the far timers moves a prefix of timers within the threshold to the near list,
except for those whose allocation fails, which are lost. -/
theorem updateFarTimersFrom_spec (allocated : Word → Bool) (threshold : Timeval)
    (l : List (FarTimer κ)) (s : Timers κ) (hl : s.farTimers = l) :
    ∃ moved rest, l = moved ++ rest ∧ (∀ ft ∈ moved, timeCmp ft.time threshold ≤ 0) ∧
      (updateFarTimersFrom allocated threshold l s).farTimers = rest ∧
      (updateFarTimersFrom allocated threshold l s).nearTimers.Perm
        (s.nearTimers ++ (moved.filter (allocated ·.id)).map (FarTimer.toNear s.timeNowUtc)) ∧
      (updateFarTimersFrom allocated threshold l s).nextTimerId = s.nextTimerId ∧
      (updateFarTimersFrom allocated threshold l s).timeNowUtc = s.timeNowUtc := by
  induction l generalizing s with
  | nil => exact ⟨[], [], rfl, List.forall_mem_nil _, hl, by simp [updateFarTimersFrom], rfl, rfl⟩
  | cons ft rest ih =>
    by_cases hnear : timeCmp ft.time threshold ≤ 0
    · rw [updateFarTimersFrom_of_near hnear]
      obtain ⟨htail, hid, hclock⟩ := timersConvertFarToNear_keeps (allocated ft.id) s ft
      rw [hl] at htail
      obtain ⟨moved, rest', hrest, hmoved, hfar, hperm, hnext, hutc⟩ := ih _ htail
      refine ⟨ft :: moved, rest', by rw [hrest, List.cons_append], ?_, hfar, ?_,
        hnext.trans hid, hutc.trans hclock⟩
      · exact List.forall_mem_cons.mpr ⟨hnear, hmoved⟩
      · rw [hclock] at hperm
        refine hperm.trans ?_
        cases halloc : allocated ft.id with
        | true =>
          have hfilter : (ft :: moved).filter (allocated ·.id) = ft :: moved.filter (allocated ·.id) :=
            List.filter_cons_of_pos halloc
          rw [hfilter, List.map_cons]
          exact ((timerScheduleDelayWithId_spec _ _ _ _).append_right _).trans List.perm_middle.symm
        | false =>
          have hfilter : (ft :: moved).filter (allocated ·.id) = moved.filter (allocated ·.id) :=
            List.filter_cons_of_neg (by simp [halloc])
          rw [hfilter]
          exact List.Perm.refl _
    · rw [updateFarTimersFrom_of_late hnear]
      exact ⟨[], ft :: rest, rfl, List.forall_mem_nil _, hl, by simp, rfl, rfl⟩

/-- A timer that moves to the near list is due when its delay is over. -/
theorem toNear_remains {now : Timeval} (hnow : 0 ≤ now.tvUsec.toInt) {ft : FarTimer κ}
    (hnormal : ft.time.Normal)
    (hcmp : timeCmp ft.time (timeAdd now ⟨nearThresholdSecs, 0⟩) ≤ 0) (elapsed : ℕ) :
    (Due.time ft.time.usecs).Remains (ft.toNear now).delay.toInt elapsed now.usecs := by
  obtain ⟨hthreshold, hle⟩ := timeAdd_secs hnow nearThresholdSecs
  have hsoon : ft.time.usecs ≤ now.usecs + 10 * 1000000 :=
    Int.le_trans ((timeCmp_le_zero hnormal hthreshold).mp hcmp) hle
  change ft.time.usecs ≤ now.usecs ∨ ft.time.usecs ≤ now.usecs + (usecsUntil ft.time now).toInt
  by_cases hpast : ft.time.usecs ≤ now.usecs
  · exact Or.inl hpast
  · -- the timer is at most ten seconds away, so the difference is exact
    rw [usecsUntil_toInt (by omega) (by omega)]
    exact Or.inr (by omega)

/-- A tick keeps the invariant. -/
theorem TimerInv.tick (h : TimerInv none r) (allocated : Word → Bool) {usecs : Word}
    (hfits : TickFits r.timers usecs) : TimerInv none (r.tick allocated usecs) := by
  obtain ⟨hclock, hdelay⟩ := hfits
  have hnonneg := timeAdd_usecs_nonneg h.clock hclock
  obtain ⟨moved, rest, hsplit, hmoved, hfar, hperm, hnext, hutc⟩ :=
    updateFarTimersFrom_spec allocated
      (timeAdd (timeAdd r.timers.timeNowUtc ⟨0, usecs⟩) ⟨nearThresholdSecs, 0⟩) r.timers.farTimers
      { r.timers with
        timeNowUtc := timeAdd r.timers.timeNowUtc ⟨0, usecs⟩
        nearTimers := r.timers.nearTimers.map fun nt => { nt with delay := nt.delay - usecs } } rfl
  let ticked := r.tick allocated usecs
  change ticked.timers.farTimers = rest at hfar
  change ticked.timers.nearTimers.Perm _ at hperm
  change ticked.timers.nextTimerId = r.timers.nextTimerId at hnext
  change ticked.timers.timeNowUtc = timeAdd r.timers.timeNowUtc ⟨0, usecs⟩ at hutc
  have hids : ∃ l, ticked.timers.ids.Perm l ∧ l.Sublist r.timers.ids := by
    refine ⟨(r.timers.nearTimers.map (·.id) ++ (moved.filter (allocated ·.id)).map (·.id)) ++
      rest.map (·.id), ?_, ?_⟩
    · unfold Timers.ids
      rw [hfar]
      refine (hperm.map (·.id)).append_right _ |>.trans (List.Perm.of_eq ?_)
      simp [FarTimer.toNear, Function.comp_def]
    · unfold Timers.ids
      rw [hsplit, List.map_append, ← List.append_assoc]
      exact ((List.filter_sublist.map _).append_left _).append_right _
  obtain ⟨l, hpermIds, hsub⟩ := hids
  refine
    { contract := h.contract
      next := hnext ▸ h.next
      clock := by rw [hutc]; exact hnonneg
      fresh := h.fresh
      unique := h.unique
      cancelled := h.cancelled
      near := fun nt hnt => ?_
      far := fun ft hft => ?_
      nodup := hpermIds.nodup_iff.mpr (h.nodup.sublist hsub)
      live := fun id hid => h.live id (hsub.subset (hpermIds.mem_iff.mp hid)) }
  · rw [hutc]
    rcases List.mem_append.mp (hperm.mem_iff.mp hnt) with hnt | hnt
    · obtain ⟨nt', hnt', rfl⟩ := List.mem_map.mp hnt
      obtain ⟨due, hdue, hremains⟩ := h.near nt' hnt'
      refine ⟨due, hdue, ?_⟩
      rw [hclock, toInt_sub_toNat (hdelay nt' hnt')]
      exact hremains.tick usecs.toNat
    · obtain ⟨ft, hft, rfl⟩ := List.mem_map.mp hnt
      have hmem := List.mem_of_mem_filter hft
      obtain ⟨hdue, hnormal⟩ := h.far ft (hsplit ▸ List.mem_append_left _ hmem)
      exact ⟨_, hdue, toNear_remains hnonneg hnormal (hmoved ft hmem) _⟩
  · exact h.far ft (hsplit ▸ List.mem_append_right _ (hfar ▸ hft))

/-- The callback of the first near timer is invoked when nothing is left of its delay. -/
theorem TimerInv.invoke (h : TimerInv none r) {nt : NearTimer κ} (hnt : nt ∈ r.timers.nearTimers)
    (hdue : nt.delay.toInt ≤ 0) :
    TimerInv (some nt.id) (r.invoke nt.id) := by
  obtain ⟨due, hmem, hremains⟩ := h.near nt hnt
  have hpending : nt.id ∈ r.timers.ids := List.mem_append_left _ (List.mem_map.mpr ⟨nt, hnt, rfl⟩)
  have hsched : ∀ {id due'}, .scheduled id due' ∈ (r.invoke nt.id).log →
      .scheduled id due' ∈ r.log := fun hlog => mem_of_mem_append hlog (by simp)
  refine
    { contract := h.contract.invoke (h.live nt.id hpending (by simp)) ⟨due, hmem⟩ fun due' hmem' => ?_
      next := h.next
      clock := h.clock
      fresh := fun id due' hlog => h.fresh id due' (hsched hlog)
      unique := fun id due₁ due₂ hlog₁ hlog₂ => h.unique id due₁ due₂ (hsched hlog₁) (hsched hlog₂)
      cancelled := fun id hlog => ?_
      near := fun nt' hnt' => ?_
      far := fun ft hft => ⟨List.mem_append_left _ (h.far ft hft).1, (h.far ft hft).2⟩
      nodup := h.nodup
      live := fun id hid hfiring => ?_ }
  · rw [h.unique nt.id due' due hmem' hmem]
    exact hremains.reached hdue
  · obtain ⟨due', hdue'⟩ := h.cancelled id (mem_of_mem_append hlog (by simp))
    exact ⟨due', List.mem_append_left _ hdue'⟩
  · obtain ⟨due', hdue', hremains'⟩ := h.near nt' hnt'
    exact ⟨due', List.mem_append_left _ hdue', hremains'⟩
  · refine (h.live id hid (by simp)).append (fun _ _ heq => ?_) fun heq => by cases heq
    cases heq
    exact hfiring rfl

/-- Identifiers handed out stay handed out. -/
theorem TimerRun.issued_le_call (r : TimerRun κ) (c : TimerCall κ) : r.issued ≤ (r.call c).issued := by
  cases c with
  | scheduleDelay allocated => exact Nat.le_succ _
  | scheduleAt allocated =>
    cases allocated with
    | true => exact Nat.le_succ _
    | false => exact Nat.le_refl _
  | cancel id => exact Nat.le_refl _

theorem TimerRun.issued_le_foldl (r : TimerRun κ) (calls : List (TimerCall κ)) :
    r.issued ≤ (calls.foldl TimerRun.call r).issued := by
  induction calls generalizing r with
  | nil => exact Nat.le_refl _
  | cons c rest ih => exact Nat.le_trans (r.issued_le_call c) (ih (r.call c))

theorem TimerStep.issued_le {r r' : TimerRun κ} (hstep : TimerStep r r') : r.issued ≤ r'.issued := by
  cases hstep with
  | call c => exact r.issued_le_call c
  | tick => exact Nat.le_refl _
  | handle calls =>
    unfold TimerRun.handle
    cases r.timers.nearTimers with
    | nil => exact Nat.le_refl _
    | cons timer _ =>
      dsimp only
      split
      · cases timer.callback with
        | none => exact r.issued_le_call _
        | some _ =>
          exact Nat.le_trans ((r.invoke timer.id).issued_le_foldl calls) (TimerRun.issued_le_call _ _)
      · exact Nat.le_refl _

/-- The calls of a callback keep the invariant. -/
theorem TimerInv.calls (h : TimerInv firing r) {calls : List (TimerCall κ)}
    (hlegal : ∀ c ∈ calls, c.Legal)
    (hids : (calls.foldl TimerRun.call r).issued < 2 ^ 31) :
    TimerInv firing (calls.foldl TimerRun.call r) := by
  induction calls generalizing r with
  | nil => exact h
  | cons c rest ih =>
    have hcall : (r.call c).issued < 2 ^ 31 :=
      Nat.lt_of_le_of_lt ((r.call c).issued_le_foldl rest) hids
    exact ih (h.call (hlegal c List.mem_cons_self) hcall)
      (fun c' hc' => hlegal c' (List.mem_cons_of_mem _ hc')) hids

/-- The timer whose callback ran is removed, and the exception for it ends. -/
theorem TimerInv.finish (h : TimerInv (some id) r) : TimerInv none (r.call (.cancel id)) := by
  obtain ⟨hinv, hgone⟩ := h.cancel id
  exact { hinv with
    live := fun id' hid' _ => hinv.live id' hid' fun heq => hgone (Option.some.inj heq ▸ hid') }

/-- Handling near timers keeps the invariant. -/
theorem TimerInv.handle (h : TimerInv none r) {calls : List (TimerCall κ)}
    (hlegal : ∀ c ∈ calls, c.Legal) (hids : (r.handle calls).issued < 2 ^ 31) :
    TimerInv none (r.handle calls) := by
  unfold TimerRun.handle at hids ⊢
  cases hnear : r.timers.nearTimers with
  | nil => exact h
  | cons timer rest =>
    have hmem : timer ∈ r.timers.nearTimers := hnear ▸ List.mem_cons_self
    simp only [hnear] at hids
    dsimp only
    by_cases hdue : timer.delay.toInt ≤ 0
    · rw [if_pos hdue] at hids ⊢
      cases hcallback : timer.callback with
      | none => exact (h.cancel timer.id).1
      | some _ =>
        simp only [hcallback] at hids
        exact ((h.invoke hmem hdue).calls hlegal hids).finish
    · rw [if_neg hdue]
      exact h

/-- Every step keeps the invariant, while there are identifiers left. -/
theorem TimerInv.step {r r' : TimerRun κ} (h : TimerInv none r) (hstep : TimerStep r r')
    (hids : r'.issued < 2 ^ 31) : TimerInv none r' := by
  cases hstep with
  | call c hlegal => exact h.call hlegal hids
  | tick allocated usecs hfits => exact h.tick allocated hfits
  | handle calls hlegal => exact h.handle hlegal hids

/-- In every run that hands out fewer than `2 ^ 31` identifiers, callbacks are invoked at most
once, not before they are due and not after a cancellation. -/
theorem timers_contract_of_reachable {utc : Timeval} (hutc : 0 ≤ utc.tvUsec.toInt) {r : TimerRun κ}
    (hr : TimerReachable utc r) (hids : r.issued < 2 ^ 31) : TimerContract r.log := by
  have hinv : TimerInv none r := by
    induction hr with
    | refl => exact TimerRun.initial_inv hutc
    | tail _ hstep ih => exact (ih (Nat.lt_of_le_of_lt hstep.issued_le hids)).step hstep hids
  exact hinv.contract

end

instance {κ : Type*} (s : Timers κ) (usecs : Word) : Decidable (TickFits s usecs) :=
  inferInstanceAs (Decidable (_ ∧ _))

/-- Two delays and an absolute time: after a tick of ten microseconds the first delay is over, its
callback cancels the second, and the time is past. -/
theorem timers_contract_three :
    ∃ r : TimerRun Unit, TimerReachable ⟨0, 0⟩ r ∧ r.issued = 3 ∧
      r.log = [.scheduled 1 (.delay 5 0), .scheduled 2 (.time 8), .scheduled 3 (.delay 100 0),
        .invoked 1 10 10, .cancelled 3, .cancelled 1, .invoked 2 10 10, .cancelled 2] ∧
      TimerContract r.log := by
  let r₁ := (TimerRun.initial ⟨0, 0⟩ : TimerRun Unit).call (.scheduleDelay true 5 (some ()))
  let r₂ := r₁.call (.scheduleAt true ⟨0, 8⟩ (some ()))
  let r₃ := r₂.call (.scheduleDelay true 100 (some ()))
  let r₄ := r₃.tick (fun _ => true) 10
  let r₅ := r₄.handle [.cancel 3]
  let r₆ := r₅.handle []
  have hreach : TimerReachable ⟨0, 0⟩ r₆ :=
    (((((Relation.ReflTransGen.single
      (.call _ (.scheduleDelay true 5 (some ())) trivial)).tail
      (.call r₁ (.scheduleAt true ⟨0, 8⟩ (some ())) (by constructor <;> decide))).tail
      (.call r₂ (.scheduleDelay true 100 (some ())) trivial)).tail
      (.tick r₃ (fun _ => true) 10 (by decide))).tail
      (.handle r₄ [.cancel 3] (by simp [TimerCall.Legal]))).tail
      (.handle r₅ [] (by simp))
  exact ⟨r₆, hreach, by decide, by decide,
    timers_contract_of_reachable (by decide) hreach (by decide)⟩

/-- The state after `k` calls of `timer_schedule_delay` whose allocation fails. -/
def TimerRun.failed {κ : Type*} (r : TimerRun κ) (k : ℕ) : TimerRun κ :=
  { r with
    timers := { r.timers with nextTimerId := r.timers.nextTimerId + BitVec.ofNat 32 k }
    issued := r.issued + k }

/-- Failed calls use up identifiers and do nothing else. -/
theorem TimerRun.failed_run {κ : Type*} (r : TimerRun κ) (k : ℕ)
    (hk : r.timers.nextTimerId.toNat + k < 2 ^ 31) :
    Relation.ReflTransGen TimerStep r (r.failed k) := by
  induction k with
  | zero =>
    have hzero : r.failed 0 = r := by simp [TimerRun.failed]
    rw [hzero]
  | succ k ih =>
    have hnext : timerNextId (r.timers.nextTimerId + BitVec.ofNat 32 k) =
        r.timers.nextTimerId + BitVec.ofNat 32 (k + 1) := by
      have hadd : r.timers.nextTimerId + BitVec.ofNat 32 k + 1 =
          r.timers.nextTimerId + BitVec.ofNat 32 (k + 1) := by
        rw [BitVec.ofNat_add, BitVec.add_assoc]
        rfl
      have hsign : ¬ (r.timers.nextTimerId + BitVec.ofNat 32 (k + 1)).toInt < 0 := by
        rw [BitVec.toInt_eq_toNat_cond, BitVec.toNat_add, BitVec.toNat_ofNat]
        split <;> omega
      unfold timerNextId
      dsimp only
      rw [hadd, if_neg hsign]
    have hstep : (r.failed k).call (.scheduleDelay false 0 none) = r.failed (k + 1) := by
      simp only [TimerRun.call, timerScheduleDelay, timerScheduleDelayWithId, TimerRun.failed, hnext,
        Bool.false_eq_true, if_false, Nat.add_assoc]
    exact hstep ▸ (ih (by omega)).tail (.call _ (.scheduleDelay false 0 none) trivial)

/-- Calls that fail use up the identifiers, the counter starts again from one, and a second timer
gets the identifier of a live one: after a cancellation that returned true, the callback of that
identifier is invoked, although only two timers were created. -/
theorem timers_identifier_reused :
    ∃ r : TimerRun Unit, TimerReachable ⟨0, 0⟩ r ∧
      r.log = [.scheduled 1 (.delay 0 0), .scheduled 1 (.delay 0 0), .cancelled 1, .invoked 1 0 0,
        .cancelled 1] ∧ ¬ TimerContract r.log := by
  let r₁ := (TimerRun.initial ⟨0, 0⟩ : TimerRun Unit).call (.scheduleDelay true 0 (some ()))
  let r₂ := r₁.failed (2 ^ 31 - 2)
  let r₃ := r₂.call (.scheduleDelay true 0 (some ()))
  let r₄ := r₃.call (.cancel 1)
  let r₅ := r₄.handle []
  have hfailed : TimerReachable ⟨0, 0⟩ r₂ :=
    (Relation.ReflTransGen.single (.call _ (.scheduleDelay true 0 (some ())) trivial)).trans
      (r₁.failed_run _ (by decide))
  have hreach : TimerReachable ⟨0, 0⟩ r₅ :=
    ((hfailed.tail (.call r₂ (.scheduleDelay true 0 (some ())) trivial)).tail
      (.call r₃ (.cancel 1) trivial)).tail (.handle r₄ [] (by simp))
  have hlog : r₅.log = [.scheduled 1 (.delay 0 0), .scheduled 1 (.delay 0 0), .cancelled 1,
      .invoked 1 0 0, .cancelled 1] := by decide
  refine ⟨r₅, hreach, hlog, fun hcontract => ?_⟩
  have hpairs := hcontract.notCancelled
  rw [hlog] at hpairs
  simp at hpairs

end ChrisOS.Kern
