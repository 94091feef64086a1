import ChrisOS.Kern.MutexInvariant

/-!
# Mutual exclusion

At most one thread is between a returned `mutex_acquire` and its last `mutex_release`, and
the nesting count is its depth, provided no thread nests `2 ^ 32` acquires: the counter is a
32-bit field and starts again from zero.
-/

namespace ChrisOS.Kern

open ChrisOS.Utils ChrisOS.Lib

variable {τ : Type*} [DecidableEq τ]

/-- A thread is between a returned acquire and the end of its matching last release. -/
def Inside (s : MutexSystem τ) (t : τ) : Prop := 0 < s.depth t ∨ s.pc t = .test ∨ s.pc t = .wake

/-- At most one thread is inside, it is the owner and `nested` is its depth; the release that
hands over is its last and gives the mutex to the head of the waiting list, all of whose threads
are in `mutex_acquire`, or to nobody; and no assertion fails. -/
structure MutexContract (tid : τ → Word) (s : MutexSystem τ) : Prop where
  exclusive : ∀ t u, Inside s t → Inside s u → t = u
  owner : ∀ t, Inside s t → s.mutex.owner = tid t
  nested : ∀ t, Inside s t → s.mutex.nested.toNat = s.depth t
  handOver : ∀ t s', s.pc t = .wake → execStatement tid s t = some s' → s.depth t = 0 ∧
    ∃ W, DLRep s.waitQueue s.mutex.waitingThreads W ∧ (∀ u ∈ W, (s.pc u).Observes) ∧
      s'.mutex.owner = (W.head?.map tid).getD 0
  returns : ∀ t, s.blocked t = false → s.pc t ≠ .idle → (execStatement tid s t).isSome

variable {s : MutexSystem τ} {tid : τ → Word}

omit [DecidableEq τ] in
/-- A thread inside is the owner. -/
theorem OwnerInv.owner_of_inside (h : OwnerInv tid s) {t : τ} (ht : Inside s t) :
    s.mutex.owner = tid t := by
  obtain hdepth | hpc | hpc := ht
  · exact h.owner t (Or.inl hdepth)
  · exact h.owner_of_pc hpc trivial
  · exact h.owner_of_pc hpc trivial

/-- The mutex keeps its contract in every run in which no thread nests `2 ^ 32` acquires. -/
theorem mutex_contract_of_reachable {tid : τ → Word} (ids : ThreadIds tid) {s : MutexSystem τ}
    (hs : MutexReachable tid DepthBounded s) : MutexContract tid s := by
  obtain ⟨W, hwait⟩ := WaitInv.of_reachable ids hs
  have hinv := OwnerInv.of_reachable ids hs
  have howner : ∀ t, Inside s t → s.mutex.owner = tid t := fun t ht => hinv.owner_of_inside ht
  refine ⟨fun t u ht hu => ?_, howner, fun t ht => hinv.nested t (howner t ht), fun t s' hpc hexec => ?_,
    fun t hready hbusy => ?_⟩
  · exact ids.injective ((howner t ht).symm.trans (howner u hu))
  · refine ⟨hinv.last t hpc, W, hwait.rep, fun u hu => (hwait.mem_iff u).mp hu, ?_⟩
    rw [execStatement, hpc] at hexec
    cases hexec
    exact mutexReleaseAndWakeNextThread_owner hwait.rep
  · obtain ⟨s', _, hexec, _⟩ := hwait.exec ids hready hbusy
    rw [hexec]
    rfl

/-- Identifiers of two threads. -/
def twoIds (t : Bool) : Word := if t then 2 else 1

theorem twoIds_threadIds : ThreadIds twoIds where
  injective := by unfold Function.Injective; decide
  ne_zero := by decide

/-- The acts of an acquire that finds the mutex free. -/
def freeAcquire (t : τ) : List (MutexAct τ) :=
  [.acquire t, .exec t, .exec t, .exec t, .exec t, .exec t]

/-- An acquire of the held mutex, up to the thread's blocking. -/
def heldAcquire (t : τ) : List (MutexAct τ) := [.acquire t, .exec t, .exec t, .exec t]

/-- One thread holds the mutex and another is blocked on it. -/
theorem mutex_contract_contended :
    ∃ s : MutexSystem Bool, MutexReachable twoIds DepthBounded s ∧ Inside s false ∧
      s.blocked true = true ∧ MutexContract twoIds s := by
  let acts := freeAcquire false ++ heldAcquire true
  let s := (performAll twoIds DepthBounded (mutexInit Bool) acts).get (by decide)
  have hreach : MutexReachable twoIds DepthBounded s := performAll_run (Option.some_get _).symm
  exact ⟨s, hreach, Or.inl (by decide), by decide,
    mutex_contract_of_reachable twoIds_threadIds hreach⟩

/-- The state after `k` more acquires by the owner. -/
def MutexSystem.nestedBy (s : MutexSystem τ) (t : τ) (k : ℕ) : MutexSystem τ :=
  { s with
    mutex := { s.mutex with nested := s.mutex.nested + BitVec.ofNat 32 k }
    depth := Function.update s.depth t (s.depth t + k) }

/-- The owner acquires once more. -/
theorem nestedAcquire_run (ids : ThreadIds tid) {t : τ} (howner : s.mutex.owner = tid t)
    (hready : s.blocked t = false) (hidle : s.pc t = .idle) :
    Relation.ReflTransGen (MutexStep tid fun _ _ => True) s (countNested s t) := by
  have hcompare : compareOwner tid (s.goto t .compare) t = (s.goto t .compare).goto t .count := by
    obtain ⟨hfree, _⟩ | ⟨_, heq⟩ | ⟨_, hne, _⟩ := compareOwner_cases ids (s.goto t .compare) t
    · exact absurd (howner.symm.trans hfree) (ids.ne_zero t)
    · exact heq
    · exact absurd howner hne
  have hback : Function.update (Function.update (Function.update s.pc t .compare) t .count) t .idle =
      s.pc := by
    rw [Function.update_idem, Function.update_idem, ← hidle, Function.update_eq_self]
  have hcount : (countNested ((s.goto t .compare).goto t .count) t).goto t .idle =
      countNested s t := by
    unfold countNested MutexSystem.goto
    dsimp only
    rw [hback]
  have hexec : perform tid (s.goto t .compare) (.exec t) =
      some ((s.goto t .compare).goto t .count) := by
    simp only [perform, execStatement, MutexSystem.goto_pc_self, hcompare]
  have hreturn : perform tid ((s.goto t .compare).goto t .count) (.exec t) =
      some (countNested s t) := by
    simp only [perform, execStatement, MutexSystem.goto_pc_self, hcount]
  exact .head (.act (.acquire t) hready trivial (if_pos hidle))
    (.head (.act (.exec t) hready trivial hexec) (.single (.act (.exec t) hready trivial hreturn)))

/-- The owner acquires any number of times. -/
theorem nestedBy_run (ids : ThreadIds tid) {t : τ} (howner : s.mutex.owner = tid t)
    (hready : s.blocked t = false) (hidle : s.pc t = .idle) (k : ℕ) :
    Relation.ReflTransGen (MutexStep tid fun _ _ => True) s (s.nestedBy t k) := by
  induction k with
  | zero =>
    have hzero : s.nestedBy t 0 = s := by
      simp [MutexSystem.nestedBy]
    rw [hzero]
  | succ k ih =>
    have hsucc : countNested (s.nestedBy t k) t = s.nestedBy t (k + 1) := by
      unfold countNested MutexSystem.nestedBy
      dsimp only
      rw [Function.update_self, Function.update_idem, BitVec.ofNat_add, BitVec.add_assoc,
        Nat.add_assoc]
      rfl
    rw [← hsucc]
    exact ih.trans (nestedAcquire_run ids howner hready hidle)

/-- A thread that has acquired `2 ^ 32 + 1` times and released once still counts on the mutex,
but the counter is back at zero and the mutex is given away. -/
theorem mutex_overflow_two_inside :
    ∃ s : MutexSystem Bool, MutexReachable twoIds (fun _ _ => True) s ∧ Inside s false ∧
      Inside s true := by
  let s₁ := (performAll twoIds (fun _ _ => True) (mutexInit Bool) (freeAcquire false)).get (by decide)
  have hfirst : MutexReachable twoIds (fun _ _ => True) s₁ :=
    performAll_run (Option.some_get _).symm
  have hnested := hfirst.trans (nestedBy_run twoIds_threadIds (t := false) (by decide) (by decide)
    (by decide) (2 ^ 32))
  let releases : List (MutexAct Bool) := [.release false, .exec false, .exec false, .exec false]
  let acts := releases ++ freeAcquire true
  let s₂ := (performAll twoIds (fun _ _ => True) (s₁.nestedBy false (2 ^ 32)) acts).get (by decide)
  exact ⟨s₂, hnested.trans (performAll_run (Option.some_get _).symm), Or.inl (by decide),
    Or.inl (by decide)⟩

end ChrisOS.Kern
