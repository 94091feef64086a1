import Mathlib.Data.Option.Basic

/-!
# Runs of calls

A component is a step function that takes a call and gives what the call returns and the next state,
or nothing where the call does not return. A run makes calls in order and collects what they return.

An implementation simulates a specification if related states stay related under every call the
specification allows, with equal returned values. Simulation of one call gives simulation of
runs.
-/

namespace ChrisOS.Lib

variable {σ α ι ο : Type*}

/-- Make calls in order. -/
def runCalls (call : σ → ι → Option (ο × σ)) : σ → List ι → Option (List ο × σ)
  | s, [] => some ([], s)
  | s, i :: rest =>
    (call s i).bind fun r => (runCalls call r.2 rest).map fun rs => (r.1 :: rs.1, rs.2)

/-- Every call of a run is one that `may` be made in the state it is made in. -/
def Along (call : σ → ι → Option (ο × σ)) (may : σ → ι → Prop) : σ → List ι → Prop
  | _, [] => True
  | s, i :: rest =>
    may s i ∧
      match call s i with
      | some r => Along call may r.2 rest
      | none => True

variable {call : σ → ι → Option (ο × σ)}

/-- Calls that may be made in every state. -/
theorem along_of_forall {may : σ → ι → Prop} (h : ∀ s i, may s i) (s : σ) (calls : List ι) :
    Along call may s calls := by
  induction calls generalizing s with
  | nil => trivial
  | cons i rest ih =>
    refine ⟨h s i, ?_⟩
    cases call s i with
    | none => trivial
    | some r => exact ih r.2

/-- A run of at least one call, taken apart. -/
theorem runCalls_cons_eq_some {s s'' : σ} {i : ι} {rest : List ι} {returns : List ο}
    (h : runCalls call s (i :: rest) = some (returns, s'')) :
    ∃ o os s', call s i = some (o, s') ∧ runCalls call s' rest = some (os, s'') ∧
      returns = o :: os := by
  rw [runCalls] at h
  obtain ⟨⟨o, s'⟩, hcall, hrest⟩ := Option.bind_eq_some_iff.mp h
  obtain ⟨⟨os, s₂⟩, hrun, heq⟩ := Option.map_eq_some_iff.mp hrest
  cases heq
  exact ⟨o, os, s', hcall, hrun, rfl⟩

/-- A run put together. -/
theorem runCalls_cons {s s' s'' : σ} {i : ι} {rest : List ι} {o : ο} {os : List ο}
    (hcall : call s i = some (o, s')) (hrun : runCalls call s' rest = some (os, s'')) :
    runCalls call s (i :: rest) = some (o :: os, s'') := by
  rw [runCalls, hcall, Option.bind_some, hrun, Option.map_some]

/-- An implementation that simulates every call the specification allows simulates its runs. -/
theorem runCalls_simulates {spec : α → ι → Option (ο × α)} {impl : σ → ι → Option (ο × σ)}
    {may : α → ι → Prop} {rel : α → σ → Prop}
    (hcall : ∀ a s i o a', rel a s → may a i → spec a i = some (o, a') →
      ∃ s', impl s i = some (o, s') ∧ rel a' s')
    {a a' : α} {s : σ} {calls : List ι} {returns : List ο} (hrel : rel a s)
    (hmay : Along spec may a calls) (hrun : runCalls spec a calls = some (returns, a')) :
    ∃ s', runCalls impl s calls = some (returns, s') ∧ rel a' s' := by
  induction calls generalizing a s returns with
  | nil =>
    cases hrun
    exact ⟨s, rfl, hrel⟩
  | cons i rest ih =>
    obtain ⟨o, os, a₁, hspec, hrest, rfl⟩ := runCalls_cons_eq_some hrun
    obtain ⟨s₁, himpl, hrel₁⟩ := hcall a s i o a₁ hrel hmay.1 hspec
    have hmayRest : Along spec may a₁ rest := by
      have := hmay.2
      rwa [hspec] at this
    obtain ⟨s', hruns, hrel'⟩ := ih hrel₁ hmayRest hrest
    exact ⟨s', runCalls_cons himpl hruns, hrel'⟩

end ChrisOS.Lib
