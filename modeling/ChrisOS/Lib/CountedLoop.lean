import Mathlib.Data.Nat.Notation
import Mathlib.Logic.Function.Basic

/-!
# Counted loops

A loop over consecutive numbers whose body may fail, and the rule for it: an invariant that holds
before each number and that the body carries to the next. A loop that writes the entries of a row
one after the other has filled the row up to the number it is at.
-/

namespace ChrisOS.Lib

variable {σ : Type*}

/-- Execute the body for `n` numbers from `i` on. -/
def countedLoop (body : ℕ → σ → Option σ) (i : ℕ) : ℕ → σ → Option σ
  | 0, s => some s
  | n + 1, s => (body i s).bind (countedLoop body (i + 1) n)

/-- The invariant holds before the first number and after the last, and the loop does not fail. -/
theorem countedLoop_inv {body : ℕ → σ → Option σ} (inv : ℕ → σ → Prop) {i n : ℕ} {s : σ}
    (hstart : inv i s)
    (hstep : ∀ k s, i ≤ k → k < i + n → inv k s → ∃ s', body k s = some s' ∧ inv (k + 1) s') :
    ∃ s', countedLoop body i n s = some s' ∧ inv (i + n) s' := by
  induction n generalizing i s with
  | zero => exact ⟨s, rfl, hstart⟩
  | succ n ih =>
    obtain ⟨s₁, hbody, hinv⟩ := hstep i s (Nat.le_refl i) (by omega) hstart
    obtain ⟨s₂, hloop, hend⟩ := ih hinv fun k s hk hkn => hstep k s (by omega) (by omega)
    refine ⟨s₂, ?_, ?_⟩
    · rw [countedLoop, hbody]
      exact hloop
    · rwa [Nat.add_assoc, Nat.add_comm 1] at hend

section Fill

variable {β : Type*} {w : ℕ}

/-- A row whose entries from `i` up to `k` are those of another. -/
def filled (i k : ℕ) (new old : Fin w → β) (x : Fin w) : β :=
  if i ≤ x.val ∧ x.val < k then new x else old x

/-- Nothing is filled yet. -/
theorem filled_self (i : ℕ) (new old : Fin w → β) : filled i i new old = old := by
  funext x
  exact if_neg (by omega)

/-- One more entry. -/
theorem update_filled {i : ℕ} (k : Fin w) (hik : i ≤ k.val) (new old : Fin w → β) :
    Function.update (filled i k new old) k (new k) = filled i (k + 1) new old := by
  funext x
  by_cases hx : x = k
  · rw [hx, Function.update_self, filled, if_pos ⟨hik, Nat.lt_succ_self k⟩]
  · have hne : x.val ≠ k.val := fun heq => hx (Fin.ext heq)
    rw [Function.update_of_ne hx, filled, filled]
    congr 1
    rw [eq_iff_iff]
    omega

/-- The whole row. -/
theorem filled_zero (new old : Fin w → β) : filled 0 w new old = new := by
  funext x
  exact if_pos ⟨Nat.zero_le _, x.isLt⟩

end Fill

end ChrisOS.Lib
