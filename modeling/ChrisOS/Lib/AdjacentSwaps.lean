import Mathlib.Data.List.Perm.Basic
import Mathlib.Logic.Relation

/-!
# Exchanges of neighbours

A list rearranged by exchanging two neighbours at a time, where a relation says which pairs may be
exchanged. Whatever the relation, the elements stay the same. If no two elements of a class may be
exchanged, those of the class stay in their order.
-/

namespace ChrisOS.Lib

open Relation

variable {α : Type*} {r : α → α → Prop}

/-- Two neighbours change places. -/
inductive Exchange (r : α → α → Prop) : List α → List α → Prop
  | swap (front back : List α) {x y : α} (hxy : r x y) :
      Exchange r (front ++ x :: y :: back) (front ++ y :: x :: back)

variable {l l' : List α}

theorem Exchange.perm (h : Exchange r l l') : l'.Perm l := by
  cases h with
  | swap front back _ => exact (List.Perm.swap _ _ back).append_left front

/-- Of two neighbours that change places at most one is in the class. -/
theorem Exchange.filter_eq (h : Exchange r l l') {p : α → Bool} (hp : ∀ x y, r x y → ¬ (p x ∧ p y)) :
    l'.filter p = l.filter p := by
  cases h with
  | @swap front back x y hxy =>
    have hnot := hp x y hxy
    rw [List.filter_append, List.filter_append]
    congr 1
    by_cases hx : p x
    · have hy : ¬ p y := fun hy => hnot ⟨hx, hy⟩
      simp [hx, hy]
    · simp [List.filter_cons, hx]

/-- Exchanges keep the elements. -/
theorem perm_of_exchanges (h : ReflTransGen (Exchange r) l l') : l'.Perm l := by
  induction h with
  | refl => exact List.Perm.refl l
  | tail _ hlast ih => exact hlast.perm.trans ih

/-- Exchanges keep the order inside a class. -/
theorem filter_eq_of_exchanges (h : ReflTransGen (Exchange r) l l') {p : α → Bool}
    (hp : ∀ x y, r x y → ¬ (p x ∧ p y)) : l'.filter p = l.filter p := by
  induction h with
  | refl => rfl
  | tail _ hlast ih => exact (hlast.filter_eq hp).trans ih

end ChrisOS.Lib
