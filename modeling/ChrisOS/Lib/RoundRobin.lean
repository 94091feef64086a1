import Mathlib.Data.List.Nodup

/-!
# Queues that are served in turn

A queue is served from its head, and what is served goes to the back. Members join at the back,
leave from anywhere, and may be sent to the back again. However these mix, a member that is ahead
of another stays ahead of it, until it is served itself, leaves, or is sent to the back.
-/

namespace ChrisOS.Lib

variable {α : Type*} [DecidableEq α]

/-- What can happen to a queue. -/
inductive QueueEvent (α : Type*)
  | keep
  /-- The head is served and goes to the back. -/
  | serve (x : α)
  | join (x : α)
  | leave (x : α)
  /-- A member is sent to the back. -/
  | requeue (x : α)
deriving DecidableEq, Repr

/-- The queue after an event; only the head is served. -/
def QueueEvent.apply : QueueEvent α → List α → Option (List α)
  | .keep, q => some q
  | .serve x, q => if q.head? = some x then some (q.tail ++ [x]) else none
  | .join x, q => some (q ++ [x])
  | .leave x, q => some (q.erase x)
  | .requeue x, q => some (q.erase x ++ [x])

/-- A member `u` comes before any `t` there may be. -/
def Ahead (u t : α) (q : List α) : Prop := ∃ front back, q = front ++ u :: back ∧ t ∉ front

variable {q q' : List α} {u t : α}

/-- Whoever was not just served is ahead of the one that was. -/
theorem Ahead.of_serve (hq : q.Nodup) (happly : (QueueEvent.serve t).apply q = some q') (hu : u ∈ q')
    (hne : u ≠ t) :
    Ahead u t q' := by
  obtain ⟨hhead, happly⟩ := Option.ite_none_right_eq_some.mp happly
  cases happly
  cases q with
  | nil => cases hhead
  | cons x rest =>
    obtain rfl := Option.some.inj hhead
    rw [List.tail_cons, List.mem_append, List.mem_singleton] at hu
    obtain ⟨front, back, hrest⟩ := List.append_of_mem (hu.resolve_right hne)
    refine ⟨front, back ++ [x], by simp [hrest], fun hmem => (List.nodup_cons.mp hq).1 ?_⟩
    rw [hrest]
    exact List.mem_append_left _ hmem

/-- Nobody is served whom another is ahead of. -/
theorem Ahead.not_serve (h : Ahead u t q) (happly : (QueueEvent.serve t).apply q = some q') : u = t := by
  obtain ⟨hhead, _⟩ := Option.ite_none_right_eq_some.mp happly
  obtain ⟨front, back, rfl, ht⟩ := h
  cases front with
  | nil => exact Option.some.inj hhead
  | cons x front =>
    cases hhead
    exact absurd List.mem_cons_self ht

omit [DecidableEq α] in
/-- Adding to the back changes nothing. -/
theorem Ahead.append {q : List α} (h : Ahead u t q) (x : α) : Ahead u t (q ++ [x]) := by
  obtain ⟨front, back, rfl, ht⟩ := h
  exact ⟨front, back ++ [x], by simp, ht⟩

/-- Removing another member changes nothing. -/
theorem Ahead.erase {u t x : α} {q : List α} (h : Ahead u t q) (hx : u ≠ x) :
    Ahead u t (q.erase x) := by
  obtain ⟨front, back, rfl, ht⟩ := h
  by_cases hmem : x ∈ front
  · rw [List.erase_append_left _ hmem]
    exact ⟨front.erase x, back, rfl, fun hmem' => ht (List.mem_of_mem_erase hmem')⟩
  · rw [List.erase_append_right _ hmem, List.erase_cons_tail (by simpa using hx)]
    exact ⟨front, back.erase x, rfl, ht⟩

/-- A member stays ahead of another through every event but its own service, leave or requeueing. -/
theorem Ahead.apply (h : Ahead u t q) {event : QueueEvent α} (happly : event.apply q = some q')
    (hserve : event ≠ .serve u) (hleave : event ≠ .leave u)
    (hrequeue : event ≠ .requeue u) : Ahead u t q' := by
  cases event with
  | keep =>
    cases happly
    exact h
  | join x =>
    cases happly
    exact h.append x
  | leave x =>
    cases happly
    exact h.erase fun heq => hleave (by rw [heq])
  | requeue x =>
    cases happly
    exact (h.erase fun heq => hrequeue (by rw [heq])).append x
  | serve x =>
    obtain ⟨hhead, happly⟩ := Option.ite_none_right_eq_some.mp happly
    cases happly
    obtain ⟨front, back, rfl, ht⟩ := h
    cases front with
    | nil =>
      cases hhead
      exact absurd rfl hserve
    | cons y front =>
      refine Ahead.append ⟨front, back, rfl, fun hmem => ht ?_⟩ x
      exact List.mem_cons_of_mem y hmem

end ChrisOS.Lib
