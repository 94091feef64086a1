import Mathlib.Data.List.Basic

/-!
# C strings

The copying functions of `utils/string.c`. A string is the list of the bytes from its address on;
it ends at the first zero byte, at the latest at the end of the list. Memory for the copies is
assumed to be there.
-/

namespace ChrisOS.Utils

/-- `strdup`. -/
def strdup : List (BitVec 8) → List (BitVec 8)
  | [] => []
  | c :: rest => if c = 0 then [] else c :: strdup rest

/-- `strndup`. -/
def strndup : List (BitVec 8) → Nat → List (BitVec 8)
  | _, 0 => []
  | [], _ + 1 => []
  | c :: rest, n + 1 => if c = 0 then [] else c :: strndup rest n

/-- A copy of a string is the string. -/
theorem strdup_of_forall_ne {s : List (BitVec 8)} (h : ∀ c ∈ s, c ≠ 0) : strdup s = s := by
  induction s with
  | nil => rfl
  | cons c rest ih =>
    rw [strdup, if_neg (h c List.mem_cons_self), ih fun x hx => h x (List.mem_cons_of_mem c hx)]

/-- A copy of the first bytes. -/
theorem strndup_append {s : List (BitVec 8)} (h : ∀ c ∈ s, c ≠ 0) (tail : List (BitVec 8)) :
    strndup (s ++ tail) s.length = s := by
  induction s with
  | nil => rw [List.length_nil, strndup]
  | cons c rest ih =>
    rw [List.cons_append, List.length_cons, strndup, if_neg (h c List.mem_cons_self),
      ih fun x hx => h x (List.mem_cons_of_mem c hx)]

end ChrisOS.Utils
