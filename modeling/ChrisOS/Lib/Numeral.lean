import Mathlib.Data.Nat.Digits.Lemmas

/-!
# Positional numerals

The digits of a number in a base, the lowest first and at least one of them, and the number that a
row of digits stands for when it is read from the highest on. Reading with a largest value stops as
soon as the number exceeds it; the test for that divides the largest value and never computes a
number beyond it.
-/

namespace ChrisOS.Lib

variable {b n d acc bound : ℕ}

/-- The digits of a number, the lowest first. Zero has one digit. -/
def numeral (b n : ℕ) : List ℕ := if n = 0 then [0] else Nat.digits b n

/-- The number that digits stand for, the highest first, with `acc` in front of them. -/
def readFrom (b acc : ℕ) (ds : List ℕ) : ℕ := ds.foldl (fun acc d => acc * b + d) acc

theorem readFrom_nil : readFrom b acc [] = acc := rfl

theorem readFrom_cons (ds : List ℕ) : readFrom b acc (d :: ds) = readFrom b (acc * b + d) ds := rfl

/-- Read backwards, the lowest digit first. -/
theorem readFrom_reverse (ds : List ℕ) : readFrom b 0 ds.reverse = Nat.ofDigits b ds := by
  rw [readFrom, List.foldl_reverse, Nat.ofDigits_eq_foldr]
  induction ds with
  | nil => rfl
  | cons d ds ih => rw [List.foldr_cons, List.foldr_cons, ih, Nat.cast_id, Nat.add_comm, Nat.mul_comm]

/-- Zeros in front do not count. -/
theorem readFrom_replicate_zero (k : ℕ) (ds : List ℕ) :
    readFrom b 0 (List.replicate k 0 ++ ds) = readFrom b 0 ds := by
  induction k with
  | zero => rfl
  | succ k ih => rw [List.replicate_succ, List.cons_append, readFrom_cons, Nat.zero_mul, ih]

/-- What is read does not get smaller. -/
theorem le_readFrom (hb : 0 < b) (acc : ℕ) (ds : List ℕ) : acc ≤ readFrom b acc ds := by
  induction ds generalizing acc with
  | nil => exact Nat.le_refl acc
  | cons d ds ih =>
    calc acc ≤ acc * b := Nat.le_mul_of_pos_right acc hb
      _ ≤ acc * b + d := Nat.le_add_right _ _
      _ ≤ readFrom b acc (d :: ds) := ih _

/-- The digits of a number stand for it. -/
theorem readFrom_numeral (b n : ℕ) : readFrom b 0 (numeral b n).reverse = n := by
  rw [readFrom_reverse, numeral]
  split
  · rename_i hzero
    rw [hzero, Nat.ofDigits_singleton]
  · exact Nat.ofDigits_digits b n

theorem numeral_ne_nil (b n : ℕ) : numeral b n ≠ [] := by
  rw [numeral]
  split
  · exact List.cons_ne_nil _ _
  · rename_i hne
    exact Nat.digits_ne_nil_iff_ne_zero.mpr hne

/-- The lowest digit, and the digits of the rest if there is one. -/
theorem numeral_eq (hb : 1 < b) (n : ℕ) :
    numeral b n = n % b :: if n / b = 0 then [] else numeral b (n / b) := by
  rw [numeral, numeral]
  by_cases hzero : n = 0
  · rw [hzero, if_pos rfl, Nat.zero_mod, Nat.zero_div, if_pos rfl]
  · rw [if_neg hzero, Nat.digits_def' hb (Nat.pos_of_ne_zero hzero)]
    split
    · rename_i hrest
      rw [hrest, Nat.digits_zero]
    · rfl

/-- Digits are below the base. -/
theorem numeral_lt (hb : 1 < b) (hd : d ∈ numeral b n) : d < b := by
  rw [numeral] at hd
  split at hd
  · rw [List.mem_singleton.mp hd]
    omega
  · exact Nat.digits_lt_base hb hd

/-- The number of digits of a bounded number. -/
theorem length_numeral_le (hb : 1 < b) {k : ℕ} (hk : 0 < k) (hn : n < b ^ k) :
    (numeral b n).length ≤ k := by
  rw [numeral]
  split
  · exact hk
  · exact (Nat.digits_length_le_iff hb n).mpr hn

/-- The highest digit is zero for zero alone. -/
theorem reverse_numeral_eq_cons (b n : ℕ) :
    ∃ d ds, (numeral b n).reverse = d :: ds ∧ (n ≠ 0 → d ≠ 0) := by
  obtain ⟨ds, d, hds⟩ := List.eq_nil_or_concat (numeral b n) |>.resolve_left (numeral_ne_nil b n)
  refine ⟨d, ds.reverse, by rw [hds, List.concat_eq_append, List.reverse_append]; rfl, ?_⟩
  intro hne
  have hdigits : Nat.digits b n = ds ++ [d] := by
    rw [← List.concat_eq_append, ← hds, numeral, if_neg hne]
  have hlast := Nat.getLast_digit_ne_zero b hne
  simp only [hdigits, List.getLast_append_singleton] at hlast
  exact hlast

/-- The test before a digit is taken: with the quotient and the remainder of the largest value, it
says that the next number exceeds it. -/
theorem cutoff_iff (bound acc : ℕ) (hd : d < b) :
    bound / b < acc ∨ acc = bound / b ∧ bound % b < d ↔ bound < acc * b + d := by
  have hb : 0 < b := Nat.lt_of_le_of_lt (Nat.zero_le d) hd
  have hbound := Nat.div_add_mod bound b
  have hrem := Nat.mod_lt bound hb
  rw [Nat.mul_comm] at hbound
  obtain hlt | heq | hgt := Nat.lt_trichotomy (bound / b) acc
  · have hle : (bound / b + 1) * b ≤ acc * b := Nat.mul_le_mul_right b hlt
    rw [Nat.add_mul, Nat.one_mul] at hle
    exact iff_of_true (Or.inl hlt) (by omega)
  · rw [← heq]
    constructor
    · rintro (hlt | ⟨-, hlt⟩)
      · omega
      · omega
    · intro hlt
      exact Or.inr ⟨rfl, by omega⟩
  · have hle : (acc + 1) * b ≤ bound / b * b := Nat.mul_le_mul_right b hgt
    rw [Nat.add_mul, Nat.one_mul] at hle
    refine iff_of_false ?_ (by omega)
    rintro (hlt | ⟨heq, -⟩)
    · omega
    · omega

end ChrisOS.Lib
