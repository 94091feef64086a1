import ChrisOS.Lib.ByteMem

/-!
# Filling bytes

A range of memory set to one value, as a function of the distance from its start: the range may wrap
around the space, and one that is longer than the space is the whole of it. Filling a range and then
the one behind it is filling both, whatever their lengths, so a loop that fills piece by piece is one
fill.
-/

namespace ChrisOS.Lib

variable {w : ℕ}

/-- Memory with the `n` bytes from `a` on set to `v`. -/
def filledBytes (m : ByteMem w) (a : BitVec w) (n : ℕ) (v : BitVec 8) : ByteMem w :=
  fun x => if (x - a).toNat < n then v else m x

/-- Set the `n` bytes from `a` on, the lowest first. -/
def fillUp (m : ByteMem w) (a : BitVec w) (v : BitVec 8) : ℕ → ByteMem w
  | 0 => m
  | n + 1 => Function.update (fillUp m a v n) (a + BitVec.ofNat w n) v

/-- The number of `n` digits one in base 256. -/
def repunit : ℕ → ℕ
  | 0 => 0
  | n + 1 => 1 + 256 * repunit n

/-- Store the same `k`-byte value `n` times, the lowest first. -/
def storeUp (m : ByteMem w) (a : BitVec w) (k v : ℕ) : ℕ → ByteMem w
  | 0 => m
  | n + 1 => storeLE (storeUp m a k v n) (a + BitVec.ofNat w (k * n)) k v

@[simp]
theorem filledBytes_zero (m : ByteMem w) (a : BitVec w) (v : BitVec 8) : filledBytes m a 0 v = m := by
  funext x
  exact if_neg (Nat.not_lt_zero _)

/-- A range at least as long as the space is the whole space. -/
theorem filledBytes_of_le (m : ByteMem w) (a : BitVec w) {n : ℕ} (h : 2 ^ w ≤ n) (v : BitVec 8) :
    filledBytes m a n v = fun _ => v := by
  funext x
  exact if_pos (Nat.lt_of_lt_of_le (x - a).isLt h)

/-- The address at distance zero. -/
theorem toNat_sub_eq_zero {x a : BitVec w} : (x - a).toNat = 0 ↔ x = a := by
  constructor
  · intro hzero
    have hsub : x - a = 0#w := BitVec.eq_of_toNat_eq hzero
    rw [← BitVec.sub_add_cancel x a, hsub, BitVec.zero_add]
  · rintro rfl
    rw [BitVec.sub_self, BitVec.toNat_zero]

/-- The distance to an address from a later start. -/
theorem toNat_sub_add_ofNat (x a : BitVec w) {n : ℕ} (h : n ≤ (x - a).toNat) :
    (x - (a + BitVec.ofNat w n)).toNat = (x - a).toNat - n := by
  have hlt := (x - a).isLt
  have hn : (BitVec.ofNat w n).toNat = n := by
    rw [BitVec.toNat_ofNat, Nat.mod_eq_of_lt (by omega)]
  rw [← BitVec.sub_sub, BitVec.toNat_sub_of_le, hn]
  rw [BitVec.le_def, hn]
  exact h

/-- A fill and the fill behind it. -/
theorem filledBytes_filledBytes (m : ByteMem w) (a : BitVec w) (n k : ℕ) (v : BitVec 8) :
    filledBytes (filledBytes m a n v) (a + BitVec.ofNat w n) k v = filledBytes m a (n + k) v := by
  funext x
  unfold filledBytes
  by_cases hin : (x - a).toNat < n
  · rw [if_pos hin, if_pos (show (x - a).toNat < n + k by omega), ite_self]
  · rw [toNat_sub_add_ofNat x a (by omega), if_neg hin]
    congr 1
    rw [eq_iff_iff]
    omega

/-- Setting one byte. -/
theorem update_eq_filledBytes (m : ByteMem w) (a : BitVec w) (v : BitVec 8) :
    Function.update m a v = filledBytes m a 1 v := by
  funext x
  rw [Function.update_apply, filledBytes]
  congr 1
  rw [eq_iff_iff, Nat.lt_one_iff, toNat_sub_eq_zero]

/-- The loop over bytes. -/
theorem fillUp_eq (m : ByteMem w) (a : BitVec w) (v : BitVec 8) (n : ℕ) :
    fillUp m a v n = filledBytes m a n v := by
  induction n with
  | zero => rw [fillUp, filledBytes_zero]
  | succ n ih => rw [fillUp, ih, update_eq_filledBytes, filledBytes_filledBytes]

/-- Storing a value whose bytes are all the same. -/
theorem storeLE_repunit (m : ByteMem w) (a : BitVec w) (v : BitVec 8) (n : ℕ) :
    storeLE m a n (v.toNat * repunit n) = filledBytes m a n v := by
  induction n generalizing m a with
  | zero => rw [storeLE, filledBytes_zero]
  | succ n ih =>
    have hdigits : v.toNat * repunit (n + 1) = v.toNat + 256 * (v.toNat * repunit n) := by
      rw [repunit]
      grind
    have hlow : BitVec.ofNat 8 (v.toNat + 256 * (v.toNat * repunit n)) = v := by
      apply BitVec.eq_of_toNat_eq
      rw [BitVec.toNat_ofNat]
      omega
    have hrest : (v.toNat + 256 * (v.toNat * repunit n)) / 256 = v.toNat * repunit n := by omega
    rw [storeLE, hdigits, hlow, hrest, ih]
    funext x
    rw [Function.update_apply]
    by_cases hx : x = a
    · subst hx
      rw [if_pos rfl, filledBytes, toNat_sub_eq_zero.mpr rfl, if_pos (Nat.succ_pos n)]
    · have hpos : 1 ≤ (x - a).toNat :=
        Nat.one_le_iff_ne_zero.mpr fun hzero => hx (toNat_sub_eq_zero.mp hzero)
      have hnext : (x - (a + 1)).toNat = (x - a).toNat - 1 := toNat_sub_add_ofNat x a hpos
      rw [if_neg hx, filledBytes, filledBytes, hnext]
      congr 1
      rw [eq_iff_iff]
      omega

/-- The loop over values whose bytes are all the same. -/
theorem storeUp_repunit (m : ByteMem w) (a : BitVec w) (k : ℕ) (v : BitVec 8) (n : ℕ) :
    storeUp m a k (v.toNat * repunit k) n = filledBytes m a (k * n) v := by
  induction n with
  | zero => rw [storeUp, Nat.mul_zero, filledBytes_zero]
  | succ n ih => rw [storeUp, ih, storeLE_repunit, filledBytes_filledBytes, Nat.mul_succ]

end ChrisOS.Lib
