import ChrisOS.Utils.Mem

/-!
# Bit fields

The macros `bitmask`, `getbits` and `withbits` of `sys/param.h`, through which the registers of
the hardware are read and packed, and `isset`. A field is the bits `i` to `j` of a word. Everything
else follows from which bits each of the macros has.
-/

namespace ChrisOS.Sys

open ChrisOS.Utils

/-- `bitmask(a, b)`. -/
def bitmask (a b : Nat) : Word := ((-1 : Word) >>> (31 - b)) &&& ~~~(((1 : Word) <<< a) - 1)

/-- `getbits(a, i, j)`. -/
def getbits (a : Word) (i j : Nat) : Word := (a &&& bitmask i j) >>> i

/-- `getbit(a, i)`. -/
def getbit (a : Word) (i : Nat) : Word := getbits a i i

/-- `withbits(a, i, j, value)`. -/
def withbits (a : Word) (i j : Nat) (value : Word) : Word :=
  (a &&& ~~~(bitmask i j)) ||| ((value <<< i) &&& bitmask i j)

/-- `withbit(a, i, value)`. -/
def withbit (a : Word) (i : Nat) (value : Word) : Word := withbits a i i value

/-- `isset(&a, i)`, which looks at the byte that holds bit `i`. -/
def isset (a : Word) (i : Nat) : Bool :=
  ((a >>> (i / 8 * 8)).setWidth 8 &&& ((1 : BitVec 8) <<< (i % 8))) ≠ 0

/-- The bits below position `a`. -/
theorem getLsbD_one_shiftLeft_sub_one {a k : Nat} (ha : a < 32) :
    (((1 : Word) <<< a) - 1).getLsbD k = decide (k < a) := by
  have hpos : 0 < 2 ^ a := Nat.two_pow_pos a
  have hlt : 2 ^ a < 2 ^ 32 := Nat.pow_lt_pow_right (by decide) ha
  have htoNat : (((1 : Word) <<< a) - 1).toNat = 2 ^ a - 1 := by
    rw [BitVec.toNat_sub, BitVec.toNat_shiftLeft, Nat.shiftLeft_eq]
    simp only [BitVec.ofNat_eq_ofNat, BitVec.toNat_ofNat]
    omega
  rw [BitVec.getLsbD, htoNat, Nat.testBit_two_pow_sub_one]

/-- The mask of a field has the field's bits. -/
theorem getLsbD_bitmask {a b k : Nat} (ha : a < 32) (hb : b < 32) :
    (bitmask a b).getLsbD k = decide (a ≤ k ∧ k ≤ b) := by
  have hones : (-1 : Word) = BitVec.allOnes 32 := by decide
  rw [bitmask, hones, BitVec.getLsbD_and, BitVec.getLsbD_ushiftRight, BitVec.getLsbD_allOnes,
    BitVec.getLsbD_not, getLsbD_one_shiftLeft_sub_one ha]
  by_cases hk : k < 32 <;> by_cases hak : a ≤ k <;> by_cases hkb : k ≤ b <;> simp [*] <;> omega

variable {i j : Nat}

/-- The bits of a field that was read. -/
theorem getLsbD_getbits (a : Word) (hi : i < 32) (hj : j < 32) (k : Nat) :
    (getbits a i j).getLsbD k = (a.getLsbD (i + k) && decide (i + k ≤ j)) := by
  rw [getbits, BitVec.getLsbD_ushiftRight, BitVec.getLsbD_and, getLsbD_bitmask hi hj]
  simp

/-- A write has the value's bits in the field and the old ones elsewhere. -/
theorem getLsbD_withbits (a value : Word) (hi : i < 32) (hj : j < 32) (k : Nat) :
    (withbits a i j value).getLsbD k =
      if i ≤ k ∧ k ≤ j then value.getLsbD (k - i) else a.getLsbD k := by
  rw [withbits, BitVec.getLsbD_or, BitVec.getLsbD_and, BitVec.getLsbD_not, BitVec.getLsbD_and,
    BitVec.getLsbD_shiftLeft, getLsbD_bitmask hi hj]
  by_cases hk : k < 32
  · by_cases hfield : i ≤ k ∧ k ≤ j
    · simp [hfield, hk]
    · simp [hfield, hk]
  · have hfield : ¬ (i ≤ k ∧ k ≤ j) := by omega
    rw [if_neg hfield, BitVec.getLsbD_of_ge a k (by omega)]
    simp [hk]

/-- A field reads back as much of what was written to it as it has room for. -/
theorem toNat_getbits_withbits (a value : Word) (hij : i ≤ j) (hj : j < 32) :
    (getbits (withbits a i j value) i j).toNat = value.toNat % 2 ^ (j - i + 1) := by
  apply Nat.eq_of_testBit_eq
  intro k
  rw [Nat.testBit_mod_two_pow, BitVec.testBit_toNat, BitVec.testBit_toNat,
    getLsbD_getbits _ (by omega) hj, getLsbD_withbits _ _ (by omega) hj]
  by_cases hk : i + k ≤ j
  · rw [if_pos (by omega), Nat.add_sub_cancel_left, decide_eq_true hk, Bool.and_true,
      decide_eq_true (by omega), Bool.true_and]
  · rw [decide_eq_false hk, Bool.and_false, decide_eq_false (by omega), Bool.false_and]

/-- A field reads back what was written to it, if the value fits. -/
theorem getbits_withbits {a value : Word} (hij : i ≤ j) (hj : j < 32)
    (hvalue : value.toNat < 2 ^ (j - i + 1)) : getbits (withbits a i j value) i j = value := by
  apply BitVec.eq_of_toNat_eq
  rw [toNat_getbits_withbits a value hij hj, Nat.mod_eq_of_lt hvalue]

/-- Writing to a field what it holds changes nothing. -/
theorem withbits_getbits (a : Word) (hi : i < 32) (hj : j < 32) :
    withbits a i j (getbits a i j) = a := by
  apply BitVec.eq_of_getLsbD_eq
  intro k _
  rw [getLsbD_withbits _ _ hi hj]
  by_cases hk : i ≤ k ∧ k ≤ j
  · rw [if_pos hk, getLsbD_getbits _ hi hj, Nat.add_sub_cancel' hk.1, decide_eq_true hk.2,
      Bool.and_true]
  · rw [if_neg hk]

/-- The last write to a field counts. -/
theorem withbits_withbits (a v w : Word) (hi : i < 32) (hj : j < 32) :
    withbits (withbits a i j v) i j w = withbits a i j w := by
  apply BitVec.eq_of_getLsbD_eq
  intro k _
  rw [getLsbD_withbits _ _ hi hj, getLsbD_withbits _ _ hi hj, getLsbD_withbits _ _ hi hj]
  by_cases hk : i ≤ k ∧ k ≤ j
  · rw [if_pos hk, if_pos hk]
  · rw [if_neg hk, if_neg hk, if_neg hk]

/-- Writes to two fields can be made in either order. -/
theorem withbits_comm (a v w : Word) {i j i' j' : Nat} (hi : i < 32) (hj : j < 32) (hi' : i' < 32)
    (hj' : j' < 32) (hdisjoint : j < i' ∨ j' < i) :
    withbits (withbits a i j v) i' j' w = withbits (withbits a i' j' w) i j v := by
  apply BitVec.eq_of_getLsbD_eq
  intro k _
  rw [getLsbD_withbits _ _ hi' hj', getLsbD_withbits _ _ hi hj, getLsbD_withbits _ _ hi hj,
    getLsbD_withbits _ _ hi' hj']
  by_cases hk : i ≤ k ∧ k ≤ j
  · rw [if_pos hk, if_pos hk, if_neg (by omega)]
  · rw [if_neg hk, if_neg hk]

/-- A field is not disturbed by a write to another. -/
theorem getbits_withbits_of_disjoint {a value : Word} {i j i' j' : Nat} (hi : i < 32) (hj : j < 32)
    (hi' : i' < 32) (hj' : j' < 32) (hdisjoint : j < i' ∨ j' < i) :
    getbits (withbits a i j value) i' j' = getbits a i' j' := by
  apply BitVec.eq_of_getLsbD_eq
  intro k _
  rw [getLsbD_getbits _ hi' hj', getLsbD_getbits _ hi' hj', getLsbD_withbits _ _ hi hj]
  by_cases hk : i' + k ≤ j'
  · rw [if_neg (by omega)]
  · simp [hk]

/-- The byte with a bit of a word has it where the word has. -/
theorem isset_eq_getLsbD (a : Word) (i : Nat) : isset a i = a.getLsbD i := by
  have hmask : ((1 : BitVec 8) <<< (i % 8)) = BitVec.twoPow 8 (i % 8) := by
    simp [BitVec.twoPow_eq]
  have hbit : i % 8 < 8 := Nat.mod_lt _ (by decide)
  have hsplit : i / 8 * 8 + i % 8 = i := by omega
  have hne : BitVec.twoPow 8 (i % 8) ≠ 0 := by
    intro hzero
    have hget := congrArg (fun v => v.getLsbD (i % 8)) hzero
    simp [hbit] at hget
  rw [isset, hmask, BitVec.and_twoPow, BitVec.getLsbD_setWidth, BitVec.getLsbD_ushiftRight, hsplit]
  cases a.getLsbD i
  · simp
  · simpa [hbit] using hne

end ChrisOS.Sys
