import Mathlib.Algebra.Group.Nat.Defs
import Mathlib.Data.Nat.Bits
import Mathlib.Logic.Function.Basic

/-!
# Byte-addressed memory

A memory maps every address of a `w`-bit space to a byte. Multi-byte accesses are
little-endian, and the addresses of one access wrap around the space as the processor's do.
-/

namespace ChrisOS.Lib

variable {w : ℕ}

/-- The bytes at every address of a `w`-bit space. -/
abbrev ByteMem (w : ℕ) := BitVec w → BitVec 8

/-- The little-endian value of the `n` bytes from `a` on. -/
def loadLE (m : ByteMem w) (a : BitVec w) : ℕ → ℕ
  | 0 => 0
  | n + 1 => (m a).toNat + 256 * loadLE m (a + 1) n

/-- Write the `n` low bytes of `v` from `a` on. -/
def storeLE (m : ByteMem w) (a : BitVec w) : ℕ → ℕ → ByteMem w
  | 0, _ => m
  | n + 1, v => Function.update (storeLE m (a + 1) n (v / 256)) a (BitVec.ofNat 8 v)

/-- The 16-bit value at an address. -/
def load16 (m : ByteMem w) (a : BitVec w) : BitVec 16 := BitVec.ofNat 16 (loadLE m a 2)

/-- The 32-bit word at an address. -/
def load32 (m : ByteMem w) (a : BitVec w) : BitVec 32 := BitVec.ofNat 32 (loadLE m a 4)

/-- The 64-bit value at an address. -/
def load64 (m : ByteMem w) (a : BitVec w) : BitVec 64 := BitVec.ofNat 64 (loadLE m a 8)

/-- Write a 32-bit word. -/
def store32 (m : ByteMem w) (a : BitVec w) (v : BitVec 32) : ByteMem w := storeLE m a 4 v.toNat

/-- Offsets add up. -/
theorem add_ofNat_add_ofNat (a : BitVec w) (i j : ℕ) :
    a + BitVec.ofNat w i + BitVec.ofNat w j = a + BitVec.ofNat w (i + j) := by
  rw [BitVec.ofNat_add, BitVec.add_assoc]

/-- An offset from a later start. -/
theorem add_add_ofNat (a d : BitVec w) (i : ℕ) :
    a + d + BitVec.ofNat w i = a + BitVec.ofNat w (d.toNat + i) := by
  rw [← add_ofNat_add_ofNat, BitVec.ofNat_toNat, BitVec.setWidth_eq]

/-- Stepping to the next byte is adding one more to the offset. -/
theorem add_one_add_ofNat (a : BitVec w) (i : ℕ) :
    a + 1 + BitVec.ofNat w i = a + BitVec.ofNat w (i + 1) := by
  rw [BitVec.add_assoc, Nat.add_comm i 1, BitVec.ofNat_add]
  rfl

/-- A load depends only on the bytes it reads. -/
theorem loadLE_congr {m m' : ByteMem w} (a : BitVec w) (n : ℕ)
    (h : ∀ i < n, m (a + BitVec.ofNat w i) = m' (a + BitVec.ofNat w i)) :
    loadLE m a n = loadLE m' a n := by
  induction n generalizing a with
  | zero => rfl
  | succ n ih =>
    have hfirst : m a = m' a := by simpa using h 0 (Nat.succ_pos n)
    rw [loadLE, loadLE, hfirst, ih (a + 1)]
    intro i hi
    rw [add_one_add_ofNat]
    exact h (i + 1) (Nat.succ_lt_succ hi)

/-- A store changes no byte outside the ones it writes. -/
theorem storeLE_of_ne (m : ByteMem w) (a x : BitVec w) (n v : ℕ)
    (h : ∀ i < n, x ≠ a + BitVec.ofNat w i) : storeLE m a n v x = m x := by
  induction n generalizing a v with
  | zero => rfl
  | succ n ih =>
    have hfirst : x ≠ a := by simpa using h 0 (Nat.succ_pos n)
    rw [storeLE, Function.update_of_ne hfirst, ih (a + 1)]
    intro i hi
    rw [add_one_add_ofNat]
    exact h (i + 1) (Nat.succ_lt_succ hi)

/-- Distinct offsets below the size of the space are distinct addresses. -/
theorem add_ofNat_ne (a : BitVec w) {i j : ℕ} (hi : i < 2 ^ w) (hj : j < 2 ^ w) (h : i ≠ j) :
    a + BitVec.ofNat w i ≠ a + BitVec.ofNat w j := by
  intro heq
  have hvalue := congrArg BitVec.toNat ((BitVec.add_right_inj a).mp heq)
  rw [BitVec.toNat_ofNat, BitVec.toNat_ofNat, Nat.mod_eq_of_lt hi, Nat.mod_eq_of_lt hj] at hvalue
  exact h hvalue

/-- A load reads back the low bytes of what was stored there. -/
theorem loadLE_storeLE (m : ByteMem w) (a : BitVec w) (n v : ℕ) (hn : n ≤ 2 ^ w) :
    loadLE (storeLE m a n v) a n = v % 256 ^ n := by
  induction n generalizing a v with
  | zero => rw [loadLE, Nat.pow_zero, Nat.mod_one]
  | succ n ih =>
    have hrest : loadLE (storeLE m a (n + 1) v) (a + 1) n =
        loadLE (storeLE m (a + 1) n (v / 256)) (a + 1) n := by
      apply loadLE_congr
      intro i hi
      rw [storeLE, Function.update_of_ne]
      rw [add_one_add_ofNat]
      simpa using add_ofNat_ne a (i := i + 1) (j := 0) (by omega) (by omega) (by omega)
    rw [loadLE, hrest, ih (a + 1) _ (Nat.le_of_succ_le hn), storeLE, Function.update_self,
      BitVec.toNat_ofNat, Nat.pow_succ' (m := 256), Nat.mod_mul (a := 256)]

/-- A word load reads back a word store. -/
theorem load32_store32 (m : ByteMem 32) (a : BitVec 32) (v : BitVec 32) :
    load32 (store32 m a v) a = v := by
  have hlt : v.toNat < 256 ^ 4 := by omega
  rw [load32, store32, loadLE_storeLE _ _ _ _ (by decide), Nat.mod_eq_of_lt hlt]
  rw [BitVec.ofNat_toNat, BitVec.setWidth_eq]

/-- A word load depends only on its four bytes. -/
theorem load32_congr {m m' : ByteMem w} (a : BitVec w)
    (h : ∀ i < 4, m (a + BitVec.ofNat w i) = m' (a + BitVec.ofNat w i)) :
    load32 m a = load32 m' a :=
  congrArg (BitVec.ofNat 32) (loadLE_congr a 4 h)

end ChrisOS.Lib
