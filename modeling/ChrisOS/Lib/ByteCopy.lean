import ChrisOS.Lib.ByteMem

/-!
# Copying bytes one at a time

Loops that copy `n` bytes between two addresses, upwards and downwards. The ranges may overlap
and may wrap around the space; a loop copies as if it had read everything before it wrote
anything when no byte is written before it is read.
-/

namespace ChrisOS.Lib

variable {w : ℕ}

/-- The `n` bytes from an address on. -/
def bytesAt (m : ByteMem w) (a : BitVec w) (n : ℕ) : List (BitVec 8) :=
  (List.range n).map fun i => m (a + BitVec.ofNat w i)

@[simp]
theorem bytesAt_zero (m : ByteMem w) (a : BitVec w) : bytesAt m a 0 = [] := rfl

@[simp]
theorem length_bytesAt (m : ByteMem w) (a : BitVec w) (n : ℕ) : (bytesAt m a n).length = n := by
  simp [bytesAt]

/-- One more byte at the end. -/
theorem bytesAt_succ (m : ByteMem w) (a : BitVec w) (n : ℕ) :
    bytesAt m a (n + 1) = bytesAt m a n ++ [m (a + BitVec.ofNat w n)] := by
  simp [bytesAt, List.range_succ]

/-- One more byte at the front. -/
theorem bytesAt_succ_left (m : ByteMem w) (a : BitVec w) (n : ℕ) :
    bytesAt m a (n + 1) = m a :: bytesAt m (a + 1) n := by
  rw [bytesAt, List.range_succ_eq_map, List.map_cons, List.map_map, bytesAt]
  congr 1
  · simp
  · apply List.map_congr_left
    intro i _
    exact congrArg m (add_one_add_ofNat a i).symm

/-- Two ranges hold the same bytes. -/
theorem bytesAt_congr {m m' : ByteMem w} {a a' : BitVec w} {n : ℕ}
    (h : ∀ i < n, m (a + BitVec.ofNat w i) = m' (a' + BitVec.ofNat w i)) :
    bytesAt m a n = bytesAt m' a' n := by
  apply List.map_congr_left
  intro i hi
  exact h i (List.mem_range.mp hi)

/-- What a range holds. -/
theorem mem_bytesAt {m : ByteMem w} {a : BitVec w} {n : ℕ} {c : BitVec 8} :
    c ∈ bytesAt m a n ↔ ∃ i < n, m (a + BitVec.ofNat w i) = c := by
  simp [bytesAt]

/-- Copy `n` bytes, the lowest first. -/
def copyUp (m : ByteMem w) (dest src : BitVec w) : ℕ → ByteMem w
  | 0 => m
  | n + 1 =>
    let m := copyUp m dest src n
    Function.update m (dest + BitVec.ofNat w n) (m (src + BitVec.ofNat w n))

/-- Copy `n` bytes, the highest first. -/
def copyDown (m : ByteMem w) (dest src : BitVec w) : ℕ → ByteMem w
  | 0 => m
  | n + 1 =>
    copyDown (Function.update m (dest + BitVec.ofNat w n) (m (src + BitVec.ofNat w n))) dest src n

/-- Copying upwards changes nothing outside the destination. -/
theorem copyUp_of_ne (m : ByteMem w) (dest src x : BitVec w) (n : ℕ)
    (h : ∀ i < n, x ≠ dest + BitVec.ofNat w i) : copyUp m dest src n x = m x := by
  induction n with
  | zero => rfl
  | succ n ih =>
    rw [copyUp, Function.update_of_ne (h n (Nat.lt_succ_self n))]
    exact ih fun i hi => h i (Nat.lt_succ_of_lt hi)

/-- Copying downwards changes nothing outside the destination. -/
theorem copyDown_of_ne (m : ByteMem w) (dest src x : BitVec w) (n : ℕ)
    (h : ∀ i < n, x ≠ dest + BitVec.ofNat w i) : copyDown m dest src n x = m x := by
  induction n generalizing m with
  | zero => rfl
  | succ n ih =>
    rw [copyDown, ih _ fun i hi => h i (Nat.lt_succ_of_lt hi),
      Function.update_of_ne (h n (Nat.lt_succ_self n))]

/-- Copying upwards, when no byte is written before it is read. -/
theorem copyUp_apply (m : ByteMem w) (dest src : BitVec w) (n : ℕ) (hn : n ≤ 2 ^ w)
    (h : ∀ i < n, ∀ j < i, src + BitVec.ofNat w i ≠ dest + BitVec.ofNat w j) {i : ℕ} (hi : i < n) :
    copyUp m dest src n (dest + BitVec.ofNat w i) = m (src + BitVec.ofNat w i) := by
  induction n with
  | zero => omega
  | succ n ih =>
    have hbelow : ∀ i < n, ∀ j < i, src + BitVec.ofNat w i ≠ dest + BitVec.ofNat w j :=
      fun i hi => h i (Nat.lt_succ_of_lt hi)
    rw [copyUp]
    by_cases hin : i = n
    · subst hin
      rw [Function.update_self, copyUp_of_ne _ _ _ _ _ (h i hi)]
    · rw [Function.update_of_ne (add_ofNat_ne dest (by omega) (by omega) hin)]
      exact ih (by omega) hbelow (by omega)

/-- Copying downwards, when no byte is written before it is read. -/
theorem copyDown_apply (m : ByteMem w) (dest src : BitVec w) (n : ℕ) (hn : n ≤ 2 ^ w)
    (h : ∀ j < n, ∀ i < j, src + BitVec.ofNat w i ≠ dest + BitVec.ofNat w j) {i : ℕ} (hi : i < n) :
    copyDown m dest src n (dest + BitVec.ofNat w i) = m (src + BitVec.ofNat w i) := by
  induction n generalizing m with
  | zero => omega
  | succ n ih =>
    rw [copyDown]
    by_cases hin : i = n
    · subst hin
      rw [copyDown_of_ne, Function.update_self]
      intro j hj
      exact add_ofNat_ne dest (by omega) (by omega) (by omega)
    · rw [ih _ (by omega) (fun j hj => h j (Nat.lt_succ_of_lt hj)) (by omega),
        Function.update_of_ne (h n (Nat.lt_succ_self n) i (by omega))]

/-- Copying downwards within a set of bytes depends on no others. -/
theorem copyDown_congr {m m' : ByteMem w} (bytes : Set (BitVec w)) {dest src : BitVec w} {n : ℕ}
    (h : ∀ x ∈ bytes, m x = m' x) (hsrc : ∀ i < n, src + BitVec.ofNat w i ∈ bytes) :
    ∀ x ∈ bytes, copyDown m dest src n x = copyDown m' dest src n x := by
  induction n generalizing m m' with
  | zero => exact h
  | succ n ih =>
    rw [copyDown, copyDown, h _ (hsrc n (Nat.lt_succ_self n))]
    refine ih (fun x hx => ?_) fun i hi => hsrc i (Nat.lt_succ_of_lt hi)
    rw [Function.update_apply, Function.update_apply, h x hx]

/-- A byte copied downwards comes from the destination if the source lies ahead in it, since it has been
written by then. -/
theorem copyDown_eq (m : ByteMem w) (dest src : BitVec w) {n k : ℕ} (hn : n ≤ 2 ^ w) (hk : k < n) :
    copyDown m dest src n (dest + BitVec.ofNat w k) =
      if 0 < (src - dest).toNat ∧ k + (src - dest).toNat < n then
        copyDown m dest src n (dest + BitVec.ofNat w (k + (src - dest).toNat))
      else m (src + BitVec.ofNat w k) := by
  have hsrc : src + BitVec.ofNat w k = dest + BitVec.ofNat w (k + (src - dest).toNat) := by
    rw [Nat.add_comm, ← add_add_ofNat, BitVec.add_comm dest, BitVec.sub_add_cancel]
  have hd := (src - dest).isLt
  induction n generalizing m with
  | zero => omega
  | succ n ih =>
    have hlast : ∀ m' : ByteMem w, copyDown m' dest src n (dest + BitVec.ofNat w n) =
        m' (dest + BitVec.ofNat w n) := fun m' =>
      copyDown_of_ne _ _ _ _ _ fun i hi => add_ofNat_ne dest (by omega) (by omega) (by omega)
    rw [copyDown]
    by_cases hkn : k = n
    · rw [hkn, hlast, Function.update_self, if_neg (by omega)]
    · rw [ih _ (by omega) (by omega)]
      by_cases hnext : 0 < (src - dest).toNat ∧ k + (src - dest).toNat = n
      · -- the byte read is the one just written
        rw [if_neg (by omega), if_pos (by omega), hsrc, hnext.2, hlast]
      · have hother : src + BitVec.ofNat w k ≠ dest + BitVec.ofNat w n := by
          rw [hsrc]
          intro heq
          have hvalue := congrArg BitVec.toNat ((BitVec.add_right_inj dest).mp heq)
          rw [BitVec.toNat_ofNat, BitVec.toNat_ofNat, Nat.mod_eq_of_lt (by omega : n < 2 ^ w)] at hvalue
          by_cases hwrap : k + (src - dest).toNat < 2 ^ w
          · rw [Nat.mod_eq_of_lt hwrap] at hvalue
            omega
          · rw [Nat.mod_eq_sub_mod (by omega), Nat.mod_eq_of_lt (by omega)] at hvalue
            omega
        rw [Function.update_of_ne hother]
        congr 1
        rw [eq_iff_iff]
        omega

/-- Copying downwards copies exactly if the bytes repeat where the source lies ahead in the
destination. -/
theorem copyDown_copies_iff (m : ByteMem w) (dest src : BitVec w) {n : ℕ} (hn : n ≤ 2 ^ w) :
    (∀ k < n, copyDown m dest src n (dest + BitVec.ofNat w k) = m (src + BitVec.ofNat w k)) ↔
      ∀ k, k + (src - dest).toNat < n →
        m (src + BitVec.ofNat w k) = m (src + BitVec.ofNat w (k + (src - dest).toNat)) := by
  constructor
  · intro h k hk
    by_cases hzero : (src - dest).toNat = 0
    · rw [hzero, Nat.add_zero]
    · rw [← h k (by omega), ← h _ hk, copyDown_eq m dest src hn (by omega), if_pos ⟨by omega, hk⟩]
  · -- from the last byte on
    intro h k hk
    induction hrest : n - k using Nat.strongRecOn generalizing k with
    | ind rest ih =>
      rw [copyDown_eq m dest src hn hk]
      split
      · next hahead => rw [ih _ (by omega) _ hahead.2 rfl, h k hahead.2]
      · rfl

end ChrisOS.Lib
