import ChrisOS.Lib.ByteCopy
import ChrisOS.Lib.ByteFill

/-!
# Terminated strings in memory

A string of non-zero bytes at an address, with the zero byte behind it, and ranges of addresses that
have no address in common. A string is not longer than the space, since its terminator would be one
of its own bytes, and a range that misses an address does not go round the space.

Bytes copied to a range apart from the ones they are copied from are the same bytes, and a copy
followed by a zero byte makes a longer string of the one before it.
-/

namespace ChrisOS.Lib

variable {w : ℕ} {m m' : ByteMem w} {a b d : BitVec w} {s t : List (BitVec 8)} {n k : ℕ}

/-- The bytes of a string from an address on, and the zero byte that ends it. -/
structure StringAt (m : ByteMem w) (a : BitVec w) (s : List (BitVec 8)) : Prop where
  bytes : bytesAt m a s.length = s
  terminated : m (a + BitVec.ofNat w s.length) = 0
  nonzero : ∀ c ∈ s, c ≠ 0

/-- The `n` bytes from `a` on and the `k` bytes from `b` on are different ones. -/
def Apart (a : BitVec w) (n : ℕ) (b : BitVec w) (k : ℕ) : Prop :=
  ∀ i < n, ∀ j < k, a + BitVec.ofNat w i ≠ b + BitVec.ofNat w j

theorem Apart.mono (h : Apart a n b k) {n' k' : ℕ} (hn : n' ≤ n) (hk : k' ≤ k) : Apart a n' b k' :=
  fun i hi j hj => h i (by omega) j (by omega)

/-- A part of the first range. -/
theorem Apart.add_left (h : Apart a n b k) {i n' : ℕ} (hn : i + n' ≤ n) :
    Apart (a + BitVec.ofNat w i) n' b k := by
  intro i' hi' j hj
  rw [add_ofNat_add_ofNat]
  exact h (i + i') (by omega) j hj

/-- A range that misses some address is smaller than the space. -/
theorem Apart.lt (h : Apart a n b k) (hk : 0 < k) : n < 2 ^ w := by
  apply Nat.lt_of_not_le
  intro hle
  apply h (b - a).toNat (Nat.lt_of_lt_of_le (b - a).isLt hle) 0 hk
  rw [BitVec.ofNat_toNat, BitVec.setWidth_eq, BitVec.add_zero, BitVec.add_comm,
    BitVec.sub_add_cancel]

/-- A range in two parts. -/
theorem bytesAt_add (m : ByteMem w) (a : BitVec w) (n k : ℕ) :
    bytesAt m a (n + k) = bytesAt m a n ++ bytesAt m (a + BitVec.ofNat w n) k := by
  induction k with
  | zero => rw [bytesAt_zero, List.append_nil, Nat.add_zero]
  | succ k ih =>
    rw [← Nat.add_assoc, bytesAt_succ, ih, bytesAt_succ, List.append_assoc, add_ofNat_add_ofNat]

theorem take_bytesAt (m : ByteMem w) (a : BitVec w) (n k : ℕ) :
    (bytesAt m a k).take n = bytesAt m a (min n k) := by
  rw [bytesAt, ← List.map_take, List.take_range, bytesAt]

/-- The bytes of a copy. -/
theorem bytesAt_copyUp (h : Apart d n a n) (hn : n ≤ 2 ^ w) :
    bytesAt (copyUp m d a n) d n = bytesAt m a n := by
  apply bytesAt_congr
  intro i hi
  apply copyUp_apply m d a n hn _ hi
  intro i hi j hj heq
  exact h j (by omega) i hi heq.symm

/-- The bytes of a list, from an address on. -/
def HoldsAt (m : ByteMem w) (a : BitVec w) (s : List (BitVec 8)) : Prop := bytesAt m a s.length = s

theorem holdsAt_nil : HoldsAt m a [] := rfl

variable {c : BitVec 8}

theorem holdsAt_cons : HoldsAt m a (c :: s) ↔ m a = c ∧ HoldsAt m (a + 1) s := by
  rw [HoldsAt, List.length_cons, bytesAt_succ_left, List.cons_eq_cons]
  rfl

theorem holdsAt_append :
    HoldsAt m a (s ++ t) ↔ HoldsAt m a s ∧ HoldsAt m (a + BitVec.ofNat w s.length) t := by
  have hlength : (bytesAt m a s.length).length = s.length := length_bytesAt _ _ _
  rw [HoldsAt, List.length_append, bytesAt_add]
  constructor
  · exact fun h => List.append_inj h hlength
  · rintro ⟨hs, ht⟩
    exact congrArg₂ (· ++ ·) hs ht

/-- A memory that holds a text at an address, and zeros elsewhere. -/
def textMem (a : BitVec w) (s : List (BitVec 8)) : ByteMem w := fun x => s.getD (x - a).toNat 0

namespace StringAt

/-- The bytes before the end are not zero. -/
theorem ne_zero (h : StringAt m a s) {i : ℕ} (hi : i < s.length) :
    m (a + BitVec.ofNat w i) ≠ 0 := by
  apply h.nonzero
  rw [← h.bytes]
  exact mem_bytesAt.mpr ⟨i, hi, rfl⟩

/-- A byte of a string that is not zero is before its end. -/
theorem lt_length (h : StringAt m a s) {i : ℕ} (hi : i ≤ s.length)
    (hne : m (a + BitVec.ofNat w i) ≠ 0) : i < s.length := by
  apply Nat.lt_of_le_of_ne hi
  rintro rfl
  exact hne h.terminated

/-- A string has room for its terminator. -/
theorem length_lt (h : StringAt m a s) : s.length < 2 ^ w := by
  apply Nat.lt_of_not_le
  intro hle
  have hmod : s.length % 2 ^ w < s.length :=
    Nat.lt_of_lt_of_le (Nat.mod_lt _ (Nat.two_pow_pos w)) hle
  have hsame : BitVec.ofNat w (s.length % 2 ^ w) = BitVec.ofNat w s.length := by
    apply BitVec.eq_of_toNat_eq
    rw [BitVec.toNat_ofNat, BitVec.toNat_ofNat, Nat.mod_mod]
  apply h.ne_zero hmod
  rw [hsame]
  exact h.terminated

/-- A string is where its bytes and its terminator are. -/
theorem congr (h : StringAt m a s)
    (hsame : ∀ i < s.length + 1, m' (a + BitVec.ofNat w i) = m (a + BitVec.ofNat w i)) :
    StringAt m' a s where
  bytes := (bytesAt_congr fun i hi => hsame i (by omega)).trans h.bytes
  terminated := (hsame s.length (by omega)).trans h.terminated
  nonzero := h.nonzero

/-- The empty string is a zero byte. -/
theorem nil_iff : StringAt m a [] ↔ m a = 0 := by
  constructor
  · intro h
    simpa using h.terminated
  · intro h
    exact ⟨rfl, by simpa using h, by simp⟩

/-- A string is its first byte and the string behind it. -/
theorem cons_iff : StringAt m a (c :: s) ↔ m a = c ∧ c ≠ 0 ∧ StringAt m (a + 1) s := by
  have hbytes : bytesAt m a (c :: s).length = m a :: bytesAt m (a + 1) s.length :=
    bytesAt_succ_left m a s.length
  have hend : a + 1 + BitVec.ofNat w s.length = a + BitVec.ofNat w (c :: s).length :=
    add_one_add_ofNat a s.length
  constructor
  · intro h
    have hsplit := h.bytes
    rw [hbytes] at hsplit
    obtain ⟨hfirst, hrest⟩ := List.cons_eq_cons.mp hsplit
    refine ⟨hfirst, h.nonzero c List.mem_cons_self, hrest, hend ▸ h.terminated, ?_⟩
    exact fun d hd => h.nonzero d (List.mem_cons_of_mem c hd)
  · rintro ⟨hfirst, hne, h⟩
    refine ⟨by rw [hbytes, hfirst, h.bytes], hend ▸ h.terminated, ?_⟩
    exact List.forall_mem_cons.mpr ⟨hne, h.nonzero⟩

/-- A string from some of its bytes on. -/
theorem drop (h : StringAt m a s) {k : ℕ} (hk : k ≤ s.length) :
    StringAt m (a + BitVec.ofNat w k) (s.drop k) := by
  induction k generalizing a s with
  | zero => simpa using h
  | succ k ih =>
    obtain _ | ⟨c, s⟩ := s
    · exact absurd hk (Nat.not_succ_le_zero k)
    · rw [← add_one_add_ofNat, List.drop_succ_cons]
      exact ih (cons_iff.mp h).2.2 (Nat.le_of_succ_le_succ hk)

/-- The second part of a string. -/
theorem of_append (h : StringAt m a (s ++ t)) : StringAt m (a + BitVec.ofNat w s.length) t := by
  have hrest := h.drop (k := s.length) (by rw [List.length_append]; omega)
  rwa [List.drop_left] at hrest

/-- A string with its terminator. -/
theorem holdsAt (h : StringAt m a s) : HoldsAt m a (s ++ [0]) :=
  holdsAt_append.mpr ⟨h.bytes, holdsAt_cons.mpr ⟨h.terminated, holdsAt_nil⟩⟩

/-- A character of a string is there exactly where the memory holds it. -/
theorem getElem?_eq_some_iff (h : StringAt m a s) {i : ℕ} (hi : i ≤ s.length) (hc : c ≠ 0) :
    s[i]? = some c ↔ m (a + BitVec.ofNat w i) = c := by
  have hrest := h.drop hi
  rw [← List.head?_drop]
  cases hdrop : s.drop i with
  | nil =>
    rw [hdrop, nil_iff] at hrest
    rw [hrest]
    exact iff_of_false (by simp) hc.symm
  | cons d s' =>
    rw [hdrop, cons_iff] at hrest
    rw [hrest.1, List.head?_cons, Option.some.injEq]

/-- The first bytes of a string. -/
theorem bytesAt_min (h : StringAt m a s) (n : ℕ) : bytesAt m a (min n s.length) = s.take n := by
  rw [← take_bytesAt, h.bytes]

/-- Bytes and a terminator written behind them. -/
theorem of_update (hbytes : bytesAt m a s.length = s) (hnonzero : ∀ c ∈ s, c ≠ 0)
    (hlt : s.length < 2 ^ w) :
    StringAt (Function.update m (a + BitVec.ofNat w s.length) 0) a s where
  bytes := by
    refine (bytesAt_congr fun i hi => ?_).trans hbytes
    exact Function.update_of_ne (add_ofNat_ne a (by omega) (by omega) (by omega)) _ _
  terminated := Function.update_self ..
  nonzero := hnonzero

/-- A string copied with its terminator. -/
theorem copyUp_succ (hs : StringAt m a s) (hapart : Apart d (s.length + 1) a (s.length + 1)) :
    StringAt (copyUp m d a (s.length + 1)) d s := by
  have hlt := hapart.lt (Nat.succ_pos _)
  have hcopy := bytesAt_copyUp (m := m) hapart (by omega)
  rw [bytesAt_succ, bytesAt_succ, hs.bytes, hs.terminated] at hcopy
  obtain ⟨hbytes, hterminator⟩ := List.append_inj' hcopy rfl
  exact ⟨hbytes, List.singleton_inj.mp hterminator, hs.nonzero⟩

/-- Some first bytes of one string copied behind another, and a terminator behind them. -/
theorem append_copyUp (hs : StringAt m d s) (ht : StringAt m b t)
    (hapart : Apart d (s.length + min n t.length + 1) b (t.length + 1)) :
    StringAt
      (Function.update (copyUp m (d + BitVec.ofNat w s.length) b (min n t.length))
        (d + BitVec.ofNat w (s.length + min n t.length)) 0) d (s ++ t.take n) := by
  have hlt := hapart.lt (Nat.succ_pos _)
  have hlength : (s ++ t.take n).length = s.length + min n t.length := by
    rw [List.length_append, List.length_take]
  have hfront : bytesAt (copyUp m (d + BitVec.ofNat w s.length) b (min n t.length)) d s.length =
      s := by
    refine (bytesAt_congr fun i hi => ?_).trans hs.bytes
    apply copyUp_of_ne
    intro j hj
    rw [add_ofNat_add_ofNat]
    exact add_ofNat_ne d (by omega) (by omega) (by omega)
  have hback : bytesAt (copyUp m (d + BitVec.ofNat w s.length) b (min n t.length))
      (d + BitVec.ofNat w s.length) (min n t.length) = t.take n := by
    rw [← ht.bytesAt_min]
    exact bytesAt_copyUp ((hapart.mono (Nat.le_refl _) (by omega)).add_left (by omega)) (by omega)
  rw [← hlength]
  apply of_update
  · rw [hlength, bytesAt_add, hfront, hback]
  · intro c hc
    rcases List.mem_append.mp hc with hc | hc
    · exact hs.nonzero c hc
    · exact ht.nonzero c (List.mem_of_mem_take hc)
  · omega

/-- Some first bytes of a string, or all with the terminator, copied and a terminator behind
them. -/
theorem take_copyUp (hs : StringAt m a s)
    (hapart : Apart d (min n (s.length + 1) + 1) a (s.length + 1)) :
    StringAt
      (Function.update (copyUp m d a (min n (s.length + 1)))
        (d + BitVec.ofNat w (min n (s.length + 1))) 0) d (s.take n) := by
  have hlt := hapart.lt (Nat.succ_pos _)
  by_cases hn : n ≤ s.length
  · have hlength : (s.take n).length = min n (s.length + 1) := by
      rw [List.length_take]
      omega
    rw [← hlength]
    apply of_update
    · rw [hlength, bytesAt_copyUp (hapart.mono (Nat.le_succ _) (by omega)) (by omega),
        ← hs.bytesAt_min, Nat.min_eq_left hn, Nat.min_eq_left (by omega)]
    · exact fun c hc => hs.nonzero c (List.mem_of_mem_take hc)
    · omega
  · rw [Nat.min_eq_right (by omega)] at hlt hapart ⊢
    rw [List.take_of_length_le (by omega)]
    apply (hs.copyUp_succ (hapart.mono (Nat.le_succ _) (Nat.le_refl _))).congr
    intro i hi
    exact Function.update_of_ne (add_ofNat_ne d (by omega) (by omega) (by omega)) _ _

end StringAt

theorem stringAt_textMem (hne : ∀ c ∈ s, c ≠ 0) (hlt : s.length < 2 ^ w) :
    StringAt (textMem a s) a s := by
  have hread {i : ℕ} (hi : i ≤ s.length) : textMem a s (a + BitVec.ofNat w i) = s.getD i 0 := by
    rw [textMem, BitVec.add_comm, BitVec.add_sub_cancel, BitVec.toNat_ofNat,
      Nat.mod_eq_of_lt (by omega)]
  refine ⟨?_, ?_, hne⟩
  · apply List.ext_getElem (length_bytesAt _ _ _)
    intro i hi hi'
    simp only [bytesAt, List.getElem_map, List.getElem_range]
    rw [hread (Nat.le_of_lt hi'), List.getD_eq_getElem?_getD, List.getElem?_eq_getElem hi',
      Option.getD_some]
  · rw [hread (Nat.le_refl _), List.getD_eq_getElem?_getD, List.getElem?_eq_none (Nat.le_refl _),
      Option.getD_none]

end ChrisOS.Lib
