import ChrisOS.Lib.ByteFill
import ChrisOS.Lib.ByteString
import ChrisOS.Utils.CString
import ChrisOS.Utils.Mem

/-!
# Building strings in memory

The functions of `utils/string.c` that copy strings, on the bytes of the memory: `strlen`, `strdup`,
`strndup`, `strcpy`, `strncpy`, `strcat` and `strncat`. An index is a number; the loops that stop at
a zero byte are bounded by `fuel`, and `none` is a loop that has not stopped. `kmalloc` is a
parameter, given the size and the memory, which returns an address and the memory as it leaves it.

`strcpy` alone stores no terminator: what it leaves is the string only where the byte behind it was
zero before. The others end what they write, so that is all they depend on.
-/

namespace ChrisOS.Utils.StringMem

open ChrisOS.Lib

/-- The loop of `strlen`. -/
def strlenFrom (m : ByteMem 32) (str : Word) : ℕ → ℕ → Option ℕ
  | 0, _ => none
  | fuel + 1, ret =>
    if m (str + BitVec.ofNat 32 ret) ≠ 0 then strlenFrom m str fuel (ret + 1) else some ret

/-- `strlen`. -/
def strlen (fuel : ℕ) (m : ByteMem 32) (str : Word) : Option ℕ := strlenFrom m str fuel 0

/-- The loop of `strcpy`, `strncpy`, `strcat` and `strncat`, from the indices `i` of `dst` and `j`
of `src` on. It gives the index of `dst` where it stops; `more` is the test beside that of the
byte. -/
def copyChars (more : ℕ → Bool) (dst src : Word) : ℕ → ℕ → ℕ → ByteMem 32 → Option (ℕ × ByteMem 32)
  | 0, _, _, _ => none
  | fuel + 1, i, j, m =>
    if m (src + BitVec.ofNat 32 j) ≠ 0 ∧ more j then
      copyChars more dst src fuel (i + 1) (j + 1)
        (Function.update m (dst + BitVec.ofNat 32 i) (m (src + BitVec.ofNat 32 j)))
    else some (i, m)

/-- `strcpy`. -/
def strcpy (fuel : ℕ) (m : ByteMem 32) (dst src : Word) : Option (Word × ByteMem 32) :=
  (copyChars (fun _ => true) dst src fuel 0 0 m).map fun r => (dst, r.2)

/-- `strncpy`. -/
def strncpy (fuel : ℕ) (m : ByteMem 32) (dst src n : Word) : Option (Word × ByteMem 32) :=
  (copyChars (fun j => j < n.toNat) dst src fuel 0 0 m).map fun r =>
    (dst, fillUp r.2 (dst + BitVec.ofNat 32 r.1) 0 (n.toNat - r.1))

/-- `strcat`. -/
def strcat (fuel : ℕ) (m : ByteMem 32) (dst src : Word) : Option (Word × ByteMem 32) :=
  (strlen fuel m dst).bind fun i =>
    (copyChars (fun _ => true) dst src fuel i 0 m).map fun r =>
      (dst, Function.update r.2 (dst + BitVec.ofNat 32 r.1) 0)

/-- `strncat`. -/
def strncat (fuel : ℕ) (m : ByteMem 32) (dst src n : Word) : Option (Word × ByteMem 32) :=
  (strlen fuel m dst).bind fun i =>
    (copyChars (fun j => j < n.toNat) dst src fuel i 0 m).map fun r =>
      (dst, Function.update r.2 (dst + BitVec.ofNat 32 r.1) 0)

/-- `strdup`. -/
def strdup (kmalloc : Word → ByteMem 32 → Word × ByteMem 32) (fuel : ℕ) (m : ByteMem 32)
    (s1 : Word) : Option (Word × ByteMem 32) :=
  (strlen fuel m s1).map fun length =>
    let len := length + 1
    let block := kmalloc (BitVec.ofNat 32 len) m
    (block.1, copyUp block.2 block.1 s1 len)

/-- The first loop of `strndup`: what it makes of `n`, with `left` of it to go from `i` on. -/
def strndupScan (m : ByteMem 32) (s1 : Word) : ℕ → ℕ → ℕ
  | 0, i => i
  | left + 1, i =>
    if m (s1 + BitVec.ofNat 32 i) = 0 then i + 1 else strndupScan m s1 left (i + 1)

/-- `strndup`. -/
def strndup (kmalloc : Word → ByteMem 32 → Word × ByteMem 32) (m : ByteMem 32) (s1 n : Word) :
    Word × ByteMem 32 :=
  let n := strndupScan m s1 n.toNat 0
  let block := kmalloc (BitVec.ofNat 32 (n + 1)) m
  let result := block.1
  (result, Function.update (copyUp block.2 result s1 n) (result + BitVec.ofNat 32 n) 0)

variable {m : ByteMem 32} {a b d : Word} {s t : List (BitVec 8)}

/-- `strlen` of a string. -/
theorem strlenFrom_eq (hs : StringAt m a s) {fuel ret : ℕ} (hret : ret ≤ s.length)
    (hfuel : s.length - ret < fuel) : strlenFrom m a fuel ret = some s.length := by
  induction fuel generalizing ret with
  | zero => omega
  | succ fuel ih =>
    rw [strlenFrom]
    by_cases hend : ret = s.length
    · rw [hend, if_neg (not_not.mpr hs.terminated)]
    · rw [if_pos (hs.ne_zero (by omega)), ih (by omega) (by omega)]

variable {fuel : ℕ}

theorem strlen_eq (hs : StringAt m a s) (hfuel : s.length < fuel) : strlen fuel m a = some s.length :=
  strlenFrom_eq hs (Nat.zero_le _) hfuel

variable {more : ℕ → Bool}

/-- The copying loop, from its `j`-th round on: it copies up to where it is to stop. -/
theorem copyChars_from {i k : ℕ} (hgo : ∀ j < k, m (b + BitVec.ofNat 32 j) ≠ 0 ∧ more j)
    (hstop : ¬ (m (b + BitVec.ofNat 32 k) ≠ 0 ∧ more k))
    (hapart : Apart (d + BitVec.ofNat 32 i) k b (k + 1)) {fuel j : ℕ} (hj : j ≤ k)
    (hfuel : k - j < fuel) :
    copyChars more d b fuel (i + j) j (copyUp m (d + BitVec.ofNat 32 i) b j) =
      some (i + k, copyUp m (d + BitVec.ofNat 32 i) b k) := by
  induction fuel generalizing j with
  | zero => omega
  | succ fuel ih =>
    -- the source is as it was
    have hread : copyUp m (d + BitVec.ofNat 32 i) b j (b + BitVec.ofNat 32 j) =
        m (b + BitVec.ofNat 32 j) :=
      copyUp_of_ne _ _ _ _ _ fun i' hi' => (hapart i' (by omega) j (by omega)).symm
    rw [copyChars, hread]
    by_cases hend : j = k
    · rw [hend, if_neg hstop]
    · rw [if_pos (hgo j (by omega)), ← ih (j := j + 1) (by omega) (by omega), copyUp, hread,
        add_ofNat_add_ofNat, Nat.add_assoc]

/-- The copying loop on a string: it stops at its end, or where `n` bytes are copied. -/
theorem copyChars_string {n i : ℕ} (ht : StringAt m b t)
    (hmore : ∀ j ≤ t.length, m (b + BitVec.ofNat 32 j) ≠ 0 → (more j ↔ j < n))
    (hapart : Apart (d + BitVec.ofNat 32 i) (min n t.length) b (t.length + 1))
    (hfuel : t.length < fuel) :
    copyChars more d b fuel i 0 m =
      some (i + min n t.length, copyUp m (d + BitVec.ofNat 32 i) b (min n t.length)) := by
  have hgo : ∀ j < min n t.length, m (b + BitVec.ofNat 32 j) ≠ 0 ∧ more j := by
    intro j hj
    have hne := ht.ne_zero (show j < t.length by omega)
    exact ⟨hne, (hmore j (by omega) hne).mpr (by omega)⟩
  have hstop : ¬ (m (b + BitVec.ofNat 32 (min n t.length)) ≠ 0 ∧ more (min n t.length)) := by
    rintro ⟨hne, hgoing⟩
    have hlt := (hmore _ (by omega) hne).mp hgoing
    have hend := ht.lt_length (by omega) hne
    omega
  exact copyChars_from hgo hstop (hapart.mono (Nat.le_refl _) (by omega)) (Nat.zero_le _) (by omega)

section Strcpy

theorem strcpy_eq (hs : StringAt m a s) (hapart : Apart d s.length a (s.length + 1))
    (hfuel : s.length < fuel) : strcpy fuel m d a = some (d, copyUp m d a s.length) := by
  have hzero : d + BitVec.ofNat 32 0 = d := BitVec.add_zero d
  have hcopy := copyChars_string (d := d) (i := 0) hs
    (fun _ hj hne => iff_of_true rfl (hs.lt_length hj hne)) (by rwa [hzero, Nat.min_self]) hfuel
  rw [strcpy, hcopy, Option.map_some, Nat.min_self, hzero]

/-- `strcpy` leaves the string exactly where its terminator was there before. -/
theorem stringAt_copyUp_iff (hs : StringAt m a s)
    (hapart : Apart d (s.length + 1) a (s.length + 1)) :
    StringAt (copyUp m d a s.length) d s ↔ m (d + BitVec.ofNat 32 s.length) = 0 := by
  have hlt := hapart.lt (Nat.succ_pos _)
  have hbehind : copyUp m d a s.length (d + BitVec.ofNat 32 s.length) =
      m (d + BitVec.ofNat 32 s.length) :=
    copyUp_of_ne _ _ _ _ _ fun i hi => add_ofNat_ne d (by omega) (by omega) (by omega)
  constructor
  · intro h
    rw [← hbehind]
    exact h.terminated
  · intro hzero
    have hbytes := bytesAt_copyUp (m := m) (hapart.mono (Nat.le_succ _) (Nat.le_succ _)) (by omega)
    exact ⟨hbytes.trans hs.bytes, hbehind.trans hzero, hs.nonzero⟩

end Strcpy

section Strncpy

end Strncpy

section Strcat

/-- The memory after `k` bytes from `b` and a terminator are written behind `len` bytes of `d`. -/
def appended (m : ByteMem 32) (d : Word) (len : ℕ) (b : Word) (k : ℕ) : ByteMem 32 :=
  Function.update (copyUp m (d + BitVec.ofNat 32 len) b k) (d + BitVec.ofNat 32 (len + k)) 0

/-- Nothing behind the terminator is written. -/
theorem appended_of_ne {len k : ℕ} {x : Word} (hx : ∀ i < len + k + 1, x ≠ d + BitVec.ofNat 32 i) :
    appended m d len b k x = m x := by
  rw [appended, Function.update_of_ne (hx (len + k) (Nat.lt_succ_self _))]
  apply copyUp_of_ne
  intro i hi
  rw [add_ofNat_add_ofNat]
  exact hx (len + i) (by omega)

/-- What `strcat` and `strncat` have in common. -/
theorem append_eq {n : ℕ} (hs : StringAt m d s) (ht : StringAt m b t)
    (hmore : ∀ j ≤ t.length, m (b + BitVec.ofNat 32 j) ≠ 0 → (more j ↔ j < n))
    (hapart : Apart d (s.length + min n t.length + 1) b (t.length + 1))
    (hfuel : s.length < fuel) (hfuel' : t.length < fuel) :
    ((strlen fuel m d).bind fun i => (copyChars more d b fuel i 0 m).map fun r =>
      (d, Function.update r.2 (d + BitVec.ofNat 32 r.1) 0)) =
      some (d, appended m d s.length b (min n t.length)) := by
  rw [strlen_eq hs hfuel, Option.bind_some,
    copyChars_string ht hmore (hapart.add_left (by omega)) hfuel', Option.map_some, appended]

/-- `strcat` leaves the one string followed by the other. -/
theorem strcat_spec (hs : StringAt m d s) (ht : StringAt m b t)
    (hapart : Apart d (s.length + t.length + 1) b (t.length + 1)) :
    ∃ m', (∀ fuel, s.length < fuel → t.length < fuel → strcat fuel m d b = some (d, m')) ∧
      StringAt m' d (s ++ t) ∧
      ∀ x, (∀ i < s.length + t.length + 1, x ≠ d + BitVec.ofNat 32 i) → m' x = m x := by
  have hmin : min t.length t.length = t.length := Nat.min_self _
  refine ⟨appended m d s.length b t.length, ?_, ?_, fun x hx => appended_of_ne hx⟩
  · intro fuel hfuel hfuel'
    have happend := append_eq hs ht (fun _ hj hne => iff_of_true rfl (ht.lt_length hj hne))
      (by rwa [hmin]) hfuel hfuel'
    rwa [hmin] at happend
  · have happend := hs.append_copyUp (n := t.length) ht (by rwa [hmin])
    rwa [hmin, List.take_length] at happend

/-- `strncat` leaves it followed by at most `n` bytes of the other. -/
theorem strncat_spec (hs : StringAt m d s) (ht : StringAt m b t) (n : Word)
    (hapart : Apart d (s.length + min n.toNat t.length + 1) b (t.length + 1)) :
    ∃ m', (∀ fuel, s.length < fuel → t.length < fuel → strncat fuel m d b n = some (d, m')) ∧
      StringAt m' d (s ++ t.take n.toNat) ∧
      ∀ x, (∀ i < s.length + min n.toNat t.length + 1, x ≠ d + BitVec.ofNat 32 i) → m' x = m x := by
  refine ⟨appended m d s.length b (min n.toNat t.length), ?_, hs.append_copyUp ht hapart,
    fun x hx => appended_of_ne hx⟩
  intro fuel hfuel hfuel'
  exact append_eq hs ht (fun _ _ _ => decide_eq_true_iff) hapart hfuel hfuel'

end Strcat

section Strndup

/-- The first loop of `strndup` stops behind the terminator, or after `n` bytes. -/
theorem strndupScan_eq (hs : StringAt m a s) {left i : ℕ} (hi : i ≤ s.length) :
    strndupScan m a left i = min (i + left) (s.length + 1) := by
  induction left generalizing i with
  | zero =>
    rw [strndupScan]
    omega
  | succ left ih =>
    rw [strndupScan]
    by_cases hend : i = s.length
    · rw [hend, if_pos hs.terminated]
      omega
    · rw [if_neg (hs.ne_zero (by omega)), ih (by omega)]
      omega

/-- What `kmalloc` is to give for a copy of a string: a block apart from the string, which it leaves
as it is. -/
structure BlockFor (m : ByteMem 32) (a : Word) (s : List (BitVec 8)) (size : ℕ)
    (block : Word × ByteMem 32) : Prop where
  apart : Apart block.1 size a (s.length + 1)
  same : ∀ i < s.length + 1, block.2 (a + BitVec.ofNat 32 i) = m (a + BitVec.ofNat 32 i)

/-- `strndup` returns the first bytes of the string. -/
theorem strndup_spec (hs : StringAt m a s) (kmalloc : Word → ByteMem 32 → Word × ByteMem 32)
    (n : Word) {size : ℕ} (hsize : size = min n.toNat (s.length + 1) + 1)
    (hblock : BlockFor m a s size (kmalloc (BitVec.ofNat 32 size) m)) :
    StringAt (strndup kmalloc m a n).2 (strndup kmalloc m a n).1 (s.take n.toNat) ∧
      ∀ x, (∀ i < n.toNat + 1, x ≠ (strndup kmalloc m a n).1 + BitVec.ofNat 32 i) →
        (strndup kmalloc m a n).2 x = (kmalloc (BitVec.ofNat 32 size) m).2 x := by
  have hscan : strndupScan m a n.toNat 0 = min n.toNat (s.length + 1) := by
    rw [strndupScan_eq hs (Nat.zero_le _), Nat.zero_add]
  subst hsize
  unfold strndup
  dsimp only
  rw [hscan]
  refine ⟨(hs.congr hblock.same).take_copyUp hblock.apart, ?_⟩
  intro x hx
  rw [Function.update_of_ne (hx _ (by omega))]
  exact copyUp_of_ne _ _ _ _ _ fun i hi => hx i (by omega)

end Strndup

/-- What `strcpy` leaves is the string exactly if the byte behind it was zero before. Then a
following `strcat` or `strncat` appends to it. `strndup` does not depend on what its block held. None
of them writes behind the terminator of its result. -/
theorem string_building_iff (hs : StringAt m a s)
    (hapart : Apart d (s.length + 1) a (s.length + 1)) :
    ∃ m₁, (∀ fuel, s.length < fuel → strcpy fuel m d a = some (d, m₁)) ∧
      (∀ x, (∀ i < s.length + 1, x ≠ d + BitVec.ofNat 32 i) → m₁ x = m x) ∧
      (StringAt m₁ d s ↔ m (d + BitVec.ofNat 32 s.length) = 0) ∧
      (m (d + BitVec.ofNat 32 s.length) = 0 → ∀ (b : Word) (t : List (BitVec 8)), StringAt m b t →
        (Apart d (s.length + t.length + 1) b (t.length + 1) →
          ∃ m₂, (∀ fuel, s.length < fuel → t.length < fuel →
              strcat fuel m₁ d b = some (d, m₂)) ∧
            StringAt m₂ d (s ++ t) ∧
            ∀ x, (∀ i < s.length + t.length + 1, x ≠ d + BitVec.ofNat 32 i) → m₂ x = m x) ∧
        ∀ n : Word, Apart d (s.length + min n.toNat t.length + 1) b (t.length + 1) →
          ∃ m₃, (∀ fuel, s.length < fuel → t.length < fuel →
              strncat fuel m₁ d b n = some (d, m₃)) ∧
            StringAt m₃ d (s ++ t.take n.toNat) ∧
            ∀ x, (∀ i < s.length + min n.toNat t.length + 1, x ≠ d + BitVec.ofNat 32 i) →
              m₃ x = m x) ∧
      ∀ (kmalloc : Word → ByteMem 32 → Word × ByteMem 32) (n : Word) (size : ℕ),
        size = min n.toNat (s.length + 1) + 1 →
        BlockFor m a s size (kmalloc (BitVec.ofNat 32 size) m) →
        StringAt (strndup kmalloc m a n).2 (strndup kmalloc m a n).1 (s.take n.toNat) ∧
          ∀ x, (∀ i < n.toNat + 1, x ≠ (strndup kmalloc m a n).1 + BitVec.ofNat 32 i) →
            (strndup kmalloc m a n).2 x = (kmalloc (BitVec.ofNat 32 size) m).2 x := by
  have hframe : ∀ x, (∀ i < s.length, x ≠ d + BitVec.ofNat 32 i) →
      copyUp m d a s.length x = m x := fun x hx => copyUp_of_ne _ _ _ _ _ hx
  refine ⟨copyUp m d a s.length, ?_, ?_, stringAt_copyUp_iff hs hapart, ?_, ?_⟩
  · intro fuel hfuel
    exact strcpy_eq hs (hapart.mono (Nat.le_succ _) (Nat.le_refl _)) hfuel
  · intro x hx
    exact hframe x fun i hi => hx i (by omega)
  · intro hzero b t ht
    have hd : StringAt (copyUp m d a s.length) d s := (stringAt_copyUp_iff hs hapart).mpr hzero
    -- the second source is still there: the first copy went to the destination only
    have hkeep : ∀ k, Apart d (s.length + k + 1) b (t.length + 1) →
        StringAt (copyUp m d a s.length) b t := by
      intro k hk
      apply ht.congr
      intro j hj
      exact hframe _ fun i hi => (hk i (by omega) j hj).symm
    constructor
    · intro hdt
      obtain ⟨m₂, hrun, hstring, hbehind⟩ := strcat_spec hd (hkeep _ hdt) hdt
      refine ⟨m₂, hrun, hstring, fun x hx => ?_⟩
      rw [hbehind x hx, hframe x fun i hi => hx i (by omega)]
    · intro n hdt
      obtain ⟨m₃, hrun, hstring, hbehind⟩ := strncat_spec hd (hkeep _ hdt) n hdt
      refine ⟨m₃, hrun, hstring, fun x hx => ?_⟩
      rw [hbehind x hx, hframe x fun i hi => hx i (by omega)]
  · intro kmalloc n size hsize hblock
    exact strndup_spec hs kmalloc n hsize hblock

/-- The string "a", and a buffer that holds "xyz". -/
def staleMemory (x : Word) : BitVec 8 :=
  if x = 0x1000 then 0x61
  else if x = 0x2000 then 0x78 else if x = 0x2001 then 0x79 else if x = 0x2002 then 0x7a else 0

/-- Copying "a" to a buffer of zeros, then appending "xyz" to it. -/
theorem string_building_iff_zeros :
    ∃ m₁, (∀ fuel, 1 < fuel → strcpy fuel staleMemory 0x3000 0x1000 = some (0x3000, m₁)) ∧
      StringAt m₁ 0x3000 [0x61] ∧
      ∃ m₂, (∀ fuel, 1 < fuel → 3 < fuel → strcat fuel m₁ 0x3000 0x2000 = some (0x3000, m₂)) ∧
        StringAt m₂ 0x3000 [0x61, 0x78, 0x79, 0x7a] := by
  have hs : StringAt staleMemory 0x1000 [0x61] := ⟨by decide, by decide, by decide⟩
  have ht : StringAt staleMemory 0x2000 [0x78, 0x79, 0x7a] := ⟨by decide, by decide, by decide⟩
  have hds : Apart (0x3000 : Word) 2 0x1000 2 := by
    unfold Apart
    decide
  have hdt : Apart (0x3000 : Word) 5 0x2000 4 := by
    unfold Apart
    decide
  have hzero : staleMemory (0x3000 + BitVec.ofNat 32 1) = 0 := by decide
  obtain ⟨m₁, hcopy, _, hiff, hcat, _⟩ := string_building_iff hs hds
  obtain ⟨m₂, happend, hm₂, _⟩ := (hcat hzero 0x2000 _ ht).1 hdt
  exact ⟨m₁, hcopy, hiff.mpr hzero, m₂, happend, hm₂⟩

/-- After copying "a" to the buffer it holds "ayz". -/
theorem strcpy_keeps_stale_bytes :
    StringAt staleMemory 0x1000 [0x61] ∧ Apart (0x2000 : Word) 2 0x1000 2 ∧
      ∃ m₁, strcpy 2 staleMemory 0x2000 0x1000 = some (0x2000, m₁) ∧
        ¬ StringAt m₁ 0x2000 [0x61] ∧ StringAt m₁ 0x2000 [0x61, 0x79, 0x7a] := by
  refine ⟨⟨by decide, by decide, by decide⟩, ?_, copyUp staleMemory 0x2000 0x1000 1, rfl, ?_,
    ⟨by decide, by decide, by decide⟩⟩
  · unfold Apart
    decide
  · intro h
    exact absurd h.terminated (by decide)

end ChrisOS.Utils.StringMem
