import ChrisOS.Lib.ByteCopy
import ChrisOS.Utils.Mem

/-!
# Moving memory

`memmove` of `utils/mem.c` with its two byte loops. The direction is chosen by comparing the
addresses.
-/

namespace ChrisOS.Utils

open ChrisOS.Lib

/-- `kmemcpy_b_fwd`. -/
def kmemcpyBFwd (m : ByteMem 32) (dest src len : Word) : ByteMem 32 := copyUp m dest src len.toNat

/-- `kmemcpy_b_rev`. -/
def kmemcpyBRev (m : ByteMem 32) (dest src len : Word) : ByteMem 32 := copyDown m dest src len.toNat

/-- `memmove`. -/
def memmove (m : ByteMem 32) (dest src len : Word) : ByteMem 32 :=
  if dest < src then kmemcpyBFwd m dest src len else kmemcpyBRev m dest src len

/-- Moving bytes towards lower addresses. The source may run past the end of the space, as long as
it does not come round to the destination. -/
theorem memmove_lower (m : ByteMem 32) (dest d len : Word) (hstart : dest.toNat + d.toNat < 2 ^ 32)
    (hlen : d.toNat + len.toNat ≤ 2 ^ 32) {i : ℕ} (hi : i < len.toNat) :
    memmove m dest (dest + d) len (dest + BitVec.ofNat 32 i) =
      m (dest + d + BitVec.ofNat 32 i) := by
  have hoffset := add_add_ofNat dest d
  rw [memmove]
  split
  · apply copyUp_apply _ _ _ _ (Nat.le_of_lt len.isLt) _ hi
    intro i hi j hj
    rw [hoffset]
    exact add_ofNat_ne dest (by omega) (by omega) (by omega)
  · -- the addresses are equal, so nothing moves
    rename_i hle
    have hzero : d = 0 := by bv_omega
    subst hzero
    apply copyDown_apply _ _ _ _ (Nat.le_of_lt len.isLt) _ hi
    intro j hj i hi
    rw [hoffset]
    exact add_ofNat_ne dest (by simp; omega) (by omega) (by simp; omega)

/-- `memcpy`. -/
def memcpy (m : ByteMem 32) (dest src len : Word) : ByteMem 32 := memmove m dest src len

/-- The bytes `memmove` writes and the bytes it reads for them, in its order. -/
def memmoveBytes (dest src len : Word) : List (Word × Word) :=
  if dest < src then
    (List.range len.toNat).map fun i => (dest + BitVec.ofNat 32 i, src + BitVec.ofNat 32 i)
  else (List.range len.toNat).reverse.map fun i => (dest + BitVec.ofNat 32 i, src + BitVec.ofNat 32 i)

/-- Copy one byte. -/
def moveByte (m : ByteMem 32) (bytes : Word × Word) : ByteMem 32 :=
  Function.update m bytes.1 (m bytes.2)

variable {dest src len : Word}

/-- The bytes read and written, in any order. -/
theorem mem_memmoveBytes {bytes : Word × Word} : bytes ∈ memmoveBytes dest src len ↔
      ∃ i < len.toNat, bytes = (dest + BitVec.ofNat 32 i, src + BitVec.ofNat 32 i) := by
  unfold memmoveBytes
  split <;> simp [eq_comm]

/-- Moving changes nothing outside the destination. -/
theorem memmove_of_ne (m : ByteMem 32) (dest src len x : Word)
    (h : ∀ i < len.toNat, x ≠ dest + BitVec.ofNat 32 i) : memmove m dest src len x = m x := by
  unfold memmove
  split
  · exact copyUp_of_ne _ _ _ _ _ h
  · exact copyDown_of_ne _ _ _ _ _ h

/-- Moving bytes to where none of them comes from. -/
theorem memmove_of_disjoint (m : ByteMem 32) (dest src len : Word)
    (h : ∀ i < len.toNat, ∀ j < len.toNat, src + BitVec.ofNat 32 i ≠ dest + BitVec.ofNat 32 j)
    {i : ℕ} (hi : i < len.toNat) :
    memmove m dest src len (dest + BitVec.ofNat 32 i) = m (src + BitVec.ofNat 32 i) := by
  have hlen : len.toNat ≤ 2 ^ 32 := Nat.le_of_lt len.isLt
  unfold memmove
  split
  · exact copyUp_apply _ _ _ _ hlen (fun i hi j hj => h i hi j (by omega)) hi
  · exact copyDown_apply _ _ _ _ hlen (fun j hj i hi => h i (by omega) j hj) hi

/-- Moving bytes between two ranges inside the space: going up, the byte to be read next is above all
that were written, and going down it is below them. -/
theorem memmove_apply (m : ByteMem 32) (hdest : dest.toNat + len.toNat ≤ 2 ^ 32)
    (hsrc : src.toNat + len.toNat ≤ 2 ^ 32) {i : ℕ} (hi : i < len.toNat) :
    memmove m dest src len (dest + BitVec.ofNat 32 i) = m (src + BitVec.ofNat 32 i) := by
  have hlen : len.toNat ≤ 2 ^ 32 := Nat.le_of_lt len.isLt
  have hne : ∀ i < len.toNat, ∀ j < len.toNat, src.toNat + i ≠ dest.toNat + j →
      src + BitVec.ofNat 32 i ≠ dest + BitVec.ofNat 32 j := by
    intro i hi j hj hdiff heq
    have hvalue := congrArg BitVec.toNat heq
    rw [toNat_add_ofNat (by omega), toNat_add_ofNat (by omega)] at hvalue
    exact hdiff hvalue
  rw [memmove]
  split
  · rename_i hlt
    have hlt : dest.toNat < src.toNat := hlt
    exact copyUp_apply _ _ _ _ hlen (fun i hi j hj => hne i hi j (by omega) (by omega)) hi
  · rename_i hle
    have hle : src.toNat ≤ dest.toNat := Nat.le_of_not_lt hle
    exact copyDown_apply _ _ _ _ hlen (fun j hj i hi => hne i (by omega) j hj (by omega)) hi

/-- Moving leaves the bytes outside the destination alone. -/
theorem memmove_outside (m : ByteMem 32) {dest src len x : Word}
    (hdest : dest.toNat + len.toNat ≤ 2 ^ 32)
    (hx : ¬ (dest.toNat ≤ x.toNat ∧ x.toNat < dest.toNat + len.toNat)) :
    memmove m dest src len x = m x := by
  apply memmove_of_ne
  intro i hi heq
  rw [heq, toNat_add_ofNat (by omega)] at hx
  omega

/-- `memmove` and `memcpy` copy as if all bytes were read before the first is written. -/
theorem memmove_copies (m : ByteMem 32) {dest src len : Word}
    (hdest : dest.toNat + len.toNat ≤ 2 ^ 32) (hsrc : src.toNat + len.toNat ≤ 2 ^ 32) :
    (∀ i < len.toNat,
      memmove m dest src len (dest + BitVec.ofNat 32 i) = m (src + BitVec.ofNat 32 i)) ∧
    (∀ x : Word, ¬ (dest.toNat ≤ x.toNat ∧ x.toNat < dest.toNat + len.toNat) →
      memmove m dest src len x = m x) ∧
    memcpy m dest src len = memmove m dest src len :=
  ⟨fun _ hi => memmove_apply m hdest hsrc hi, fun _ hx => memmove_outside m hdest hx, rfl⟩

/-- Moving the last four bytes of the space down by one. -/
theorem memmove_copies_top :
    memmove (fun a => a.setWidth 8) 0xfffffffb 0xfffffffc 4 0xfffffffe = 0xff :=
  (memmove_copies (fun a => a.setWidth 8) (by decide) (by decide)).1 3 (by decide)

end ChrisOS.Utils
