import ChrisOS.Lib.ByteFill
import ChrisOS.Utils.Mem

/-!
# Filling memory

`memset` of `utils/mem.c` fills the bytes up to an aligned address, then whole words, then the bytes
that are left. The three lengths are computed in 32 bits, and the first of them does not depend on how
many bytes are to be filled: if it is the greater, the number of bytes that are left wraps and the
words go round the whole address space.
-/

namespace ChrisOS.Utils

open ChrisOS.Lib

/-- `FILL_LONG_WITH_BYTE`. -/
def fillLongWithByte (b : BitVec 8) : Word :=
  let b := b.setWidth 32
  b ||| (b <<< 8) ||| (b <<< 16) ||| (b <<< 24)

/-- `sizeof(long)`. -/
def sizeofLong : Word := 4

/-- `memset`. -/
def memset (m : ByteMem 32) (addr : Word) (value : BitVec 8) (len : Word) : ByteMem 32 :=
  let wordValue := fillLongWithByte value
  let lenBeginning := alignPadding addr sizeofLong
  let lenMiddle := len - lenBeginning
  let lenEnd := alignPaddingDown lenMiddle sizeofLong
  let lenMiddle := lenMiddle - lenEnd
  let m := fillUp m addr value lenBeginning.toNat
  let wordAddr := addr + lenBeginning
  -- the loop steps by a word as long as it is below `len_middle`
  let m := storeUp m wordAddr 4 wordValue.toNat ((lenMiddle.toNat + 3) / 4)
  fillUp m (wordAddr + lenMiddle) value lenEnd.toNat

/-- All four bytes of the word are the byte. -/
theorem toNat_fillLongWithByte (b : BitVec 8) :
    (fillLongWithByte b).toNat = b.toNat * repunit 4 := by
  revert b
  decide

/-- The part of a length beyond whole words. -/
theorem toNat_alignPaddingDown_sizeofLong (len : Word) :
    (alignPaddingDown len sizeofLong).toNat = len.toNat % 4 :=
  toNat_and_mask len (sizeofLong - 1) 2 rfl

/-- The three loops are one fill, as long as the bytes before the first word and, modulo the size of
the space, the rest of the length. -/
theorem memset_eq_filledBytes (m : ByteMem 32) (addr : Word) (value : BitVec 8) (len : Word) :
    memset m addr value len = filledBytes m addr
      ((alignPadding addr sizeofLong).toNat + (len - alignPadding addr sizeofLong).toNat) value := by
  unfold memset
  generalize alignPadding addr sizeofLong = lenBeginning
  dsimp only
  have hend := toNat_alignPaddingDown_sizeofLong (len - lenBeginning)
  generalize hrest : len - lenBeginning = rest at *
  generalize alignPaddingDown rest sizeofLong = lenEnd at *
  have hmiddle : (rest - lenEnd).toNat = rest.toNat - rest.toNat % 4 := by
    rw [BitVec.toNat_sub_of_le, hend]
    rw [BitVec.le_def, hend]
    exact Nat.mod_le _ _
  have hwords : 4 * (((rest - lenEnd).toNat + 3) / 4) = (rest - lenEnd).toNat := by omega
  have hbeginning : addr + lenBeginning = addr + BitVec.ofNat 32 lenBeginning.toNat := by
    rw [BitVec.ofNat_toNat, BitVec.setWidth_eq]
  have htail : addr + lenBeginning + (rest - lenEnd) =
      addr + BitVec.ofNat 32 (lenBeginning.toNat + (rest - lenEnd).toNat) := by
    rw [BitVec.ofNat_add, BitVec.ofNat_toNat, BitVec.setWidth_eq, BitVec.ofNat_toNat,
      BitVec.setWidth_eq, BitVec.add_assoc]
  rw [toNat_fillLongWithByte, storeUp_repunit, hwords, fillUp_eq, fillUp_eq, htail, hbeginning,
    filledBytes_filledBytes, filledBytes_filledBytes]
  congr 1
  omega

/-- With fewer bytes to fill than there are before the first word, all of memory is filled. -/
theorem memset_of_short (m : ByteMem 32) {addr : Word} (value : BitVec 8) {len : Word}
    (h : len < alignPadding addr sizeofLong) : memset m addr value len = fun _ => value := by
  rw [memset_eq_filledBytes]
  apply filledBytes_of_le
  bv_omega

/-- `memset` sets the bytes it is to set and no others, in every memory, exactly if these bytes reach
the first word. -/
theorem memset_fills_iff {addr len : Word} (value : BitVec 8)
    (hfits : addr.toNat + len.toNat ≤ 2 ^ 32) :
    (∀ m x, memset m addr value len x =
      if addr.toNat ≤ x.toNat ∧ x.toNat < addr.toNat + len.toNat then value else m x) ↔
      alignPadding addr sizeofLong ≤ len := by
  constructor
  · intro hfills
    by_contra hlong
    have hshort : len < alignPadding addr sizeofLong := BitVec.not_le.mp hlong
    -- the byte behind the range is set to the value too
    have hbehind := hfills (fun _ => value + 1) (addr + len)
    rw [memset_of_short _ value hshort, if_neg (by bv_omega)] at hbehind
    bv_omega
  · intro hlong m x
    have hlength : (alignPadding addr sizeofLong).toNat +
        (len - alignPadding addr sizeofLong).toNat = len.toNat := by bv_omega
    rw [memset_eq_filledBytes, hlength, filledBytes]
    congr 1
    rw [eq_iff_iff]
    bv_omega

/-- Filling seven bytes from an unaligned address on. -/
theorem memset_fills_seven : memset (fun _ => 0) 0x1003 0xff 7 0x1009 = 0xff :=
  (memset_fills_iff 0xff (by decide)).mpr (by decide) (fun _ => 0) 0x1009

/-- Clearing one byte at an address that is not aligned clears all bytes. -/
theorem memset_one_fills_all :
    memset (fun _ => 1) 0x1001 0 1 0x2000 = 0 ∧ ¬ (0x1001 ≤ 0x2000 ∧ 0x2000 < 0x1001 + 1) :=
  ⟨congrFun (memset_of_short (fun _ => 1) 0 (by decide)) 0x2000, by decide⟩

end ChrisOS.Utils
