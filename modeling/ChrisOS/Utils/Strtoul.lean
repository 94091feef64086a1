import ChrisOS.Lib.ByteString
import ChrisOS.Lib.Numeral
import ChrisOS.Sys.Ctype
import ChrisOS.Utils.Mem

/-!
# Reading numbers

`strtoul` and `strtouq` of `utils/strtoul.c` and `utils/strtouq.c`, one function for results of `w`
bits. A pointer into the text is an address, and the loops that stop at a character are bounded by
`fuel`; `none` is a loop that has not stopped. The base is an `int`: it is compared as a signed
number and multiplied as an unsigned one. The result comes with what is stored through `endptr`.

What is read is said on the text itself: spaces, a sign, the mark of a hexadecimal number, and the
digits from there on. The number they stand for is returned if it fits and the largest value if it
does not.
-/

namespace ChrisOS.Utils

open ChrisOS.Lib ChrisOS.Sys

/-- The loop over the spaces: the first other character, and the address behind it. -/
def skipSpaces (m : ByteMem 32) : ℕ → Word → Option (BitVec 8 × Word)
  | 0, _ => none
  | fuel + 1, s => if isspace (m s) then skipSpaces m fuel (s + 1) else some (m s, s + 1)

/-- The value of a character as a digit, if it is a digit or a letter. -/
def digitValue (c : BitVec 8) : Option (BitVec 8) :=
  if ¬ isascii c then none
  else if isdigit c then some (c - chr '0')
  else if isalpha c then some (c - if isupper c then chr 'A' - 10 else chr 'a' - 10)
  else none

/-- The loop over the digits, from the character `c` in front of `s` on: `acc`, `any` and `s` when
it breaks. -/
def convertDigits {w : ℕ} (m : ByteMem 32) (base : BitVec 32) (cutoff : BitVec w) (cutlim : ℤ) :
    ℕ → BitVec 8 → Word → BitVec w → ℤ → Option (BitVec w × ℤ × Word)
  | 0, _, _, _, _ => none
  | fuel + 1, c, s, acc, any =>
    match digitValue c with
    | none => some (acc, any, s)
    | some c =>
      if base.toInt ≤ c.toNat then some (acc, any, s)
      else if any < 0 ∨ cutoff < acc ∨ (acc = cutoff ∧ cutlim < c.toNat) then
        convertDigits m base cutoff cutlim fuel (m s) (s + 1) acc (-1)
      else
        convertDigits m base cutoff cutlim fuel (m s) (s + 1)
          (acc * base.setWidth w + c.setWidth w) 1

/-- `strtoul` and `strtouq` from the first character `c` of the number on, which is in front of
`s`. -/
def convertNumber (w fuel : ℕ) (m : ByteMem 32) (nptr : Word) (base : BitVec 32) (neg : Bool)
    (c : BitVec 8) (s : Word) : Option (BitVec w × Word) :=
  let hex : Bool := (base = 0 ∨ base = 16) ∧ c = chr '0' ∧ (m s = chr 'x' ∨ m s = chr 'X')
  let base := if hex then 16 else base
  let first := if hex then (m (s + 1), s + 2) else (c, s)
  let base := if base = 0 then (if first.1 = chr '0' then 8 else 10) else base
  let cutoff := BitVec.allOnes w / base.setWidth w
  let cutlim := ((BitVec.allOnes w % base.setWidth w).setWidth 32).toInt
  (convertDigits m base cutoff cutlim fuel first.1 first.2 0 0).map fun r =>
    (if r.2.1 < 0 then BitVec.allOnes w else if neg then -r.1 else r.1,
      if r.2.1 ≠ 0 then r.2.2 - 1 else nptr)

/-- `strtoul` and `strtouq`, with a result of `w` bits. -/
def strtou (w fuel : ℕ) (m : ByteMem 32) (nptr : Word) (base : BitVec 32) :
    Option (BitVec w × Word) :=
  (skipSpaces m fuel nptr).bind fun r =>
    if r.1 = chr '-' then convertNumber w fuel m nptr base true (m r.2) (r.2 + 1)
    else if r.1 = chr '+' then convertNumber w fuel m nptr base false (m r.2) (r.2 + 1)
    else convertNumber w fuel m nptr base false r.1 r.2

/-- `strtoul`. -/
def strtoul := strtou 32

/-- `strtouq`. -/
def strtouq := strtou 64

/-! ## What a text says -/

section Text

/-- The value of a digit. -/
def digitOf (c : BitVec 8) : ℕ := ((digitValue c).getD 0).toNat

/-- A digit in a base. -/
def isDigitIn (base : BitVec 32) (c : BitVec 8) : Bool :=
  (digitValue c).any fun d => (d.toNat : ℤ) < base.toInt

/-- How many characters are the sign. -/
def signLength (text : List (BitVec 8)) : ℕ :=
  if text.head? = some (chr '-') ∨ text.head? = some (chr '+') then 1 else 0

/-- A hexadecimal number with its mark, where one may be. -/
def marksHex (base : BitVec 32) (text : List (BitVec 8)) : Bool :=
  (base = 0 ∨ base = 16) ∧ text.head? = some (chr '0') ∧
    (text[1]? = some (chr 'x') ∨ text[1]? = some (chr 'X'))

/-- The base that the digits are read in. -/
def baseOf (base : BitVec 32) (text : List (BitVec 8)) : BitVec 32 :=
  if marksHex base text then 16
  else if base = 0 then if text.head? = some (chr '0') then 8 else 10
  else base

/-- How a text is read: the sign, the base, where the digits begin, and the digits. -/
structure NumberText where
  neg : Bool
  base : BitVec 32
  start : ℕ
  digits : List (BitVec 8)
deriving DecidableEq, Repr

/-- The parts of a number behind its sign, with `before` characters in front of it. -/
def numberFrom (base : BitVec 32) (neg : Bool) (before : ℕ) (number : List (BitVec 8)) :
    NumberText :=
  let mark := if marksHex base number then 2 else 0
  { neg := neg
    base := baseOf base number
    start := before + mark
    digits := (number.drop mark).takeWhile (isDigitIn (baseOf base number)) }

/-- The parts of a text that begins with a number. -/
def numberText (base : BitVec 32) (text : List (BitVec 8)) : NumberText :=
  let signed := text.dropWhile isspace
  numberFrom base (signed.head? = some (chr '-'))
    ((text.takeWhile isspace).length + signLength signed) (signed.drop (signLength signed))

/-- The number the digits stand for. -/
def NumberText.value (n : NumberText) : ℕ := readFrom n.base.toNat 0 (n.digits.map digitOf)

/-- What is returned for a number: the largest value if it is too large, whatever its sign. -/
def NumberText.result (w : ℕ) (n : NumberText) : BitVec w :=
  if 2 ^ w ≤ n.value then BitVec.allOnes w
  else if n.neg then -BitVec.ofNat w n.value else BitVec.ofNat w n.value

/-- How far a text is read: behind the digits, or not at all if there are none. -/
def NumberText.stop (n : NumberText) : ℕ :=
  if n.digits = [] then 0 else n.start + n.digits.length

end Text

section Reading

variable {w fuel : ℕ} {m : ByteMem 32} {a nptr : Word} {base : BitVec 32} {c : BitVec 8}
  {text : List (BitVec 8)}

/-- The spaces are skipped. -/
theorem skipSpaces_eq (hs : StringAt m a text) (hfuel : text.length < fuel) :
    skipSpaces m fuel a =
      some (m (a + BitVec.ofNat 32 (text.takeWhile isspace).length),
        a + BitVec.ofNat 32 (text.takeWhile isspace).length + 1) := by
  induction text generalizing a fuel with
  | nil =>
    obtain _ | fuel := fuel
    · exact absurd hfuel (Nat.not_lt_zero _)
    · have hend : m a = 0 := StringAt.nil_iff.mp hs
      have hzero : a + BitVec.ofNat 32 0 = a := BitVec.add_zero a
      rw [skipSpaces, hend, if_neg (by decide), List.takeWhile_nil, List.length_nil, hzero, hend]
  | cons c text ih =>
    obtain _ | fuel := fuel
    · exact absurd hfuel (Nat.not_lt_zero _)
    · obtain ⟨hfirst, -, hrest⟩ := StringAt.cons_iff.mp hs
      rw [skipSpaces, hfirst, List.takeWhile_cons]
      split
      · rw [ih hrest (Nat.lt_of_succ_lt_succ hfuel), List.length_cons, add_one_add_ofNat]
      · have hzero : a + BitVec.ofNat 32 0 = a := BitVec.add_zero a
        rw [List.length_nil, hzero, hfirst]

/-- A digit has a value below the base, which is a positive `int`. -/
theorem of_isDigitIn (h : isDigitIn base c) :
    ∃ d, digitValue c = some d ∧ digitOf c = d.toNat ∧ d.toNat < base.toNat ∧
      base.toInt = base.toNat := by
  rw [isDigitIn, Option.any_eq_true] at h
  obtain ⟨d, hd, hlt⟩ := h
  have hlt : (d.toNat : ℤ) < base.toInt := of_decide_eq_true hlt
  have hbase := BitVec.toInt_eq_toNat_cond base
  refine ⟨d, hd, by rw [digitOf, hd, Option.getD_some], ?_, ?_⟩
  · split at hbase <;> omega
  · split at hbase <;> omega

/-- The end of a text is no digit. -/
theorem not_isDigitIn_zero : ¬ isDigitIn base 0 := by
  have hnone : digitValue 0 = none := by decide
  rw [isDigitIn, hnone, Option.any_none]
  exact Bool.false_ne_true

section Digits

variable {cutoff acc : BitVec w} {cutlim any : ℤ} {s : Word}

/-- The loop breaks at a character that is no digit. -/
theorem convertDigits_stop (h : ¬ isDigitIn base c) :
    convertDigits m base cutoff cutlim (fuel + 1) c s acc any = some (acc, any, s) := by
  rw [convertDigits]
  cases hd : digitValue c with
  | none => rfl
  | some d =>
    rw [isDigitIn, hd, Option.any_some, decide_eq_true_eq, Int.not_lt] at h
    exact if_pos h

/-- Once a number was too large, the loop skips its other digits. -/
theorem convertDigits_over (hs : StringAt m a text) (hfuel : text.length < fuel) :
    convertDigits m base cutoff cutlim fuel (m a) (a + 1) acc (-1) =
      some (acc, -1, a + BitVec.ofNat 32 (text.takeWhile (isDigitIn base)).length + 1) := by
  have hzero (a : Word) : a + BitVec.ofNat 32 0 = a := BitVec.add_zero a
  induction text generalizing a fuel with
  | nil =>
    obtain _ | fuel := fuel
    · exact absurd hfuel (Nat.not_lt_zero _)
    · rw [StringAt.nil_iff.mp hs, convertDigits_stop not_isDigitIn_zero, List.takeWhile_nil,
        List.length_nil, hzero]
  | cons c text ih =>
    obtain _ | fuel := fuel
    · exact absurd hfuel (Nat.not_lt_zero _)
    · obtain ⟨hfirst, -, hrest⟩ := StringAt.cons_iff.mp hs
      rw [hfirst, List.takeWhile_cons]
      split
      · rename_i hdigit
        obtain ⟨d, hd, -, hlt, hbase⟩ := of_isDigitIn hdigit
        rw [convertDigits, hd]
        dsimp only
        rw [if_neg (by omega), if_pos (Or.inl (by decide)),
          ih hrest (Nat.lt_of_succ_lt_succ hfuel), List.length_cons, add_one_add_ofNat]
      · rename_i hdigit
        rw [convertDigits_stop hdigit, List.length_nil, hzero]

/-- What the loop computes with: the quotient and the remainder of the largest value. -/
theorem cutoff_eq (hw : 32 ≤ w) (hpos : 0 < base.toNat) (hbase : base.toInt = base.toNat) :
    (BitVec.allOnes w / base.setWidth w).toNat = (2 ^ w - 1) / base.toNat ∧
      ((BitVec.allOnes w % base.setWidth w).setWidth 32).toInt = ((2 ^ w - 1) % base.toNat : ℕ) := by
  have hle : 2 ^ 32 ≤ 2 ^ w := Nat.pow_le_pow_right (by decide) hw
  have hwide : (base.setWidth w).toNat = base.toNat := by
    rw [BitVec.toNat_setWidth, Nat.mod_eq_of_lt (Nat.lt_of_lt_of_le base.isLt hle)]
  have hrem : (2 ^ w - 1) % base.toNat < base.toNat := Nat.mod_lt _ hpos
  have hsigned := BitVec.toInt_eq_toNat_cond base
  constructor
  · rw [BitVec.toNat_udiv, BitVec.toNat_allOnes, hwide]
  · rw [BitVec.toInt_eq_toNat_cond, BitVec.toNat_setWidth, BitVec.toNat_umod, BitVec.toNat_allOnes,
      hwide]
    split at hsigned
    · rw [Nat.mod_eq_of_lt (by omega), if_pos (by omega)]
    · omega

/-- One digit more. -/
theorem ofNat_mul_add {d : BitVec 8} (v : ℕ) :
    BitVec.ofNat w v * base.setWidth w + d.setWidth w =
      BitVec.ofNat w (v * base.toNat + d.toNat) := by
  rw [BitVec.ofNat_add, BitVec.ofNat_mul, BitVec.ofNat_toNat, BitVec.ofNat_toNat]

/-- The loop over the digits of a text, from a number `v` on. -/
theorem convertDigits_eq (base : BitVec 32) (hw : 32 ≤ w) (hs : StringAt m a text)
    (hfuel : text.length < fuel) {v : ℕ} (hv : v < 2 ^ w) (hany : 0 ≤ any) :
    ∃ acc' any', convertDigits m base (BitVec.allOnes w / base.setWidth w)
        ((BitVec.allOnes w % base.setWidth w).setWidth 32).toInt fuel (m a) (a + 1)
        (BitVec.ofNat w v) any =
      some (acc', any', a + BitVec.ofNat 32 (text.takeWhile (isDigitIn base)).length + 1) ∧
      (any' = 0 ↔ any = 0 ∧ text.takeWhile (isDigitIn base) = []) ∧
      (any' < 0 ↔
        2 ^ w ≤ readFrom base.toNat v ((text.takeWhile (isDigitIn base)).map digitOf)) ∧
      (0 ≤ any' → acc' = BitVec.ofNat w
        (readFrom base.toNat v ((text.takeWhile (isDigitIn base)).map digitOf))) := by
  have hzero (a : Word) : a + BitVec.ofNat 32 0 = a := BitVec.add_zero a
  induction text generalizing a fuel v any with
  | nil =>
    obtain _ | fuel := fuel
    · exact absurd hfuel (Nat.not_lt_zero _)
    · refine ⟨BitVec.ofNat w v, any, ?_, ?_, ?_, fun _ => rfl⟩
      · rw [StringAt.nil_iff.mp hs, convertDigits_stop not_isDigitIn_zero, List.takeWhile_nil,
          List.length_nil, hzero]
      · simp
      · rw [List.takeWhile_nil, List.map_nil, readFrom_nil]
        omega
  | cons c text ih =>
    obtain _ | fuel := fuel
    · exact absurd hfuel (Nat.not_lt_zero _)
    · obtain ⟨hfirst, -, hrest⟩ := StringAt.cons_iff.mp hs
      rw [hfirst, List.takeWhile_cons]
      split
      · rename_i hdigit
        obtain ⟨d, hd, hvalue, hlt, hbase⟩ := of_isDigitIn hdigit
        have hpos : 0 < base.toNat := Nat.lt_of_le_of_lt (Nat.zero_le _) hlt
        obtain ⟨hcutoff, hcutlim⟩ := cutoff_eq hw hpos hbase
        have htest : (any < 0 ∨ BitVec.allOnes w / base.setWidth w < BitVec.ofNat w v ∨
            (BitVec.ofNat w v = BitVec.allOnes w / base.setWidth w ∧
              ((BitVec.allOnes w % base.setWidth w).setWidth 32).toInt < d.toNat)) ↔
            2 ^ w ≤ v * base.toNat + d.toNat := by
          have hover := cutoff_iff (2 ^ w - 1) v hlt
          rw [BitVec.lt_def, ← BitVec.toNat_inj, hcutoff, hcutlim, BitVec.toNat_ofNat,
            Nat.mod_eq_of_lt hv, Int.ofNat_lt]
          omega
        rw [List.map_cons, readFrom_cons, hvalue, List.length_cons, ← add_one_add_ofNat]
        rw [convertDigits, hd]
        dsimp only
        rw [if_neg (by omega)]
        by_cases hover : 2 ^ w ≤ v * base.toNat + d.toNat
        · rw [if_pos (htest.mpr hover), convertDigits_over hrest (Nat.lt_of_succ_lt_succ hfuel)]
          have hgrows := le_readFrom hpos (v * base.toNat + d.toNat)
            ((text.takeWhile (isDigitIn base)).map digitOf)
          refine ⟨_, _, rfl, by simp, ?_, by simp⟩
          exact iff_of_true (by decide) (Nat.le_trans hover hgrows)
        · rw [if_neg (mt htest.mp hover), ofNat_mul_add]
          obtain ⟨acc', any', hrun, hnone, hbig, hsmall⟩ :=
            ih hrest (Nat.lt_of_succ_lt_succ hfuel) (Nat.lt_of_not_le hover)
              (show (0 : ℤ) ≤ 1 by decide)
          refine ⟨acc', any', hrun, ?_, hbig, hsmall⟩
          rw [hnone]
          simp
      · rename_i hdigit
        refine ⟨BitVec.ofNat w v, any, ?_, ?_, ?_, fun _ => rfl⟩
        · rw [convertDigits_stop hdigit, List.length_nil, hzero]
        · simp
        · rw [List.map_nil, readFrom_nil]
          omega

end Digits

/-- The mark of a hexadecimal number, in the memory and in the text. -/
theorem marksHex_iff (hs : StringAt m a text) :
    ((base = 0 ∨ base = 16) ∧ m a = chr '0' ∧ (m (a + 1) = chr 'x' ∨ m (a + 1) = chr 'X')) ↔
      marksHex base text := by
  have hfirst := hs.getElem?_eq_some_iff (i := 0) (Nat.zero_le _) (show chr '0' ≠ 0 by decide)
  rw [show a + BitVec.ofNat 32 0 = a from BitVec.add_zero a] at hfirst
  rw [marksHex, decide_eq_true_eq, List.head?_eq_getElem?, hfirst]
  by_cases hzero : m a = chr '0'
  · have hlength : 1 ≤ text.length := by
      obtain ⟨hlt, -⟩ := List.getElem?_eq_some_iff.mp (hfirst.mpr hzero)
      exact hlt
    have hx := hs.getElem?_eq_some_iff hlength (show chr 'x' ≠ 0 by decide)
    have hX := hs.getElem?_eq_some_iff hlength (show chr 'X' ≠ 0 by decide)
    rw [hx, hX]
    rfl
  · simp only [hzero, false_and, and_false]

/-- The digits of a number, and what is made of them. -/
theorem convertDigits_result (nptr : Word) (hw : 32 ≤ w) (n : NumberText) (hs : StringAt m a text)
    (hfuel : text.length < fuel) (hdigits : n.digits = text.takeWhile (isDigitIn n.base))
    (hstart : a = nptr + BitVec.ofNat 32 n.start) :
    ((convertDigits m n.base (BitVec.allOnes w / n.base.setWidth w)
        ((BitVec.allOnes w % n.base.setWidth w).setWidth 32).toInt fuel (m a) (a + 1) 0 0).map
      fun r => (if r.2.1 < 0 then BitVec.allOnes w else if n.neg then -r.1 else r.1,
        if r.2.1 ≠ 0 then r.2.2 - 1 else nptr)) =
      some (n.result w, nptr + BitVec.ofNat 32 n.stop) := by
  obtain ⟨acc', any', hrun, hnone, hbig, hsmall⟩ :=
    convertDigits_eq n.base hw hs hfuel (Nat.two_pow_pos w) (Int.le_refl 0)
  rw [← hdigits] at hrun hnone hbig hsmall
  have hvalue : readFrom n.base.toNat 0 (n.digits.map digitOf) = n.value := rfl
  rw [hvalue] at hbig hsmall
  rw [show (0 : BitVec w) = BitVec.ofNat w 0 from rfl, hrun, Option.map_some, NumberText.result,
    NumberText.stop]
  congr 2
  · by_cases hover : 2 ^ w ≤ n.value
    · rw [if_pos (hbig.mpr hover), if_pos hover]
    · have hany := mt hbig.mp hover
      rw [if_neg hany, if_neg hover, hsmall (Int.not_lt.mp hany)]
  · by_cases hempty : n.digits = []
    · rw [if_neg (not_not.mpr (hnone.mpr ⟨rfl, hempty⟩)), if_pos hempty]
      exact (BitVec.add_zero nptr).symm
    · rw [if_pos (mt (fun h => (hnone.mp h).2) hempty), if_neg hempty, hstart,
        add_ofNat_add_ofNat]
      exact BitVec.add_sub_cancel _ 1

/-- A number behind its sign. -/
theorem convertNumber_eq (base : BitVec 32) (hw : 32 ≤ w) (hs : StringAt m a text)
    (hfuel : text.length < fuel) (neg : Bool) {before : ℕ} (ha : a = nptr + BitVec.ofNat 32 before) :
    convertNumber w fuel m nptr base neg (m a) (a + 1) =
      some ((numberFrom base neg before text).result w,
        nptr + BitVec.ofNat 32 (numberFrom base neg before text).stop) := by
  have hhead : text.head? = some (chr '0') ↔ m a = chr '0' := by
    have hfirst := hs.getElem?_eq_some_iff (i := 0) (Nat.zero_le _) (show chr '0' ≠ 0 by decide)
    rwa [← List.head?_eq_getElem?, show a + BitVec.ofNat 32 0 = a from BitVec.add_zero a] at hfirst
  have hmark : decide ((base = 0 ∨ base = 16) ∧ m a = chr '0' ∧
      (m (a + 1) = chr 'x' ∨ m (a + 1) = chr 'X')) = marksHex base text := by
    rw [Bool.eq_iff_iff, decide_eq_true_eq]
    exact marksHex_iff hs
  unfold convertNumber
  rw [hmark]
  cases hhex : marksHex base text with
  | false =>
    -- without a mark the digits begin with the character already read
    have hbase : (numberFrom base neg before text).base =
        if base = 0 then if m a = chr '0' then 8 else 10 else base := by
      simp only [numberFrom, baseOf, hhex, hhead, Bool.false_eq_true, if_false]
    have hnumber := convertDigits_result nptr hw (numberFrom base neg before text) hs
      hfuel (by simp [numberFrom, hhex]) (by simpa [numberFrom, hhex] using ha)
    rw [hbase] at hnumber
    exact hnumber
  | true =>
    have hlength : 2 ≤ text.length := by
      rw [marksHex, decide_eq_true_eq] at hhex
      obtain ⟨-, -, hx | hx⟩ := hhex
      · exact (List.getElem?_eq_some_iff.mp hx).1
      · exact (List.getElem?_eq_some_iff.mp hx).1
    have hbase : (numberFrom base neg before text).base = 16 := by
      simp only [numberFrom, baseOf, hhex, if_true]
    have hbehind : a + BitVec.ofNat 32 2 = a + 1 + 1 := (add_one_add_ofNat a 1).symm
    have hrest : (text.drop 2).length < fuel := by
      rw [List.length_drop]
      omega
    have hnumber := convertDigits_result nptr hw (numberFrom base neg before text)
      (hs.drop hlength) hrest
      (by simp [numberFrom, hhex]) (by rw [ha, add_ofNat_add_ofNat]; simp [numberFrom, hhex])
    rw [hbase, hbehind, BitVec.add_assoc (a + 1)] at hnumber
    exact hnumber

/-- `strtoul` and `strtouq` read the number a text begins with. -/
theorem strtou_eq (base : BitVec 32) (hw : 32 ≤ w) (hs : StringAt m nptr text) (hfuel : text.length < fuel) :
    strtou w fuel m nptr base =
      some ((numberText base text).result w,
        nptr + BitVec.ofNat 32 (numberText base text).stop) := by
  have hsplit : text.takeWhile isspace ++ text.dropWhile isspace = text :=
    List.takeWhile_append_dropWhile
  rw [strtou, skipSpaces_eq hs hfuel, Option.bind_some, numberText]
  dsimp only
  generalize text.takeWhile isspace = spaces, text.dropWhile isspace = signed at hsplit ⊢
  subst hsplit
  rw [List.length_append] at hfuel
  have hsigned := hs.of_append
  have hhead {c : BitVec 8} (hc : c ≠ 0) :
      signed.head? = some c ↔ m (nptr + BitVec.ofNat 32 spaces.length) = c := by
    have hfirst := hsigned.getElem?_eq_some_iff (i := 0) (Nat.zero_le _) hc
    rwa [← List.head?_eq_getElem?, BitVec.add_zero] at hfirst
  have hminus := hhead (c := chr '-') (by decide)
  have hplus := hhead (c := chr '+') (by decide)
  by_cases hsign : signed.head? = some (chr '-') ∨ signed.head? = some (chr '+')
  · -- the number begins behind the sign
    obtain ⟨c, number, rfl⟩ : ∃ c number, signed = c :: number := by
      cases signed with
      | nil => simp at hsign
      | cons c number => exact ⟨c, number, rfl⟩
    obtain ⟨-, -, hnumber⟩ := StringAt.cons_iff.mp hsigned
    have hfuel' : number.length < fuel := by
      rw [List.length_cons] at hfuel
      omega
    have hread := fun neg => convertNumber_eq base hw hnumber hfuel' neg
      (add_ofNat_add_ofNat nptr spaces.length 1)
    rw [signLength, if_pos hsign, List.drop_one, List.tail_cons]
    by_cases hneg : m (nptr + BitVec.ofNat 32 spaces.length) = chr '-'
    · rw [if_pos hneg, decide_eq_true (hminus.mpr hneg)]
      exact hread true
    · have hpos := hplus.mp (hsign.resolve_left (mt hminus.mp hneg))
      rw [if_neg hneg, if_pos hpos, decide_eq_false (mt hminus.mp hneg)]
      exact hread false
  · obtain ⟨hneg, hpos⟩ := not_or.mp hsign
    rw [if_neg (mt hminus.mpr hneg), if_neg (mt hplus.mpr hpos), signLength, if_neg hsign,
      List.drop_zero, Nat.add_zero, decide_eq_false hneg]
    exact convertNumber_eq base hw hsigned (by omega) false rfl

theorem numberText_stop_le (base : BitVec 32) (text : List (BitVec 8)) :
    (numberText base text).stop ≤ text.length := by
  have hsplit := congrArg List.length (List.takeWhile_append_dropWhile (p := isspace) (l := text))
  rw [List.length_append] at hsplit
  rw [NumberText.stop, numberText, numberFrom]
  dsimp only
  generalize text.dropWhile isspace = signed at hsplit ⊢
  generalize signLength signed = sign
  generalize (if marksHex base (signed.drop sign) then 2 else 0) = mark
  split
  · exact Nat.zero_le _
  · rename_i hne
    have hdigits := (List.takeWhile_sublist (l := (signed.drop sign).drop mark)
      (isDigitIn (baseOf base (signed.drop sign)))).length_le
    have hpos := List.length_pos_iff.mpr hne
    rw [List.length_drop, List.length_drop] at hdigits
    omega

end Reading

/-- On every text and in every base, `strtoul` and `strtouq` return: the number that stands behind
spaces, a sign and the mark of its base if it fits the result, and the largest value if it does not.
They stop behind its digits, inside the text, and at its start if there are none. -/
theorem strtoul_strtouq_read {m : ByteMem 32} {nptr : Word} {text : List (BitVec 8)}
    (hs : StringAt m nptr text) (base : BitVec 32) :
    (numberText base text).stop ≤ text.length ∧ ∀ fuel, text.length < fuel →
      strtoul fuel m nptr base = some ((numberText base text).result 32,
        nptr + BitVec.ofNat 32 (numberText base text).stop) ∧
      strtouq fuel m nptr base = some ((numberText base text).result 64,
        nptr + BitVec.ofNat 32 (numberText base text).stop) := by
  refine ⟨numberText_stop_le base text, fun fuel hfuel => ⟨?_, ?_⟩⟩
  · exact strtou_eq base (by decide) hs hfuel
  · exact strtou_eq base (by decide) hs hfuel

/-- The text " -0x100000000z" in base 0: too large for `strtoul`, and negated by `strtouq`. -/
theorem strtoul_strtouq_read_hex :
    strtoul 20 (textMem 0x1000 (" -0x100000000z".toList.map chr)) 0x1000 0 =
        some (BitVec.allOnes 32, 0x100d) ∧
      strtouq 20 (textMem 0x1000 (" -0x100000000z".toList.map chr)) 0x1000 0 =
        some (-0x100000000, 0x100d) := by
  have hs : StringAt (textMem (0x1000 : Word) (" -0x100000000z".toList.map chr)) 0x1000
      (" -0x100000000z".toList.map chr) := stringAt_textMem (by decide) (by decide)
  have hnumber : numberText 0 (" -0x100000000z".toList.map chr) =
      ⟨true, 16, 4, "100000000".toList.map chr⟩ := by decide
  obtain ⟨hsmall, hlarge⟩ := (strtoul_strtouq_read hs 0).2 20 (by decide)
  rw [hnumber] at hsmall hlarge
  exact ⟨hsmall, hlarge⟩

end ChrisOS.Utils
