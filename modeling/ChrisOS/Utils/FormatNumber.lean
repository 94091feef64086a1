import ChrisOS.Utils.FormatDirective

/-!
# Numbers in a format

What the conversions of `kvprintf` for numbers print, as text: a sign, the mark of the base and the
digits, filled up to the width of the field. The blanks go in front of all that or behind it, and
zeros go between the mark and the digits, so that `strtoul` and `strtouq` read every such number
back, unless it is filled up with zeros behind it.
-/

namespace ChrisOS.Utils

open ChrisOS.Lib ChrisOS.Sys

/-- What the flags in front of a conversion can set. -/
structure Conversion.Scanned (v : Conversion) : Prop where
  padc : v.padc = chr ' ' ∨ v.padc = chr '0'
  width : 0 ≤ v.width ∧ v.width < 2 ^ 31

/-- The sign of a number. -/
def signText (neg : Bool) : List (BitVec 8) := if neg then [chr '-'] else []

/-- The characters of a number in its field. -/
def numberField (v : Conversion) (neg : Bool) (sharp digits unit : List (BitVec 8)) :
    List (BitVec 8) :=
  let front := signText neg ++ sharp
  let body := digits ++ unit
  let padding := List.replicate (v.width - (front ++ body).length).toNat v.padc
  if v.ladjust then front ++ body ++ padding
  else if v.padc = chr '0' then front ++ padding ++ body
  else padding ++ front ++ body

/-- A number with a minus sign in front of it. -/
def negative (v : Conversion) (num : BitVec 64) : Bool := v.sign ∧ num.toInt < 0

/-- The number behind the sign. -/
def magnitude (v : Conversion) (num : BitVec 64) : BitVec 64 :=
  if negative v num then -num else num

/-- The characters that are printed for a number without a unit. -/
def numberChars (v : Conversion) (base : BitVec 32) (upper : Bool) (num : BitVec 64) :
    List (BitVec 8) :=
  numberField v (negative v num) (sharpText v base (magnitude v num))
    (numberString upper base.toNat (magnitude v num).toNat) []

/-- How many characters a number has without its padding. -/
def numberLength (v : Conversion) (base : BitVec 32) (upper : Bool) (num : BitVec 64) : ℕ :=
  (signText (negative v num) ++ sharpText v base (magnitude v num) ++
    numberString upper base.toNat (magnitude v num).toNat).length

/-- The characters that are printed for a number of bytes. -/
def humanChars (v : Conversion) (base : BitVec 32) (upper : Bool) (num : BitVec 64) :
    List (BitVec 8) :=
  let scaled := humanScale maxHumanUnit (magnitude v num) 0
  numberField v (negative v num) (sharpText v base scaled.1)
    (numberString upper base.toNat scaled.1.toNat) (humanUnits.getD scaled.2 [])

/-- An argument of a given width as a number of 64 bits. -/
def extended (signed : Bool) {w : ℕ} (x : BitVec w) : BitVec 64 :=
  if signed then x.signExtend 64 else x.setWidth 64

/-- The argument of a conversion for numbers, and the arguments behind it. -/
def numberArg (signed : Bool) (v : Conversion) : List Word → Option (BitVec 64 × List Word)
  | [] => none
  | a :: ap =>
    if v.jflag ∨ v.qflag then ap.head?.map fun high => (high ++ a, ap.tail)
    else if v.tflag then some (a.signExtend 64, ap)
    else if v.lflag ∨ v.zflag then some (extended signed a, ap)
    else if v.hflag then some (extended signed (a.setWidth 16), ap)
    else if v.cflag then some (extended signed (a.setWidth 8), ap)
    else some (extended signed a, ap)

section Flags

variable {f : FormatFlag} {flags : List FormatFlag} {v v' : Conversion} {ap ap' : List Word}

theorem scanned_of_apply (hv : v.Scanned) (h : f.apply (v, ap) = some (v', ap')) : v'.Scanned := by
  obtain ⟨hpadc, hwidth⟩ := hv
  cases f with
  | zero =>
    cases h
    exact ⟨Or.inr rfl, hwidth⟩
  | star =>
    cases ap with
    | nil => cases h
    | cons n ap =>
      rw [FormatFlag.apply] at h
      split at h
      · cases h
        exact ⟨hpadc, hwidth⟩
      · split at h
        · rename_i hneg
          obtain ⟨width, hint, heq⟩ := Option.map_eq_some_iff.mp h
          cases heq
          refine ⟨hpadc, ?_⟩
          rw [intValue] at hint
          split at hint
          · cases hint
            show 0 ≤ -n.toInt ∧ -n.toInt < 2 ^ 31
            omega
          · cases hint
        · rename_i hpos
          cases h
          exact ⟨hpadc, Int.not_lt.mp hpos, BitVec.toInt_lt⟩
  | digits ds =>
    rw [FormatFlag.apply] at h
    split at h
    · rename_i hlt
      cases h
      split
      · exact ⟨hpadc, hwidth⟩
      · exact ⟨hpadc, Int.natCast_nonneg _, by dsimp only; omega⟩
    · cases h
  | h =>
    cases h
    split <;> exact ⟨hpadc, hwidth⟩
  | l =>
    cases h
    split <;> exact ⟨hpadc, hwidth⟩
  | _ =>
    cases h
    exact ⟨hpadc, hwidth⟩

theorem scanned_applyFlags (hv : v.Scanned) (h : applyFlags flags (v, ap) = some (v', ap')) :
    v'.Scanned := by
  induction flags generalizing v ap with
  | nil =>
    cases h
    exact hv
  | cons f flags ih =>
    rw [applyFlags_cons] at h
    obtain ⟨⟨v₁, ap₁⟩, hf, hflags⟩ := Option.bind_eq_some_iff.mp h
    exact ih (scanned_of_apply hv hf) hflags

theorem scanned_default : ({} : Conversion).Scanned := ⟨Or.inl rfl, Int.le_refl 0, by decide⟩

end Flags

section Layout

variable {v : Conversion} {neg upper bflag : Bool} {sharp digits unit : List (BitVec 8)}
  {base : BitVec 32} {num : BitVec 64} {k : Kvprintf} {fuel : ℕ}

/-- A field is as wide as asked for, or as wide as what is in it. -/
theorem length_numberField (v : Conversion) (neg : Bool) (sharp digits unit : List (BitVec 8)) :
    ((numberField v neg sharp digits unit).length : ℤ) =
      max v.width (signText neg ++ sharp ++ (digits ++ unit)).length := by
  unfold numberField
  dsimp only
  split_ifs <;> simp only [List.length_append, List.length_replicate] <;> omega

/-- A width that is no more than what is printed: there is nothing to fill up. -/
theorem padTo_of_le (test : Bool) (padc : BitVec 8) {width tmp : ℤ} (hle : width ≤ tmp)
    (htmp : 0 ≤ tmp) : ∃ width' ≤ tmp, k.padTo test padc width tmp = (width', k) := by
  unfold Kvprintf.padTo
  split_ifs with htest hfill
  · exact absurd hfill (by omega)
  · exact ⟨width - tmp, by omega, rfl⟩
  · exact ⟨width, hle, rfl⟩

theorem padTo_false (padc : BitVec 8) (width tmp : ℤ) :
    k.padTo false padc width tmp = (width, k) :=
  if_neg fun h => Bool.false_ne_true h.1

/-- A width that is more than what is printed is filled up once. -/
theorem padTo_of_lt (padc : BitVec 8) {width tmp : ℤ} (hlt : tmp < width) (htmp : 0 ≤ tmp) :
    k.padTo true padc width tmp = (-1, k.pchars (List.replicate (width - tmp).toNat padc)) := by
  rw [Kvprintf.padTo, if_pos ⟨rfl, by omega⟩, if_pos (by omega)]

/-- The characters of a number, for the length that `number` computes. -/
theorem printNumber_eq {tmp : ℤ}
    (htmp : tmp = (signText neg ++ sharp ++ (digits ++ unit)).length) :
    k.printNumber v neg sharp digits unit tmp =
      k.pchars (numberField v neg sharp digits unit) := by
  have hpos : 0 ≤ tmp := by omega
  have hsign : (if neg then [chr '-'] else []) = signText neg := rfl
  unfold Kvprintf.printNumber numberField
  dsimp only
  rw [hsign, ← htmp]
  by_cases hfill : tmp < v.width
  · -- the first of the three tests that holds fills up the field, and leaves nothing to fill up
    have hdone : (-1 : ℤ) ≤ tmp := by omega
    cases hl : v.ladjust with
    | true =>
      simp only [not_true_eq_false, false_and, decide_false, padTo_false,
        padTo_of_lt v.padc hfill hpos, if_true, ← Kvprintf.pchars_append, List.append_assoc]
    | false =>
      by_cases hzero : v.padc = chr '0'
      · simp only [Bool.false_eq_true, not_false_eq_true, ne_eq, hzero, not_true_eq_false, and_false,
          decide_false, decide_true, padTo_false, padTo_of_lt _ hfill hpos, if_false, if_true,
          ← Kvprintf.pchars_append, List.append_assoc]
      · obtain ⟨w₂, -, h₂⟩ := padTo_of_le
          (k := k.pchars (List.replicate (v.width - tmp).toNat v.padc ++ (signText neg ++ sharp)))
          true v.padc hdone hpos
        simp only [Bool.false_eq_true, not_false_eq_true, ne_eq, hzero, and_self, decide_true,
          padTo_of_lt _ hfill hpos, ← Kvprintf.pchars_append, h₂, padTo_false, if_false,
          List.append_assoc]
  · have hnone : (v.width - tmp).toNat = 0 := by omega
    obtain ⟨w₁, hw₁, h₁⟩ := padTo_of_le (k := k) (decide (¬ v.ladjust ∧ v.padc ≠ chr '0')) v.padc
      (Int.not_lt.mp hfill) hpos
    obtain ⟨w₂, hw₂, h₂⟩ := padTo_of_le (k := (k.pchars (signText neg)).pchars sharp)
      (decide (¬ v.ladjust)) v.padc hw₁ hpos
    obtain ⟨w₃, hw₃, h₃⟩ := padTo_of_le
      (k := (((k.pchars (signText neg)).pchars sharp).pchars digits).pchars unit)
      v.ladjust v.padc hw₂ hpos
    rw [h₁]
    dsimp only
    rw [h₂]
    dsimp only
    rw [h₃, hnone, List.replicate_zero]
    simp only [← Kvprintf.pchars_append, List.append_nil, List.nil_append, List.append_assoc,
      ite_self]

/-- The digits come from the buffer, and all is printed in its field. -/
theorem printDigits_eq (hbase : 2 ≤ base.toNat) (hbase' : base.toNat ≤ 36) (hfuel : 65 ≤ fuel)
    (v : Conversion) (neg upper : Bool) (sharp unit : List (BitVec 8)) (n : BitVec 64)
    (k : Kvprintf) :
    ∃ nbuf, ((ksprintn fuel k.nbuf 0 n base upper).bind fun r =>
        (backString r.1 fuel r.2.1).map fun digits =>
          ({ k with nbuf := r.1 }).printNumber v neg sharp digits unit
            (r.2.2.toInt + sharp.length + (if neg then 1 else 0) + unit.length)) =
      some (({ k with nbuf := nbuf }).pchars
        (numberField v neg sharp (numberString upper base.toNat n.toNat) unit)) := by
  obtain ⟨nbuf, hprint, hback, -⟩ := ksprintn_eq k.nbuf 0 n upper hbase hbase'
  have hle := length_numeral_le_64 n hbase
  have hlength : (BitVec.ofNat 32 (numberString upper base.toNat n.toNat).length).toInt =
      (numberString upper base.toNat n.toNat).length := by
    rw [numberString, List.length_map, List.length_reverse, BitVec.toInt_eq_toNat_cond,
      BitVec.toNat_ofNat, Nat.mod_eq_of_lt (by omega), if_pos (by omega)]
  have hsign : ((signText neg).length : ℤ) = if neg then 1 else 0 := by cases neg <;> rfl
  refine ⟨nbuf, ?_⟩
  rw [hprint fuel (by omega), Option.bind_some, hback fuel hfuel, Option.map_some,
    printNumber_eq]
  simp only [hlength, List.length_append, ← hsign]
  omega

/-- The label `number`. -/
theorem number_eq (hbase : 2 ≤ base.toNat) (hbase' : base.toNat ≤ 36) (hfuel : 65 ≤ fuel)
    (v : Conversion) (upper bflag : Bool) (num : BitVec 64) (k : Kvprintf) :
    ∃ k', k.number fuel v base upper bflag num = some k' ∧ k'.out = k.out ++
      if bflag then humanChars v base upper num else numberChars v base upper num := by
  cases bflag with
  | true =>
    obtain ⟨nbuf, h⟩ := printDigits_eq hbase hbase' hfuel v (negative v num) upper _ _ _ k
    exact ⟨_, h, by rw [Kvprintf.pchars_eq]; rfl⟩
  | false =>
    obtain ⟨nbuf, h⟩ := printDigits_eq hbase hbase' hfuel v (negative v num) upper _ _ _ k
    exact ⟨_, h, by rw [Kvprintf.pchars_eq]; rfl⟩

/-- The label `handle_nosign`. -/
theorem handleNosign_eq (fuel : ℕ) (v : Conversion) (base : BitVec 32) (upper bflag : Bool)
    (k : Kvprintf) : k.handleNosign fuel v base upper bflag =
      (numberArg false v k.ap).bind fun a =>
        ({ k with ap := a.2 }).number fuel { v with sign := false } base upper bflag a.1 := by
  unfold Kvprintf.handleNosign
  cases hap : k.ap with
  | nil => simp [numberArg, Kvprintf.vaArgQuad, Kvprintf.vaArg, hap]
  | cons a ap =>
    rw [numberArg]
    dsimp only
    by_cases hquad : v.jflag ∨ v.qflag
    · rw [if_pos hquad, if_pos hquad]
      cases ap <;> simp [Kvprintf.vaArgQuad, Kvprintf.vaArg, hap]
    · rw [if_neg hquad, if_neg hquad, Kvprintf.vaArg, hap]
      split_ifs <;> simp_all [extended]

/-- The label `handle_sign`. -/
theorem handleSign_eq (fuel : ℕ) (v : Conversion) (base : BitVec 32) (k : Kvprintf) :
    k.handleSign fuel v base = (numberArg true v k.ap).bind fun a =>
      ({ k with ap := a.2 }).number fuel v base false false a.1 := by
  unfold Kvprintf.handleSign
  cases hap : k.ap with
  | nil => simp [numberArg, Kvprintf.vaArgQuad, Kvprintf.vaArg, hap]
  | cons a ap =>
    rw [numberArg]
    by_cases hquad : v.jflag ∨ v.qflag
    · rw [if_pos hquad, if_pos hquad]
      cases ap <;> simp [Kvprintf.vaArgQuad, Kvprintf.vaArg, hap]
    · rw [if_neg hquad, if_neg hquad, Kvprintf.vaArg, hap]
      split_ifs <;> simp_all [extended]

/-- The base, the sign and the letters of the conversions for numbers. -/
def numberConversion (radix : BitVec 32) (v : Conversion) (ch : BitVec 8) :
    Option (BitVec 32 × Bool × Bool) :=
  if ch = chr 'd' ∨ ch = chr 'i' then some (10, true, false)
  else if ch = chr 'o' then some (8, false, false)
  else if ch = chr 'r' then some (radix, v.sign, false)
  else if ch = chr 'u' then some (10, false, false)
  else if ch = chr 'X' then some (16, false, true)
  else if ch = chr 'x' then some (16, false, false)
  else if ch = chr 'y' then some (16, true, false)
  else none

theorem convert_number {radix : BitVec 32} {ch : BitVec 8} {signed : Bool}
    (h : numberConversion radix v ch = some (base, signed, upper)) (verbatim : List (BitVec 8)) :
    k.convert fuel radix verbatim ch v = (numberArg signed v k.ap).bind fun a =>
      ({ k with ap := a.2 }).number fuel { v with sign := signed } base upper false a.1 := by
  unfold numberConversion at h
  split_ifs at h with hd ho hr hu hX hx hy <;> cases h
  · obtain rfl | rfl := hd
    · simp +decide only [Kvprintf.convert, if_true, if_false, handleSign_eq]
      rfl
    · simp +decide only [Kvprintf.convert, if_true, if_false, handleSign_eq]
      rfl
  · subst ho
    simp +decide only [Kvprintf.convert, if_true, if_false, handleNosign_eq]
  · subst hr
    cases hsign : v.sign with
    | true =>
      simp +decide only [Kvprintf.convert, if_true, if_false, handleSign_eq, hsign]
      rw [← hsign]
    | false => simp +decide only [Kvprintf.convert, if_true, if_false, handleNosign_eq, hsign]
  · subst hu
    simp +decide only [Kvprintf.convert, if_true, if_false, handleNosign_eq]
  · subst hX
    simp +decide only [Kvprintf.convert, if_true, if_false, handleNosign_eq]
  · subst hx
    simp +decide only [Kvprintf.convert, if_true, if_false, handleNosign_eq]
  · subst hy
    simp +decide only [Kvprintf.convert, if_true, if_false, handleSign_eq]
    rfl

end Layout

section ReadBack

variable {v : Conversion} {neg upper : Bool} {before k : ℕ} {base base' : BitVec 32}
  {num : BitVec 64} {rest : List (BitVec 8)} {n : ℕ}

/-- The bases that `strtoul` can be given for a printed number: its own, and zero if the number
shows its base. -/
def ReadsIn (v : Conversion) (base base' : BitVec 32) : Prop :=
  base' = base ∨
    base' = 0 ∧ (base = 10 ∧ v.padc ≠ chr '0' ∨ (base = 8 ∨ base = 16) ∧ v.sharpflag)

/-- Digits behind the mark of a hexadecimal number. -/
theorem value_marked (h16 : base' = 0 ∨ base' = 16) (hrest : ∀ c ∈ rest, digitValue c = none) :
    (numberFrom base' neg before (chr '0' :: chr 'x' ::
      (List.replicate k (chr '0') ++ (numberString upper 16 n ++ rest)))).value = n := by
  have hmark : marksHex base' (chr '0' :: chr 'x' ::
      (List.replicate k (chr '0') ++ (numberString upper 16 n ++ rest))) := by
    rw [marksHex, decide_eq_true_eq]
    exact ⟨h16, rfl, Or.inl rfl⟩
  have hbase : baseOf base' (chr '0' :: chr 'x' ::
      (List.replicate k (chr '0') ++ (numberString upper 16 n ++ rest))) = 16 := if_pos hmark
  exact (numberFrom_numberString neg before (by decide) (by decide) hbase (if_pos hmark) rfl
    fun c hc => hrest c (List.mem_of_mem_head? hc)).1

/-- Digits without a mark in front of them. -/
theorem value_plain (hbase : 2 ≤ base.toNat) (hbase' : base.toNat ≤ 36)
    (hmark : base' = 0 ∨ base' = 16 → base.toNat ≤ 16)
    (hread : base' = 0 → (if (List.replicate k (chr '0') ++ (numberString upper base.toNat n ++
      rest)).head? = some (chr '0') then 8 else 10) = base) (hsame : base' ≠ 0 → base' = base)
    (hrest : ∀ c ∈ rest, digitValue c = none) :
    (numberFrom base' neg before
      (List.replicate k (chr '0') ++ (numberString upper base.toNat n ++ rest))).value = n := by
  have hno := not_marksHex upper n hbase hbase' hmark hrest k
  have hbaseOf : baseOf base'
      (List.replicate k (chr '0') ++ (numberString upper base.toNat n ++ rest)) = base := by
    rw [baseOf, hno, if_neg Bool.false_ne_true]
    split_ifs with hzero hhead
    · rw [← hread hzero, if_pos hhead]
    · rw [← hread hzero, if_neg hhead]
    · exact hsame hzero
  exact (numberFrom_numberString neg before hbase hbase' hbaseOf
    (by rw [hno, if_neg Bool.false_ne_true]) rfl fun c hc => hrest c (List.mem_of_mem_head? hc)).1

theorem numberString_zero (upper : Bool) (base : ℕ) : numberString upper base 0 = [chr '0'] := by
  cases upper <;> rfl

/-- A printed number behind its sign is read back in every base that it can be read in. -/
theorem value_number (hbase : 2 ≤ base.toNat) (hbase' : base.toNat ≤ 36)
    (hread : ReadsIn v base base') (hk : base = 10 → base' = 0 → k = 0)
    (hrest : ∀ c ∈ rest, digitValue c = none) :
    (numberFrom base' neg before (sharpText v base num ++ (List.replicate k (chr '0') ++
      (numberString upper base.toNat num.toNat ++ rest)))).value = num.toNat := by
  have hown : (numberFrom base neg before (List.replicate k (chr '0') ++
      (numberString upper base.toNat num.toNat ++ rest))).value = num.toNat := by
    refine value_plain hbase hbase' toNat_le_16 (fun h => ?_) (fun _ => rfl) hrest
    rw [h] at hbase
    exact absurd hbase (by decide)
  by_cases hzero : num = 0
  · -- a single zero is the same in every base
    have hnone : sharpText v base num = [] := if_neg fun h => h.2 hzero
    rw [hnone, List.nil_append]
    obtain rfl | ⟨rfl, -⟩ := hread
    · exact hown
    · have hn : num.toNat = 0 := by rw [hzero]; rfl
      have h8 : (numberFrom 0 neg before (List.replicate k (chr '0') ++
          (numberString upper (8 : BitVec 32).toNat 0 ++ rest))).value = 0 :=
        value_plain (by decide) (by decide) (fun _ => by decide)
          (fun _ => if_pos (by rw [numberString_zero]; cases k <;> rfl)) (fun h => absurd rfl h) hrest
      rw [numberString_zero] at h8
      rw [hn, numberString_zero]
      exact h8
  · by_cases hmarked : v.sharpflag ∧ (base = 8 ∨ base = 16)
    · obtain ⟨hsharp, rfl | rfl⟩ := hmarked
      · -- one more zero in front of the digits
        rw [sharpText, if_pos ⟨hsharp, hzero⟩, if_pos rfl]
        refine value_plain (k := k + 1) hbase hbase' (fun _ => by decide) (fun _ => if_pos rfl) ?_
          hrest
        exact fun hne => hread.resolve_right fun h => hne h.1
      · rw [sharpText, if_pos ⟨hsharp, hzero⟩, if_neg (by decide), if_pos rfl]
        refine value_marked ?_ hrest
        exact hread.symm.imp (fun h => h.1) id
    · have hnone : sharpText v base num = [] := by
        unfold sharpText
        split_ifs with h h8 h16
        · exact absurd ⟨h.1, Or.inl h8⟩ hmarked
        · exact absurd ⟨h.1, Or.inr h16⟩ hmarked
        · rfl
        · rfl
      rw [hnone, List.nil_append]
      obtain rfl | ⟨rfl, ⟨rfl, -⟩ | ⟨h816, hsharp⟩⟩ := hread
      · exact hown
      · -- a decimal number does not begin with a zero
        rw [hk rfl rfl]
        refine value_plain hbase hbase' (fun _ => by decide) (fun _ => if_neg ?_)
          (fun h => absurd rfl h) hrest
        obtain ⟨c, text, htext, -, -, -, hc⟩ := numberString_eq_cons upper num.toNat
          (show 1 < (10 : BitVec 32).toNat by decide) (by decide)
        rw [htext]
        intro hhead
        refine hc (fun hn => hzero (BitVec.eq_of_toNat_eq hn)) ?_
        exact Option.some_inj.mp hhead
      · exact absurd ⟨hsharp, h816⟩ hmarked

/-- A field without zeros behind the number: blanks, the sign, the mark, zeros, the digits, and
blanks again. -/
theorem numberField_eq (hv : v.Scanned) (neg : Bool) (sharp digits : List (BitVec 8))
    (hpad : v.ladjust → v.padc = chr '0' → v.width ≤ (signText neg ++ sharp ++ digits).length) :
    ∃ spaces k rest, (∀ c ∈ spaces, c = chr ' ') ∧ (∀ c ∈ rest, c = chr ' ') ∧
      (v.padc ≠ chr '0' → k = 0) ∧ numberField v neg sharp digits [] =
        spaces ++ (signText neg ++ (sharp ++ (List.replicate k (chr '0') ++ (digits ++ rest)))) := by
  unfold numberField
  dsimp only
  rw [List.append_nil]
  have hfill : v.ladjust → v.padc = chr '0' →
      (v.width - (signText neg ++ sharp ++ digits).length).toNat = 0 := fun hl hzero =>
    Int.toNat_of_nonpos (Int.sub_nonpos_of_le (hpad hl hzero))
  generalize (v.width - (signText neg ++ sharp ++ digits).length).toNat = fill at *
  have hblank (h : v.padc ≠ chr '0') : ∀ c ∈ List.replicate fill v.padc, c = chr ' ' := by
    rw [hv.padc.resolve_right h]
    exact fun c hc => List.eq_of_mem_replicate hc
  split_ifs with hl hzero
  · refine ⟨[], 0, List.replicate fill v.padc, by simp, ?_, fun _ => rfl, by simp⟩
    by_cases hzero : v.padc = chr '0'
    · simp [hfill hl hzero]
    · exact hblank hzero
  · refine ⟨[], fill, [], by simp, by simp, fun h => absurd hzero h, ?_⟩
    simp [hzero]
  · refine ⟨List.replicate fill v.padc, 0, [], hblank hzero, by simp, fun _ => rfl, ?_⟩
    simp

/-- The first character behind the sign. -/
theorem head_number (hbase : 2 ≤ base.toNat) (hbase' : base.toNat ≤ 36) (v : Conversion) (k : ℕ)
    (rest : List (BitVec 8)) :
    ∀ c ∈ (sharpText v base num ++ (List.replicate k (chr '0') ++
      (numberString upper base.toNat n ++ rest))).head?,
        isspace c = false ∧ c ≠ chr '-' ∧ c ≠ chr '+' := by
  have hzero : isspace (chr '0') = false ∧ chr '0' ≠ chr '-' ∧ chr '0' ≠ chr '+' := by decide
  unfold sharpText
  split_ifs
  case pos | pos =>
    rintro c ⟨rfl⟩
    exact hzero
  all_goals
    obtain _ | k := k
    · obtain ⟨c, text, htext, hspace, hminus, hplus, -⟩ := numberString_eq_cons upper n hbase
        hbase'
      rw [htext]
      rintro c ⟨rfl⟩
      exact ⟨hspace, hminus, hplus⟩
    · rintro c ⟨rfl⟩
      exact hzero

/-- A number in its field, without zeros behind it, is read back with its sign. -/
theorem numberText_numberChars (upper : Bool) (num : BitVec 64) (hv : v.Scanned) (hbase : 2 ≤ base.toNat)
    (hbase' : base.toNat ≤ 36) (hread : ReadsIn v base base')
    (hpad : v.ladjust → v.padc = chr '0' → v.width ≤ numberLength v base upper num) :
    (numberText base' (numberChars v base upper num)).value = (magnitude v num).toNat ∧
      (numberText base' (numberChars v base upper num)).neg = negative v num := by
  obtain ⟨spaces, k, rest, hspaces, hrest, hk, htext⟩ := numberField_eq hv (negative v num)
    (sharpText v base (magnitude v num))
    (numberString upper base.toNat (magnitude v num).toNat) hpad
  have hsign : signText (negative v num) = [] ∨ signText (negative v num) = [chr '-'] ∨
      signText (negative v num) = [chr '+'] := by
    cases negative v num
    · exact Or.inl rfl
    · exact Or.inr (Or.inl rfl)
  have hten : base = 10 → base' = 0 → k = 0 := by
    rintro rfl rfl
    apply hk
    obtain h | ⟨-, ⟨-, h⟩ | ⟨h | h, -⟩⟩ := hread
    · exact absurd h (by decide)
    · exact h
    · exact absurd h (by decide)
    · exact absurd h (by decide)
  rw [numberChars, htext, numberText_append _ _ (fun c hc => by rw [hspaces c hc]; decide) hsign
    (head_number hbase hbase' v k rest)]
  refine ⟨value_number hbase hbase' hread hten fun c hc => by rw [hrest c hc]; decide, ?_⟩
  show decide (signText (negative v num) = [chr '-']) = negative v num
  cases negative v num <;> decide

/-- What is returned for a number that is read back, if it fits. -/
theorem result_numberChars {w : ℕ} (hv : v.Scanned) (hbase : 2 ≤ base.toNat)
    (hbase' : base.toNat ≤ 36) (hread : ReadsIn v base base')
    (hpad : v.ladjust → v.padc = chr '0' → v.width ≤ numberLength v base upper num) (hw : w ≤ 64)
    (hlt : (magnitude v num).toNat < 2 ^ w) :
    (numberText base' (numberChars v base upper num)).result w = num.setWidth w := by
  obtain ⟨hvalue, hneg⟩ := numberText_numberChars upper num hv hbase hbase' hread hpad
  rw [NumberText.result_of_lt (by rwa [hvalue]), hvalue, hneg, magnitude, BitVec.ofNat_toNat]
  split
  · rw [BitVec.setWidth_neg_of_le hw, BitVec.neg_neg]
  · rfl

end ReadBack

section Format

variable {m : ByteMem 32} {fmt : Word} {flags : List FormatFlag} {ch : BitVec 8}
  {radix base : BitVec 32} {signed upper : Bool} {v : Conversion} {ap ap' ap'' : List Word}
  {nbuf : ByteMem 32} {fuel : ℕ} {num : BitVec 64}

theorem radixFor_bounds (radix : BitVec 32) :
    2 ≤ (radixFor radix).toNat ∧ (radixFor radix).toNat ≤ 36 := by
  have hint := BitVec.toInt_eq_toNat_cond radix
  unfold radixFor
  split_ifs with h
  · decide
  · split at hint <;> omega

/-- The conversions for numbers are neither `%n` nor the end of the format, and their bases are
among those that `ksprintn` has digits for. -/
theorem numberConversion_spec
    (h : numberConversion (radixFor radix) v ch = some (base, signed, upper)) :
    ch ≠ 0 ∧ ch ≠ chr 'n' ∧ 2 ≤ base.toNat ∧ base.toNat ≤ 36 := by
  unfold numberConversion at h
  split_ifs at h with hd ho hr hu hX hx hy <;> cases h
  · obtain rfl | rfl := hd <;> decide
  · subst ho
    decide
  · subst hr
    exact ⟨by decide, by decide, radixFor_bounds radix⟩
  · subst hu
    decide
  · subst hX
    decide
  · subst hx
    decide
  · subst hy
    decide

/-- A format that is one conversion. -/
theorem kvprintf_conversion (hflags : FlagsFit false flags ch) (hch : ch ≠ 0) (hn : ch ≠ chr 'n')
    (hs : StringAt m fmt (Directive.conversion flags ch).text) (hfmt : fmt ≠ 0)
    (happly : applyFlags flags ({}, ap) = some (v, ap'))
    (hfuel : (Directive.conversion flags ch).text.length < fuel) :
    kvprintf fuel m fmt radix ap nbuf = Kvprintf.convert fuel (radixFor radix)
      (Directive.conversion flags ch).text ch v ⟨m, ap', [], 0, nbuf, false⟩ := by
  have htext : formatText [Directive.conversion flags ch] = (Directive.conversion flags ch).text :=
    List.flatMap_singleton _ _
  rw [← htext] at hs hfuel
  rw [kvprintf_eq_runDirectives hs hfmt (List.forall_mem_singleton.mpr ⟨hflags, hch⟩)
    (List.forall_mem_singleton.mpr hn) hfuel]
  refine (Option.bind_fun_some _).trans ?_
  rw [Directive.run_conversion Bool.false_ne_true, happly, Option.bind_some]

/-- Every conversion for numbers, unless zeros are filled in behind the number: what
`kvprintf` prints is as wide as asked for, and `strtouq` reads the number back from it in the base
it was printed in, as does `strtoul` if the number fits. It may be told the base, or find it: if a
mark shows it or if it is ten and there are no zeros in front. -/
theorem kvprintf_number_reads_back (radix : BitVec 32) (nbuf : ByteMem 32)
    (hflags : FlagsFit false flags ch)
    (hs : StringAt m fmt (Directive.conversion flags ch).text) (hfmt : fmt ≠ 0)
    (happly : applyFlags flags ({}, ap) = some (v, ap'))
    (hch : numberConversion (radixFor radix) v ch = some (base, signed, upper))
    (harg : numberArg signed v ap' = some (num, ap''))
    (hpad : v.ladjust → v.padc = chr '0' →
      v.width ≤ numberLength { v with sign := signed } base upper num)
    (hfuel : 65 ≤ fuel) (hfuel' : (Directive.conversion flags ch).text.length < fuel) :
    ∃ k, kvprintf fuel m fmt radix ap nbuf = some k ∧ v.width ≤ k.out.length ∧
      ∀ m' nptr base' fuel', StringAt m' nptr k.out → k.out.length < fuel' →
        ReadsIn v base base' →
        (∃ stop, strtouq fuel' m' nptr base' = some (num, stop)) ∧
        ((magnitude { v with sign := signed } num).toNat < 2 ^ 32 →
          ∃ stop, strtoul fuel' m' nptr base' = some (num.setWidth 32, stop)) := by
  obtain ⟨hzero, hn, hbase, hbase'⟩ := numberConversion_spec hch
  have hv := scanned_applyFlags scanned_default happly
  have hv' : ({ v with sign := signed } : Conversion).Scanned := ⟨hv.padc, hv.width⟩
  obtain ⟨k, hnumber, hout⟩ := number_eq hbase hbase' hfuel { v with sign := signed } upper false num
    ⟨m, ap'', [], 0, nbuf, false⟩
  have hchars : k.out = numberChars { v with sign := signed } base upper num := hout
  refine ⟨k, ?_, ?_, fun m' nptr base' fuel' hs' hlt hread => ?_⟩
  · rw [kvprintf_conversion hflags hzero hn hs hfmt happly hfuel', convert_number hch, harg,
      Option.bind_some]
    exact hnumber
  · rw [hchars, numberChars, length_numberField]
    exact Int.le_max_left _ _
  · have hresult {w : ℕ} (hw : w ≤ 64)
        (hsmall : (magnitude { v with sign := signed } num).toNat < 2 ^ w) :
        (numberText base' k.out).result w = num.setWidth w := by
      rw [hchars]
      exact result_numberChars hv' hbase hbase' hread hpad hw hsmall
    have hquad := strtou_eq base' (show 32 ≤ 64 by decide) hs' hlt
    have hlong := strtou_eq base' (Nat.le_refl 32) hs' hlt
    rw [hresult (Nat.le_refl 64) (BitVec.isLt _), BitVec.setWidth_eq] at hquad
    refine ⟨⟨_, hquad⟩, fun hsmall => ?_⟩
    rw [hresult (by decide) hsmall] at hlong
    exact ⟨_, hlong⟩

/-- The number 255 as "%#-10x", read back with no base given. -/
theorem kvprintf_number_reads_back_hex :
    let m := textMem (0x1000 : Word) ("%#-10x".toList.map chr)
    ∃ k, kvprintf 70 m 0x1000 10 [255] (fun _ => 0) = some k ∧
      k.out = "0xff      ".toList.map chr ∧
      ∃ stop, strtouq 99 (textMem 0x2000 k.out) 0x2000 0 = some (255, stop) := by
  intro m
  have hs : StringAt m 0x1000
      (Directive.conversion [.sharp, .minus, .digits ("10".toList.map chr)] (chr 'x')).text :=
    ⟨by decide, by decide, by decide⟩
  have hflags : FlagsFit false [.sharp, .minus, .digits ("10".toList.map chr)] (chr 'x') :=
    ⟨trivial, trivial, ⟨⟨_, _, rfl, by decide⟩, by decide, by decide⟩,
      show isFlagChar (chr 'x') = false by decide⟩
  have happly : applyFlags [.sharp, .minus, .digits ("10".toList.map chr)] ({}, [255]) =
      some ({ width := 10, ladjust := true, sharpflag := true }, [255]) := by decide
  have harg : numberArg false { width := 10, ladjust := true, sharpflag := true } [255] =
      some (255, []) := by decide
  obtain ⟨k, hrun, -, hread⟩ := kvprintf_number_reads_back 10 (fun _ => 0) hflags hs
    (by decide) happly rfl harg (by decide) (show 65 ≤ 70 by decide) (by decide)
  have hout : k.out = "0xff      ".toList.map chr := by
    have hprinted : (kvprintf 70 m 0x1000 10 [255] fun _ => 0).map Kvprintf.out =
        some ("0xff      ".toList.map chr) := by decide
    rw [hrun] at hprinted
    exact Option.some.inj hprinted
  have hs' : StringAt (textMem (0x2000 : Word) k.out) 0x2000 k.out := by
    rw [hout]
    exact stringAt_textMem (by decide) (by decide)
  refine ⟨k, hrun, hout, ?_⟩
  exact (hread _ _ 0 99 hs' (by rw [hout]; decide) (Or.inr ⟨rfl, Or.inr ⟨Or.inr rfl, rfl⟩⟩)).1

/-- The loop that scales a number: how often it divides, and that it stops at once. -/
theorem humanScale_spec (left : ℕ) (num : BitVec 64) (bunits : ℕ) :
    ∃ u ≤ left, (humanScale left num bunits).2 = bunits + u ∧
      (humanScale left num bunits).1.toNat = num.toNat / 1024 ^ u ∧
      (u = left ∨ num.toNat / 1024 ^ u ≤ 1024) ∧ ∀ j < u, 1024 < num.toNat / 1024 ^ j := by
  induction left generalizing num bunits with
  | zero => exact ⟨0, Nat.le_refl 0, rfl, (Nat.div_one _).symm, Or.inl rfl, by simp⟩
  | succ left ih =>
    rw [humanScale]
    have hlt : 1024 < num ↔ 1024 < num.toNat := BitVec.lt_def
    split
    · rename_i hbig
      obtain ⟨u, hu, hunits, hnum, hstop, hbefore⟩ := ih (num / 1024) (bunits + 1)
      have hquot : (num / 1024).toNat = num.toNat / 1024 := BitVec.toNat_udiv
      have hdiv (j : ℕ) : (num / 1024).toNat / 1024 ^ j = num.toNat / 1024 ^ (j + 1) := by
        rw [hquot, Nat.div_div_eq_div_mul, Nat.pow_succ']
      rw [hdiv] at hnum hstop
      refine ⟨u + 1, Nat.succ_le_succ hu, by omega, hnum, by omega, ?_⟩
      rintro (_ | j) hj
      · rw [Nat.pow_zero, Nat.div_one]
        exact hlt.mp hbig
      · rw [← hdiv]
        exact hbefore j (by omega)
    · rename_i hsmall
      refine ⟨0, Nat.zero_le _, rfl, (Nat.div_one _).symm, Or.inr ?_, by simp⟩
      rw [Nat.pow_zero, Nat.div_one]
      exact Nat.not_lt.mp fun h => hsmall (hlt.mpr h)

/-- The conversion `%B` prints a number of bytes in the first unit that leaves no more than 1024 of
it, or else in the last one, rounded down; the unit is always one of the table. -/
theorem kvprintf_human_size (hflags : FlagsFit false flags (chr 'B'))
    (hs : StringAt m fmt (Directive.conversion flags (chr 'B')).text) (hfmt : fmt ≠ 0)
    (happly : applyFlags flags ({}, ap) = some (v, ap'))
    (harg : numberArg false v ap' = some (num, ap''))
    (hfuel : 65 ≤ fuel) (hfuel' : (Directive.conversion flags (chr 'B')).text.length < fuel) :
    ∃ k u unit, kvprintf fuel m fmt radix ap nbuf = some k ∧ humanUnits[u]? = some unit ∧
      k.out = numberField v false [] (numberString false 10 (num.toNat / 1024 ^ u)) unit ∧
      (num.toNat / 1024 ^ u ≤ 1024 ∨ u = maxHumanUnit) ∧
      ∀ j < u, 1024 < num.toNat / 1024 ^ j := by
  obtain ⟨k, hnumber, hout⟩ := number_eq (show 2 ≤ (10 : BitVec 32).toNat by decide)
    (by decide) hfuel { v with sign := false } false true num ⟨m, ap'', [], 0, nbuf, false⟩
  obtain ⟨u, hu, hunits, hnum, hstop, hbefore⟩ := humanScale_spec maxHumanUnit num 0
  rw [Nat.zero_add] at hunits
  have hlt : u < humanUnits.length := Nat.lt_of_le_of_lt hu (by decide)
  refine ⟨k, u, humanUnits.getD u [], ?_, ?_, ?_, hstop.symm, hbefore⟩
  · rw [kvprintf_conversion hflags (by decide) (by decide) hs hfmt happly hfuel']
    simp +decide only [Kvprintf.convert, if_true, if_false, handleNosign_eq, harg,
      Option.bind_some]
    exact hnumber
  · rw [List.getD_eq_getElem?_getD, List.getElem?_eq_getElem hlt, Option.getD_some]
  · have hnone : ∀ n, sharpText { v with sign := false } 10 n = [] := by
      intro n
      unfold sharpText
      split <;> rfl
    have hneg : negative { v with sign := false } num = false := by simp [negative]
    have hmag : magnitude { v with sign := false } num = num := by
      rw [magnitude, hneg, if_neg Bool.false_ne_true]
    refine hout.trans ?_
    rw [List.nil_append, if_pos rfl, humanChars, hmag, hneg, hnone, hunits, hnum]
    rfl

/-- 5000 bytes as "%8B". -/
theorem kvprintf_human_size_5000 :
    ∃ k u unit, kvprintf 70 (textMem 0x1000 ("%8B".toList.map chr)) 0x1000 10 [5000] (fun _ => 0) =
        some k ∧ humanUnits[u]? = some unit ∧
      k.out = numberField { width := 8 } false []
        (numberString false 10 ((5000 : BitVec 64).toNat / 1024 ^ u)) unit ∧
      ((5000 : BitVec 64).toNat / 1024 ^ u ≤ 1024 ∨ u = maxHumanUnit) ∧
      ∀ j < u, 1024 < (5000 : BitVec 64).toNat / 1024 ^ j := by
  have hs : StringAt (textMem (0x1000 : Word) ("%8B".toList.map chr)) 0x1000
      (Directive.conversion [.digits ("8".toList.map chr)] (chr 'B')).text :=
    ⟨by decide, by decide, by decide⟩
  have hflags : FlagsFit false [.digits ("8".toList.map chr)] (chr 'B') :=
    ⟨⟨⟨_, _, rfl, by decide⟩, by decide, by decide⟩, show isFlagChar (chr 'B') = false by decide⟩
  have happly : applyFlags [.digits ("8".toList.map chr)] ({}, [5000]) =
      some ({ width := 8 }, [5000]) := by decide
  have harg : numberArg false { width := 8 } [5000] = some (5000, []) := by decide
  exact kvprintf_human_size hflags hs (by decide) happly harg (by decide) (by decide)

end Format

end ChrisOS.Utils
