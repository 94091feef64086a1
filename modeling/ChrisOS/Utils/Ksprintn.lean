import ChrisOS.Utils.Strtoul

/-!
# Printing numbers into a buffer

`ksprintn` of `utils/kprintf.c`. It puts a zero byte at the start of the buffer and the digits of
the number behind it, the lowest first, so that the number stands there backwards from the address
it returns. A division by a base of zero, and a digit that is not in the table, are `none`; so is a
loop that has not stopped.

In the bases from 2 to 36 it stops after at most 64 digits, which together with the zero byte is
just what `MAXNBUF` has room for, and `strtouq` reads the number back.
-/

namespace ChrisOS.Utils

open ChrisOS.Lib ChrisOS.Sys

/-- `hex2ascii_data`, with its terminator. -/
def hex2asciiData : List (BitVec 8) :=
  ['0', '1', '2', '3', '4', '5', '6', '7', '8', '9', 'a', 'b', 'c', 'd', 'e', 'f', 'g', 'h', 'i',
    'j', 'k', 'l', 'm', 'n', 'o', 'p', 'q', 'r', 's', 't', 'u', 'v', 'w', 'x', 'y', 'z'].map chr ++
    [0]

/-- `hex2ascii`. -/
def hex2ascii (hex : ℕ) : Option (BitVec 8) := hex2asciiData[hex]?

/-- `MAXNBUF`. -/
def maxnbuf : ℕ := 8 * 8 + 1

/-- The loop of `ksprintn`. -/
def ksprintnLoop (base : BitVec 64) (upper : Bool) :
    ℕ → ByteMem 32 → Word → BitVec 64 → Option (ByteMem 32 × Word)
  | 0, _, _, _ => none
  | fuel + 1, m, p, num =>
    if base = 0 then none
    else
      (hex2ascii (num % base).toNat).bind fun c =>
        let p := p + 1
        let m := Function.update m p (if upper then toupper c else c)
        if num / base = 0 then some (m, p) else ksprintnLoop base upper fuel m p (num / base)

/-- `ksprintn`: the memory, the address of the last digit and the length. -/
def ksprintn (fuel : ℕ) (m : ByteMem 32) (nbuf : Word) (num : BitVec 64) (base : BitVec 32)
    (upper : Bool) : Option (ByteMem 32 × Word × Word) :=
  (ksprintnLoop (base.signExtend 64) upper fuel (Function.update m nbuf 0) nbuf num).map fun r =>
    (r.1, r.2, r.2 - nbuf)

/-- The loop that prints what stands in front of an address, down to a zero byte. -/
def backString (m : ByteMem 32) : ℕ → Word → Option (List (BitVec 8))
  | 0, _ => none
  | fuel + 1, p => if m p = 0 then some [] else (backString m fuel (p - 1)).map (m p :: ·)

/-- The digit of a value. -/
def hexDigit (upper : Bool) (d : ℕ) : BitVec 8 :=
  if upper then toupper ((hex2ascii d).getD 0) else (hex2ascii d).getD 0

/-- A number in a base, the highest digit first. -/
def numberString (upper : Bool) (base n : ℕ) : List (BitVec 8) :=
  (numeral base n).reverse.map (hexDigit upper)

theorem hex2ascii_isSome {d : ℕ} (hd : d < 36) : hex2ascii d = some ((hex2ascii d).getD 0) := by
  have hlt : d < hex2asciiData.length := Nat.lt_of_lt_of_le hd (by decide)
  rw [hex2ascii, List.getElem?_eq_getElem hlt, Option.getD_some]

/-- A digit stands for its value, in capitals too, and is neither a space nor a sign. -/
theorem hexDigit_spec (upper : Bool) {d : ℕ} (hd : d < 36) :
    digitValue (hexDigit upper d) = some (BitVec.ofNat 8 d) ∧ isspace (hexDigit upper d) = false ∧
      hexDigit upper d ≠ chr '-' ∧ hexDigit upper d ≠ chr '+' ∧ hexDigit upper d ≠ 0 ∧
      (hexDigit upper d = chr '0' ↔ d = 0) := by
  revert d upper
  decide

section Loop

variable {m : ByteMem 32} {nbuf p : Word} {num base : BitVec 64} {upper : Bool} {fuel : ℕ}

/-- The loop writes the digits behind `p`, the lowest first. -/
theorem ksprintnLoop_eq (m : ByteMem 32) (p : Word) (num : BitVec 64) (upper : Bool)
    (hbase : 1 < base.toNat) (hbase' : base.toNat ≤ 36)
    (hlt : (numeral base.toNat num.toNat).length < 2 ^ 32) :
    ∃ m', (∀ fuel, (numeral base.toNat num.toNat).length ≤ fuel →
        ksprintnLoop base upper fuel m p num =
          some (m', p + BitVec.ofNat 32 (numeral base.toNat num.toNat).length)) ∧
      bytesAt m' (p + 1) (numeral base.toNat num.toNat).length =
        (numeral base.toNat num.toNat).map (hexDigit upper) ∧
      ∀ x, (∀ i < (numeral base.toNat num.toNat).length, x ≠ p + 1 + BitVec.ofNat 32 i) →
        m' x = m x := by
  have hstep (m : ByteMem 32) (p : Word) (num : BitVec 64) (fuel : ℕ) :
      ksprintnLoop base upper (fuel + 1) m p num =
        if num.toNat / base.toNat = 0 then
          some (Function.update m (p + 1) (hexDigit upper (num.toNat % base.toNat)), p + 1)
        else ksprintnLoop base upper fuel
          (Function.update m (p + 1) (hexDigit upper (num.toNat % base.toNat))) (p + 1)
          (num / base) := by
    have hdigit : num.toNat % base.toNat < 36 :=
      Nat.lt_of_lt_of_le (Nat.mod_lt _ (by omega)) hbase'
    have hnonzero : base ≠ 0 := by
      rintro rfl
      exact absurd hbase (by decide)
    have hrest : num / base = 0 ↔ num.toNat / base.toNat = 0 := by
      rw [← BitVec.toNat_inj, BitVec.toNat_udiv]
      rfl
    rw [ksprintnLoop, if_neg hnonzero, BitVec.toNat_umod, hex2ascii_isSome hdigit,
      Option.bind_some]
    simp only [hrest]
    rfl
  induction hk : num.toNat using Nat.strongRecOn generalizing m p num with
  | ind k ih =>
    subst hk
    rw [numeral_eq hbase] at hlt ⊢
    by_cases hlast : num.toNat / base.toNat = 0
    · rw [if_pos hlast]
      refine ⟨Function.update m (p + 1) (hexDigit upper (num.toNat % base.toNat)), ?_, ?_, ?_⟩
      · rintro (_ | fuel) hfuel
        · exact absurd hfuel (by simp)
        · rw [hstep, if_pos hlast]
          rfl
      · rw [List.length_singleton, bytesAt_succ_left, bytesAt_zero, Function.update_self]
        rfl
      · intro x hx
        exact Function.update_of_ne (by simpa using hx 0 (by simp)) _ _
    · rw [if_neg hlast] at hlt ⊢
      rw [List.length_cons] at hlt
      have hsmaller : (num / base).toNat < num.toNat := by
        rw [BitVec.toNat_udiv]
        apply Nat.div_lt_self (Nat.pos_of_ne_zero _) hbase
        intro hzero
        exact hlast (by rw [hzero, Nat.zero_div])
      obtain ⟨m', hrun, hbytes, hsame⟩ := @ih _ hsmaller
        (Function.update m (p + 1) (hexDigit upper (num.toNat % base.toNat))) (p + 1) (num / base)
        (by rw [BitVec.toNat_udiv]; omega) rfl
      rw [BitVec.toNat_udiv] at hrun hbytes hsame
      refine ⟨m', ?_, ?_, ?_⟩
      · rintro (_ | fuel) hfuel
        · exact absurd hfuel (by simp)
        · rw [List.length_cons] at hfuel
          rw [hstep, if_neg hlast, hrun fuel (by omega), List.length_cons, add_one_add_ofNat]
      · rw [List.length_cons, bytesAt_succ_left, hbytes, List.map_cons]
        congr 1
        rw [hsame, Function.update_self]
        intro i hi
        rw [add_one_add_ofNat]
        simpa using add_ofNat_ne (p + 1) (i := 0) (j := i + 1) (by omega) (by omega) (by omega)
      · intro x hx
        rw [hsame, Function.update_of_ne]
        · simpa using hx 0 (by simp)
        · intro i hi
          rw [add_one_add_ofNat]
          exact hx (i + 1) (by rw [List.length_cons]; omega)

/-- What stands in front of an address is printed backwards. -/
theorem backString_eq {n : ℕ} (hstart : m p = 0)
    (hne : ∀ c ∈ bytesAt m (p + 1) n, c ≠ 0) (hfuel : n < fuel) :
    backString m fuel (p + BitVec.ofNat 32 n) = some (bytesAt m (p + 1) n).reverse := by
  induction n generalizing fuel with
  | zero =>
    obtain _ | fuel := fuel
    · exact absurd hfuel (Nat.not_lt_zero _)
    · rw [backString, if_pos (by simpa using hstart)]
      rfl
  | succ n ih =>
    obtain _ | fuel := fuel
    · exact absurd hfuel (Nat.not_lt_zero _)
    · rw [bytesAt_succ] at hne ⊢
      have hlast := hne _ (List.mem_append_right _ (List.mem_singleton_self _))
      have hfront := ih (fun c hc => hne c (List.mem_append_left _ hc)) (show n < fuel by omega)
      have hsucc : p + BitVec.ofNat 32 (n + 1) = p + BitVec.ofNat 32 n + 1 :=
        (add_ofNat_add_ofNat p n 1).symm
      rw [add_one_add_ofNat] at hlast ⊢
      rw [backString, if_neg hlast, hsucc, BitVec.add_sub_cancel, hfront, Option.map_some,
        List.reverse_append]
      rfl

end Loop

section Number

variable {m : ByteMem 32} {nbuf : Word} {num : BitVec 64} {base : BitVec 32} {upper : Bool}

theorem toNat_signExtend (hbase : base.toNat ≤ 36) :
    (base.signExtend 64).toNat = base.toNat := by
  have hpositive : base.msb = false := by
    rw [BitVec.msb_eq_false_iff_two_mul_lt]
    omega
  rw [BitVec.signExtend_eq_setWidth_of_msb_false hpositive, BitVec.toNat_setWidth,
    Nat.mod_eq_of_lt (by omega)]

theorem length_numeral_le_64 (num : BitVec 64) (hbase : 1 < base.toNat) :
    (numeral base.toNat num.toNat).length ≤ 64 := by
  apply length_numeral_le hbase (by decide)
  calc num.toNat < 2 ^ 64 := num.isLt
    _ ≤ base.toNat ^ 64 := Nat.pow_le_pow_left hbase 64

theorem numberString_ne_zero (upper : Bool) (hbase : 1 < base.toNat) (hbase' : base.toNat ≤ 36)
    {n : ℕ} {c : BitVec 8} (hc : c ∈ numberString upper base.toNat n) : c ≠ 0 := by
  obtain ⟨d, hd, rfl⟩ := List.mem_map.mp hc
  have hlt := numeral_lt hbase (List.mem_reverse.mp hd)
  exact (hexDigit_spec upper (Nat.lt_of_lt_of_le hlt hbase')).2.2.2.2.1

/-- `ksprintn` leaves the number to be printed backwards, from the address it returns down to the
zero byte at the start of the buffer. -/
theorem ksprintn_eq (m : ByteMem 32) (nbuf : Word) (num : BitVec 64) (upper : Bool)
    (hbase : 1 < base.toNat) (hbase' : base.toNat ≤ 36) :
    ∃ m', (∀ fuel, 64 ≤ fuel → ksprintn fuel m nbuf num base upper =
        some (m', nbuf + BitVec.ofNat 32 (numberString upper base.toNat num.toNat).length,
          BitVec.ofNat 32 (numberString upper base.toNat num.toNat).length)) ∧
      (∀ fuel, 65 ≤ fuel →
        backString m' fuel
            (nbuf + BitVec.ofNat 32 (numberString upper base.toNat num.toNat).length) =
          some (numberString upper base.toNat num.toNat)) ∧
      ∀ x, (∀ i ≤ (numberString upper base.toNat num.toNat).length,
        x ≠ nbuf + BitVec.ofNat 32 i) → m' x = m x := by
  have hwide := toNat_signExtend hbase'
  have hle := length_numeral_le_64 num hbase
  have hlength : (numberString upper base.toNat num.toNat).length =
      (numeral base.toNat num.toNat).length := by
    rw [numberString, List.length_map, List.length_reverse]
  obtain ⟨m', hrun, hbytes, hsame⟩ := ksprintnLoop_eq (Function.update m nbuf 0) nbuf num upper
    (show 1 < (base.signExtend 64).toNat by rwa [hwide]) (by rwa [hwide]) (by rw [hwide]; omega)
  rw [hwide] at hrun hbytes hsame
  have hstart : m' nbuf = 0 := by
    rw [hsame, Function.update_self]
    intro i hi
    rw [add_one_add_ofNat]
    simpa using add_ofNat_ne nbuf (i := 0) (j := i + 1) (by omega) (by omega) (by omega)
  have hback : (bytesAt m' (nbuf + 1) (numeral base.toNat num.toNat).length).reverse =
      numberString upper base.toNat num.toNat := by
    rw [hbytes, numberString, List.map_reverse]
  rw [hlength]
  refine ⟨m', ?_, ?_, ?_⟩
  · intro fuel hfuel
    rw [ksprintn, hrun fuel (by omega), Option.map_some, BitVec.add_comm nbuf,
      BitVec.add_sub_cancel]
  · intro fuel hfuel
    rw [backString_eq hstart _ (by omega), hback]
    intro c hc
    refine numberString_ne_zero upper hbase hbase' (n := num.toNat) ?_
    rw [← hback]
    exact List.mem_reverse.mpr hc
  · intro x hx
    rw [hsame, Function.update_of_ne]
    · simpa using hx 0 (Nat.zero_le _)
    · intro i hi
      rw [add_one_add_ofNat]
      exact hx (i + 1) hi

end Number

section ReadBack

variable {base : BitVec 32} {upper : Bool} {n before : ℕ} {neg : Bool}
  {spaces sign number rest : List (BitVec 8)}

/-- Spaces and a sign in front of a number. -/
theorem numberText_append (spaces sign : List (BitVec 8)) (hspaces : ∀ c ∈ spaces, isspace c)
    (hsign : sign = [] ∨ sign = [chr '-'] ∨ sign = [chr '+'])
    (hnumber : ∀ c ∈ number.head?, isspace c = false ∧ c ≠ chr '-' ∧ c ≠ chr '+') :
    numberText base (spaces ++ (sign ++ number)) =
      numberFrom base (sign = [chr '-']) (spaces.length + sign.length) number := by
  have hstop : (sign ++ number).takeWhile isspace = [] ∧
      (sign ++ number).dropWhile isspace = sign ++ number := by
    have hfirst : ∀ c ∈ (sign ++ number).head?, isspace c = false := by
      obtain rfl | rfl | rfl := hsign
      · exact fun c hc => (hnumber c hc).1
      · rintro c ⟨rfl⟩
        decide
      · rintro c ⟨rfl⟩
        decide
    cases htext : sign ++ number with
    | nil => exact ⟨rfl, rfl⟩
    | cons c text =>
      have hc := hfirst c (by rw [htext]; rfl)
      rw [List.takeWhile_cons, List.dropWhile_cons, hc]
      exact ⟨rfl, rfl⟩
  have hlength : signLength (sign ++ number) = sign.length := by
    rw [signLength]
    obtain rfl | rfl | rfl := hsign
    · apply if_neg
      rintro (hc | hc)
      · exact (hnumber _ hc).2.1 rfl
      · exact (hnumber _ hc).2.2 rfl
    · rfl
    · rfl
  have hneg : (sign ++ number).head? = some (chr '-') ↔ sign = [chr '-'] := by
    obtain rfl | rfl | rfl := hsign
    · exact iff_of_false (fun hc => (hnumber _ hc).2.1 rfl) (by simp)
    · exact iff_of_true rfl rfl
    · refine iff_of_false ?_ (by decide)
      rw [List.singleton_append, List.head?_cons]
      decide
  rw [numberText, List.takeWhile_append_of_pos hspaces, List.dropWhile_append_of_pos hspaces,
    hstop.1, hstop.2, List.append_nil, hlength, List.drop_left]
  simp only [hneg]

/-- The digits of a printed number, up to the first character that is none. -/
theorem takeWhile_numberString (upper : Bool) (n : ℕ) (hbase : 1 < base.toNat) (hbase' : base.toNat ≤ 36)
    (hrest : ∀ c ∈ rest.head?, digitValue c = none) (k : ℕ) :
    (List.replicate k (chr '0') ++ (numberString upper base.toNat n ++ rest)).takeWhile
      (isDigitIn base) = List.replicate k (chr '0') ++ numberString upper base.toNat n := by
  have hint : base.toInt = base.toNat := by
    rw [BitVec.toInt_eq_toNat_cond, if_pos (by omega)]
  have hdigit {d : ℕ} (hd : d < base.toNat) : isDigitIn base (hexDigit upper d) := by
    have hvalue := (hexDigit_spec upper (Nat.lt_of_lt_of_le hd hbase')).1
    rw [isDigitIn, hvalue, Option.any_some, decide_eq_true_eq, hint, BitVec.toNat_ofNat,
      Nat.mod_eq_of_lt (by omega)]
    omega
  rw [List.takeWhile_append_of_pos, List.takeWhile_append_of_pos]
  · congr 1
    cases rest with
    | nil => rw [List.takeWhile_nil, List.append_nil]
    | cons c rest =>
      rw [List.takeWhile_cons, isDigitIn, hrest c rfl]
      exact List.append_nil _
  · intro c hc
    obtain ⟨d, hd, rfl⟩ := List.mem_map.mp hc
    exact hdigit (numeral_lt hbase (List.mem_reverse.mp hd))
  · intro c hc
    have hzero : hexDigit upper 0 = chr '0' :=
      (hexDigit_spec upper (by decide)).2.2.2.2.2.mpr rfl
    rw [List.eq_of_mem_replicate hc, ← hzero]
    exact hdigit (by omega)

/-- The value of a printed number, with zeros in front of it or without. -/
theorem readFrom_numberString (hbase : 1 < base.toNat) (hbase' : base.toNat ≤ 36) (k : ℕ) :
    readFrom base.toNat 0
      ((List.replicate k (chr '0') ++ numberString upper base.toNat n).map digitOf) = n := by
  have hvalues : (numberString upper base.toNat n).map digitOf = (numeral base.toNat n).reverse := by
    rw [numberString, List.map_map]
    refine (List.map_congr_left fun d hd => ?_).trans (List.map_id _)
    have hlt := numeral_lt hbase (List.mem_reverse.mp hd)
    have hvalue := (hexDigit_spec upper (Nat.lt_of_lt_of_le hlt hbase')).1
    rw [Function.comp_apply, digitOf, hvalue, Option.getD_some, BitVec.toNat_ofNat,
      Nat.mod_eq_of_lt (by omega)]
    rfl
  have hzero : digitOf (chr '0') = 0 := by decide
  rw [List.map_append, List.map_replicate, hvalues, hzero, readFrom_replicate_zero,
    readFrom_numeral]

/-- The first character of a printed number is a digit, and a zero only for zero. -/
theorem numberString_eq_cons (upper : Bool) (n : ℕ) (hbase : 1 < base.toNat)
    (hbase' : base.toNat ≤ 36) :
    ∃ c text, numberString upper base.toNat n = c :: text ∧ isspace c = false ∧
      c ≠ chr '-' ∧ c ≠ chr '+' ∧ (n ≠ 0 → c ≠ chr '0') := by
  obtain ⟨d, ds, hds, hzero⟩ := reverse_numeral_eq_cons base.toNat n
  have hd : d < base.toNat := by
    apply numeral_lt (n := n) hbase
    rw [← List.mem_reverse, hds]
    exact List.mem_cons_self
  obtain ⟨-, hspace, hminus, hplus, -, hchar⟩ :=
    hexDigit_spec upper (Nat.lt_of_lt_of_le hd hbase')
  refine ⟨hexDigit upper d, ds.map (hexDigit upper), ?_, hspace, hminus, hplus, ?_⟩
  · rw [numberString, hds, List.map_cons]
  · exact fun hn hc => hzero hn (hchar.mp hc)

theorem toNat_le_16 (h : base = 0 ∨ base = 16) : base.toNat ≤ 16 := by
  obtain rfl | rfl := h <;> decide

/-- A printed number has no mark of a hexadecimal one in it, where such a mark counts. -/
theorem not_marksHex {base' : BitVec 32} (upper : Bool) (n : ℕ) (hbase : 1 < base.toNat)
    (hbase' : base.toNat ≤ 36) (hmark : base' = 0 ∨ base' = 16 → base.toNat ≤ 16)
    (hrest : ∀ c ∈ rest, digitValue c = none) (k : ℕ) :
    marksHex base' (List.replicate k (chr '0') ++ (numberString upper base.toNat n ++ rest)) =
      false := by
  have hnothing : ∀ c ∈ ([] : List (BitVec 8)).head?, digitValue c = none := by simp
  have hdigits := takeWhile_numberString upper n hbase hbase' hnothing k
  rw [List.append_nil] at hdigits
  have hno {c : BitVec 8} (hc : c = chr 'x' ∨ c = chr 'X') (h16 : base' = 0 ∨ base' = 16) :
      c ∉ List.replicate k (chr '0') ++ (numberString upper base.toNat n ++ rest) := by
    have hvalue : digitValue c = some 33 := by obtain rfl | rfl := hc <;> decide
    intro hmem
    rw [← List.append_assoc, List.mem_append] at hmem
    obtain hmem | hmem := hmem
    · rw [← hdigits] at hmem
      obtain ⟨d, hd, -, hlt, -⟩ := of_isDigitIn (List.all_eq_true.mp List.all_takeWhile c hmem)
      rw [hvalue, Option.some.injEq] at hd
      subst hd
      exact absurd (Nat.lt_of_lt_of_le hlt (hmark h16)) (by decide)
    · exact absurd (hrest c hmem) (by rw [hvalue]; exact Option.some_ne_none _)
  apply decide_eq_false
  rintro ⟨h16, -, hc | hc⟩
  · exact hno (Or.inl rfl) h16 (List.mem_of_getElem? hc)
  · exact hno (Or.inr rfl) h16 (List.mem_of_getElem? hc)

/-- A printed number, with zeros in front of it or without, is read back where it is read in its
base. -/
theorem numberFrom_numberString {base' : BitVec 32} (neg : Bool) (before : ℕ) (hbase : 1 < base.toNat)
    (hbase' : base.toNat ≤ 36) (hread : baseOf base' number = base) {mark k : ℕ}
    (hmark : (if marksHex base' number then 2 else 0) = mark)
    (hdrop : number.drop mark =
      List.replicate k (chr '0') ++ (numberString upper base.toNat n ++ rest))
    (hrest : ∀ c ∈ rest.head?, digitValue c = none) :
    (numberFrom base' neg before number).value = n ∧
      (numberFrom base' neg before number).stop =
        before + mark + (k + (numberString upper base.toNat n).length) := by
  have hdigits := takeWhile_numberString upper n hbase hbase' hrest k
  rw [← hdrop] at hdigits
  obtain ⟨c, text, htext, -⟩ := numberString_eq_cons upper n hbase hbase'
  have hne : List.replicate k (chr '0') ++ numberString upper base.toNat n ≠ [] := by
    rw [htext]
    simp
  constructor
  · rw [NumberText.value, numberFrom]
    dsimp only
    rw [hread, hmark, hdigits, readFrom_numberString hbase hbase']
  · rw [NumberText.stop, numberFrom]
    dsimp only
    rw [hread, hmark, hdigits, if_neg hne, List.length_append, List.length_replicate]

/-- What is returned for a number that fits. -/
theorem NumberText.result_of_lt {w : ℕ} {t : NumberText} (h : t.value < 2 ^ w) :
    t.result w = if t.neg then -BitVec.ofNat w t.value else BitVec.ofNat w t.value :=
  if_neg (Nat.not_le_of_lt h)

end ReadBack

/-- In every base from 2 to 36, with small or capital letters: `ksprintn` returns, its digits and
the zero byte in front of them lie inside `MAXNBUF`, nothing else is written, and the text that is
printed from there is read back by `strtouq` as the same number, up to its end. -/
theorem ksprintn_fits_and_reads_back (m : ByteMem 32) (nbuf : Word) (num : BitVec 64)
    (base : BitVec 32) (upper : Bool) (hbase : 2 ≤ base.toNat) (hbase' : base.toNat ≤ 36) :
    ∃ m' text, text.length < maxnbuf ∧
      (∀ fuel, 64 ≤ fuel → ksprintn fuel m nbuf num base upper =
        some (m', nbuf + BitVec.ofNat 32 text.length, BitVec.ofNat 32 text.length)) ∧
      (∀ fuel, 65 ≤ fuel →
        backString m' fuel (nbuf + BitVec.ofNat 32 text.length) = some text) ∧
      (∀ x, (∀ i ≤ text.length, x ≠ nbuf + BitVec.ofNat 32 i) → m' x = m x) ∧
      ∀ (m₂ : ByteMem 32) (a : Word) (fuel : ℕ), StringAt m₂ a text → text.length < fuel →
        strtouq fuel m₂ a base = some (num, a + BitVec.ofNat 32 text.length) := by
  obtain ⟨m', hrun, hback, hsame⟩ := ksprintn_eq m nbuf num upper hbase hbase'
  have hle := length_numeral_le_64 num hbase
  have hlength : (numberString upper base.toNat num.toNat).length < maxnbuf := by
    rw [numberString, List.length_map, List.length_reverse]
    exact Nat.lt_succ_of_le hle
  refine ⟨m', _, hlength, hrun, hback, hsame, ?_⟩
  intro m₂ a fuel hs hfuel
  obtain ⟨c, text, htext, hspace, hminus, hplus, -⟩ :=
    numberString_eq_cons upper num.toNat hbase hbase'
  have hplain : numberText base (numberString upper base.toNat num.toNat) =
      numberFrom base false 0 (numberString upper base.toNat num.toNat) := by
    rw [htext]
    apply numberText_append [] [] (by simp) (Or.inl rfl)
    rintro d ⟨rfl⟩
    exact ⟨hspace, hminus, hplus⟩
  have hmark := not_marksHex upper num.toNat hbase hbase' toNat_le_16
    (show ∀ c ∈ ([] : List (BitVec 8)), digitValue c = none by simp) 0
  rw [List.replicate_zero, List.nil_append, List.append_nil] at hmark
  have hne : base ≠ 0 := by
    rintro rfl
    exact absurd hbase (by decide)
  have hbaseOf : baseOf base (numberString upper base.toNat num.toNat) = base := by
    rw [baseOf, hmark, if_neg Bool.false_ne_true, if_neg hne]
  have hstart : (if marksHex base (numberString upper base.toNat num.toNat) then 2 else 0) = 0 := by
    rw [hmark, if_neg Bool.false_ne_true]
  have hdrop : (numberString upper base.toNat num.toNat).drop 0 =
      List.replicate 0 (chr '0') ++ (numberString upper base.toNat num.toNat ++ []) := by
    rw [List.append_nil]
    rfl
  obtain ⟨hvalue, hstop⟩ := numberFrom_numberString false 0 hbase hbase' hbaseOf hstart hdrop
    (by simp)
  have hlt := num.isLt
  rw [strtouq, strtou_eq base (by decide) hs hfuel, hplain, NumberText.result_of_lt (by omega), hvalue,
    hstop, Nat.zero_add, Nat.zero_add]
  simp [numberFrom]

/-- A number that takes all of the buffer: 64 digits in base 2. -/
theorem ksprintn_fits_and_reads_back_binary :
    (2 : BitVec 32).toNat = 2 ∧ ∃ (m' : ByteMem 32) (text : List (BitVec 8)),
      text.length < maxnbuf ∧ ksprintn 64 (fun _ => 0) 0x1000 (BitVec.allOnes 64) 2 false =
        some (m', 0x1000 + BitVec.ofNat 32 text.length, BitVec.ofNat 32 text.length) := by
  obtain ⟨m', text, hlength, hrun, -⟩ := ksprintn_fits_and_reads_back (fun _ => 0) 0x1000
    (BitVec.allOnes 64) 2 false (by decide) (by decide)
  exact ⟨by decide, m', text, hlength, hrun 64 (by decide)⟩

end ChrisOS.Utils
