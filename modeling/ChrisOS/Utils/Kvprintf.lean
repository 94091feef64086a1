import ChrisOS.Utils.Ksprintn
import ChrisOS.Utils.StringMem

/-!
# Formatted output

`kvprintf` of `utils/kprintf.c`, called with a function that takes the characters, as `kprintf` calls
it. The format and the strings among the arguments are in memory. The arguments are the words on the
stack that `va_arg` takes one after the other, the lower half of a 64-bit one first. The buffer
`nbuf` of the digits is memory of its own, which keeps what it held between two conversions.

`none` is undefined behaviour: an argument that was not passed, a signed overflow while a width is
read, a bit number that no `int` has, a base that `ksprintn` cannot print in; and a loop that has not
stopped when `fuel` is used up. The counts of characters, `retval` and the length of a string, are
32-bit words, which wrap.
-/

namespace ChrisOS.Utils

open ChrisOS.Lib ChrisOS.Sys

/-- The variables that live from one conversion to the next, and the characters printed so far. -/
structure Kvprintf where
  m : ByteMem 32
  ap : List Word
  out : List (BitVec 8)
  retval : Word
  nbuf : ByteMem 32
  stop : Bool

/-- The variables that are reset before a conversion and set by the flags in front of it. -/
structure Conversion where
  padc : BitVec 8 := chr ' '
  width : ℤ := 0
  dwidth : ℤ := 0
  ladjust : Bool := false
  sharpflag : Bool := false
  sign : Bool := false
  dot : Bool := false
  qflag : Bool := false
  lflag : Bool := false
  cflag : Bool := false
  hflag : Bool := false
  jflag : Bool := false
  tflag : Bool := false
  zflag : Bool := false
deriving DecidableEq, Repr

/-- `PCHAR`. -/
def Kvprintf.pchar (k : Kvprintf) (c : BitVec 8) : Kvprintf :=
  { k with out := k.out ++ [c], retval := k.retval + 1 }

/-- `PCHAR` of one character after the other. -/
def Kvprintf.pchars (k : Kvprintf) (s : List (BitVec 8)) : Kvprintf := s.foldl Kvprintf.pchar k

/-- `va_arg` of a type of one word. -/
def Kvprintf.vaArg (k : Kvprintf) : Option (Word × Kvprintf) :=
  match k.ap with
  | [] => none
  | a :: ap => some (a, { k with ap := ap })

/-- `va_arg` of a 64-bit type. -/
def Kvprintf.vaArgQuad (k : Kvprintf) : Option (BitVec 64 × Kvprintf) :=
  k.vaArg.bind fun low => low.2.vaArg.map fun high => (high.1 ++ low.1, high.2)

/-- The value of an `int` expression, if an `int` can hold it. -/
def intValue (n : ℤ) : Option ℤ := if -2 ^ 31 ≤ n ∧ n < 2 ^ 31 then some n else none

/-- The loop over the digits of a width: `ch` is in front of `fmt`, and `n` stands for the digits
before it. -/
def widthDigits (m : ByteMem 32) : ℕ → BitVec 8 → Word → ℤ → Option (ℤ × Word)
  | 0, _, _, _ => none
  | fuel + 1, ch, fmt, n =>
    (intValue (n * 10)).bind fun t =>
      (intValue (t + ch.toNat)).bind fun t =>
        if isdigit (m fmt) then widthDigits m fuel (m fmt) (fmt + 1) (t - 48)
        else some (t - 48, fmt)

/-- The flags in front of a conversion, from the label `reswitch` on: the character that is none of
them, and the address behind it. -/
def reswitch (m : ByteMem 32) :
    ℕ → Word → Conversion → List Word → Option (BitVec 8 × Word × Conversion × List Word)
  | 0, _, _, _ => none
  | fuel + 1, fmt, v, ap =>
    let ch := m fmt
    let fmt := fmt + 1
    if ch = chr '.' then reswitch m fuel fmt { v with dot := true } ap
    else if ch = chr '#' then reswitch m fuel fmt { v with sharpflag := true } ap
    else if ch = chr '+' then reswitch m fuel fmt { v with sign := true } ap
    else if ch = chr '-' then reswitch m fuel fmt { v with ladjust := true } ap
    else if ch = chr '*' then
      match ap with
      | [] => none
      | n :: ap =>
        if v.dot then reswitch m fuel fmt { v with dwidth := n.toInt } ap
        else if n.toInt < 0 then
          (intValue (-n.toInt)).bind fun width =>
            reswitch m fuel fmt { v with ladjust := !v.ladjust, width := width } ap
        else reswitch m fuel fmt { v with width := n.toInt } ap
    else if ch = chr '0' ∧ ¬ v.dot then reswitch m fuel fmt { v with padc := chr '0' } ap
    else if isdigit ch then
      (widthDigits m fuel ch fmt 0).bind fun r =>
        reswitch m fuel r.2 (if v.dot then { v with dwidth := r.1 } else { v with width := r.1 }) ap
    else if ch = chr 'h' then
      reswitch m fuel fmt
        (if v.hflag then { v with hflag := false, cflag := true } else { v with hflag := true }) ap
    else if ch = chr 'j' then reswitch m fuel fmt { v with jflag := true } ap
    else if ch = chr 'l' then
      reswitch m fuel fmt
        (if v.lflag then { v with lflag := false, qflag := true } else { v with lflag := true }) ap
    else if ch = chr 'q' then reswitch m fuel fmt { v with qflag := true } ap
    else if ch = chr 't' then reswitch m fuel fmt { v with tflag := true } ap
    else if ch = chr 'z' then reswitch m fuel fmt { v with zflag := true } ap
    else some (ch, fmt, v, ap)

/-- `human_units`. -/
def humanUnits : List (List (BitVec 8)) :=
  [[chr 'B'], [chr 'K', chr 'B'], [chr 'M', chr 'B'], [chr 'G', chr 'B'], [chr 'T', chr 'B'],
    [chr 'P', chr 'B']]

/-- `max_human_unit`. -/
def maxHumanUnit : ℕ := humanUnits.length - 1

/-- The loop that scales a number for its unit, with `left` units to go. -/
def humanScale : ℕ → BitVec 64 → ℕ → BitVec 64 × ℕ
  | 0, num, bunits => (num, bunits)
  | left + 1, num, bunits =>
    if 1024 < num then humanScale left (num / 1024) (bunits + 1) else (num, bunits)

/-- A test for padding: `width` is charged with `tmp`, and what is left of it is padded. -/
def Kvprintf.padTo (k : Kvprintf) (test : Bool) (padc : BitVec 8) (width tmp : ℤ) :
    ℤ × Kvprintf :=
  if test ∧ width ≠ 0 then
    if 0 < width - tmp then (-1, k.pchars (List.replicate (width - tmp).toNat padc))
    else (width - tmp, k)
  else (width, k)

/-- The characters of a number, with its padding: `tmp` is how many they are without it. -/
def Kvprintf.printNumber (v : Conversion) (neg : Bool) (sharp digits bunitsstr : List (BitVec 8))
    (tmp : ℤ) (k : Kvprintf) : Kvprintf :=
  let first := k.padTo (¬ v.ladjust ∧ v.padc ≠ chr '0') v.padc v.width tmp
  let signed := first.2.pchars (if neg then [chr '-'] else [])
  let second := (signed.pchars sharp).padTo (¬ v.ladjust) v.padc first.1 tmp
  let printed := (second.2.pchars digits).pchars bunitsstr
  (printed.padTo v.ladjust v.padc second.1 tmp).2

/-- What `#` puts in front of a number. -/
def sharpText (v : Conversion) (base : BitVec 32) (num : BitVec 64) : List (BitVec 8) :=
  if v.sharpflag ∧ num ≠ 0 then
    if base = 8 then [chr '0'] else if base = 16 then [chr '0', chr 'x'] else []
  else []

/-- The label `number`. -/
def Kvprintf.number (fuel : ℕ) (v : Conversion) (base : BitVec 32) (upper bflag : Bool)
    (num : BitVec 64) (k : Kvprintf) : Option Kvprintf :=
  let neg : Bool := v.sign ∧ num.toInt < 0
  let num := if neg then -num else num
  let scaled := if bflag then humanScale maxHumanUnit num 0 else (num, 0)
  let num := scaled.1
  let bunitsstr := if bflag then humanUnits.getD scaled.2 [] else []
  let sharp := sharpText v base num
  (ksprintn fuel k.nbuf 0 num base upper).bind fun r =>
    (backString r.1 fuel r.2.1).map fun digits =>
      let tmp := r.2.2.toInt + sharp.length + (if neg then 1 else 0) + bunitsstr.length
      ({ k with nbuf := r.1 }).printNumber v neg sharp digits bunitsstr tmp

/-- The label `handle_nosign`. -/
def Kvprintf.handleNosign (fuel : ℕ) (v : Conversion) (base : BitVec 32) (upper bflag : Bool)
    (k : Kvprintf) : Option Kvprintf :=
  let v := { v with sign := false }
  if v.jflag ∨ v.qflag then k.vaArgQuad.bind fun a => a.2.number fuel v base upper bflag a.1
  else
    k.vaArg.bind fun a =>
      a.2.number fuel v base upper bflag
        (if v.tflag then a.1.signExtend 64
        else if v.lflag then a.1.setWidth 64
        else if v.zflag then a.1.setWidth 64
        else if v.hflag then (a.1.setWidth 16).setWidth 64
        else if v.cflag then (a.1.setWidth 8).setWidth 64
        else a.1.setWidth 64)

/-- The label `handle_sign`. -/
def Kvprintf.handleSign (fuel : ℕ) (v : Conversion) (base : BitVec 32) (k : Kvprintf) :
    Option Kvprintf :=
  if v.jflag ∨ v.qflag then k.vaArgQuad.bind fun a => a.2.number fuel v base false false a.1
  else
    k.vaArg.bind fun a =>
      a.2.number fuel v base false false
        (if v.tflag then a.1.signExtend 64
        else if v.lflag then a.1.signExtend 64
        else if v.zflag then a.1.signExtend 64
        else if v.hflag then (a.1.setWidth 16).signExtend 64
        else if v.cflag then (a.1.setWidth 8).signExtend 64
        else a.1.signExtend 64)

/-- The name of a bit in the argument of `%b`: its characters, and the address behind them. -/
def bitName (m : ByteMem 32) : ℕ → Word → Option (List (BitVec 8) × Word)
  | 0, _ => none
  | fuel + 1, p =>
    if 32 < (m p).toInt then (bitName m fuel (p + 1)).map fun r => (m p :: r.1, r.2)
    else some ([], p)

/-- The loop of `%b` over the bits: `tmp` tells that one was printed. -/
def bitNames (num : Word) : ℕ → Word → Bool → Kvprintf → Option Kvprintf
  | 0, _, _, _ => none
  | fuel + 1, p, tmp, k =>
    if k.m p = 0 then some (if tmp then k.pchar (chr '>') else k)
    else
      -- the number of the bit is a character, and it has to be one that an `int` has
      if (k.m p).toInt - 1 < 0 ∨ 32 ≤ (k.m p).toInt - 1 then none
      else
        (bitName k.m fuel (p + 1)).bind fun r =>
          if num.getLsbD ((k.m p).toInt - 1).toNat then
            bitNames num fuel r.2 true
              ((k.pchar (if tmp then chr ',' else chr '<')).pchars r.1)
          else bitNames num fuel r.2 tmp k

/-- The conversion `%b`. -/
def Kvprintf.decodeBits (fuel : ℕ) (k : Kvprintf) : Option Kvprintf :=
  k.vaArg.bind fun a => a.2.vaArg.bind fun b =>
    let num := a.1
    let p := b.1
    let k := b.2
    (ksprintn fuel k.nbuf 0 (num.setWidth 64) ((k.m p).signExtend 32) false).bind fun r =>
      (backString r.1 fuel r.2.1).bind fun digits =>
        let k := ({ k with nbuf := r.1 }).pchars digits
        if num = 0 then some k else bitNames num fuel (p + 1) false k

/-- The loop of `%D`, with `width` bytes to go. -/
def hexdumpLoop (fuel : ℕ) (p : Word) : ℕ → Word → Kvprintf → Option Kvprintf
  | 0, _, k => some k
  | width + 1, up, k =>
    let k := (k.pchar (hexDigit false (k.m up >>> 4).toNat)).pchar
      (hexDigit false (k.m up &&& 0x0f).toNat)
    if width ≠ 0 then
      (StringMem.strlen fuel k.m p).bind fun n =>
        hexdumpLoop fuel p width (up + 1) (k.pchars (bytesAt k.m p n))
    else hexdumpLoop fuel p width (up + 1) k

/-- The conversion `%D`. -/
def Kvprintf.hexdump (fuel : ℕ) (v : Conversion) (k : Kvprintf) : Option Kvprintf :=
  k.vaArg.bind fun a => a.2.vaArg.bind fun b =>
    hexdumpLoop fuel b.1 (if v.width = 0 then 16 else v.width).toNat a.1 b.2

/-- The loop that measures a string with a precision, with `left` characters to go from `n` on. -/
def precisionScan (m : ByteMem 32) (p : Word) : ℕ → ℕ → ℕ
  | 0, n => n
  | left + 1, n => if m (p + BitVec.ofNat 32 n) ≠ 0 then precisionScan m p left (n + 1) else n

/-- What is printed for a null pointer. -/
def nullText : List (BitVec 8) := "(null)".toList.map chr

/-- The characters that `%s` prints. -/
def Kvprintf.stringChars (fuel : ℕ) (v : Conversion) (p : Word) (k : Kvprintf) :
    Option (List (BitVec 8)) :=
  if p = 0 then some (if v.dot then nullText.take v.dwidth.toNat else nullText)
  else if v.dot then some (bytesAt k.m p (precisionScan k.m p v.dwidth.toNat 0))
  else (StringMem.strlen fuel k.m p).map fun n => bytesAt k.m p n

/-- The conversion `%s`, with `n` characters to print. -/
def Kvprintf.string (fuel : ℕ) (v : Conversion) (k : Kvprintf) : Option Kvprintf :=
  k.vaArg.bind fun a =>
    (a.2.stringChars fuel v a.1).map fun s =>
      let k := a.2
      let n : Word := BitVec.ofNat 32 s.length
      let width := (BitVec.ofInt 32 v.width - n).toInt
      let k := if ¬ v.ladjust ∧ 0 < width then k.pchars (List.replicate width.toNat v.padc) else k
      let k := k.pchars s
      if v.ladjust ∧ 0 < width then k.pchars (List.replicate width.toNat v.padc) else k

/-- The conversion `%n`. -/
def Kvprintf.storeCount (v : Conversion) (k : Kvprintf) : Option Kvprintf :=
  k.vaArg.map fun a =>
    let size := if v.jflag ∨ v.qflag then 8 else if v.lflag ∨ v.zflag then 4
      else if v.hflag then 2 else if v.cflag then 1 else 4
    { a.2 with m := storeLE a.2.m a.1 size (a.2.retval.signExtend 64).toNat }

/-- The conversions, by the character `ch` that is no flag. A character that is no conversion has
everything from the percent sign on printed as it is, and so is the rest of the format. -/
def Kvprintf.convert (fuel : ℕ) (radix : BitVec 32) (verbatim : List (BitVec 8)) (ch : BitVec 8)
    (v : Conversion) (k : Kvprintf) : Option Kvprintf :=
  if ch = chr '%' then some (k.pchar ch)
  else if ch = chr 'B' then k.handleNosign fuel v 10 false true
  else if ch = chr 'b' then k.decodeBits fuel
  else if ch = chr 'c' then k.vaArg.map fun a => a.2.pchar (a.1.setWidth 8)
  else if ch = chr 'D' then k.hexdump fuel v
  else if ch = chr 'd' ∨ ch = chr 'i' then k.handleSign fuel { v with sign := true } 10
  else if ch = chr 'n' then k.storeCount v
  else if ch = chr 'o' then k.handleNosign fuel v 8 false false
  else if ch = chr 'p' then
    k.vaArg.bind fun a =>
      a.2.number fuel { v with sharpflag := v.width = 0, sign := false } 16 false false
        (a.1.setWidth 64)
  else if ch = chr 'r' then
    if v.sign then k.handleSign fuel v radix else k.handleNosign fuel v radix false false
  else if ch = chr 's' then k.string fuel v
  else if ch = chr 'u' then k.handleNosign fuel v 10 false false
  else if ch = chr 'X' then k.handleNosign fuel v 16 true false
  else if ch = chr 'x' then k.handleNosign fuel v 16 false false
  else if ch = chr 'y' then k.handleSign fuel { v with sign := true } 16
  else some { k.pchars verbatim with stop := true }

/-- The loop of `kvprintf`; every loop inside it is bounded by `fuel`. -/
def kvprintfLoop (fuel : ℕ) (radix : BitVec 32) : ℕ → Word → Kvprintf → Option Kvprintf
  | 0, _, _ => none
  | rounds + 1, fmt, k =>
    let ch := k.m fmt
    if ch ≠ chr '%' ∨ k.stop then
      if ch = 0 then some k else kvprintfLoop fuel radix rounds (fmt + 1) (k.pchar ch)
    else
      (reswitch k.m fuel (fmt + 1) {} k.ap).bind fun r =>
        (Kvprintf.convert fuel radix (bytesAt k.m fmt (r.2.1 - fmt).toNat) r.1 r.2.2.1
          { k with ap := r.2.2.2 }).bind fun k => kvprintfLoop fuel radix rounds r.2.1 k

/-- What is printed for a format that is a null pointer. -/
def fmtNullText : List (BitVec 8) := "(fmt null)\n".toList.map chr

/-- `kvprintf`: the characters and the count are in the state it returns. -/
def kvprintf (fuel : ℕ) (m : ByteMem 32) (fmt : Word) (radix : BitVec 32) (ap : List Word)
    (nbuf : ByteMem 32) : Option Kvprintf :=
  let radix := if radix.toInt < 2 ∨ 36 < radix.toInt then 10 else radix
  let k : Kvprintf := ⟨m, ap, [], 0, nbuf, false⟩
  if fmt = 0 then some (k.pchars fmtNullText) else kvprintfLoop fuel radix fuel fmt k

/-! ## What every conversion leaves as it is -/

/-- `k'` has printed some more than `k`, counted it, and left the memory as it was. -/
structure Kvprintf.Extends (k k' : Kvprintf) : Prop where
  m_eq : k'.m = k.m
  printed : ∃ s, k'.out = k.out ++ s ∧ k'.retval = k.retval + BitVec.ofNat 32 s.length

namespace Kvprintf.Extends

variable {k k' k'' : Kvprintf}

theorem refl (k : Kvprintf) : k.Extends k :=
  ⟨rfl, [], (List.append_nil _).symm, (BitVec.add_zero _).symm⟩

theorem trans (h : k.Extends k') (h' : k'.Extends k'') : k.Extends k'' := by
  obtain ⟨hm, s, hs, hn⟩ := h
  obtain ⟨hm', s', hs', hn'⟩ := h'
  refine ⟨hm'.trans hm, s ++ s', ?_, ?_⟩
  · rw [hs', hs, List.append_assoc]
  · rw [hn', hn, List.length_append, add_ofNat_add_ofNat]

end Kvprintf.Extends

namespace Kvprintf

variable {k k' : Kvprintf} {fuel : ℕ} {v : Conversion} {base radix : BitVec 32}
  {upper bflag : Bool} {num : BitVec 64}

theorem pchars_eq (k : Kvprintf) (s : List (BitVec 8)) :
    k.pchars s = { k with out := k.out ++ s, retval := k.retval + BitVec.ofNat 32 s.length } := by
  induction s generalizing k with
  | nil =>
    rw [List.append_nil, List.length_nil, BitVec.add_zero]
    rfl
  | cons c s ih =>
    have hstep : k.pchars (c :: s) = (k.pchar c).pchars s := rfl
    have hout : k.out ++ [c] ++ s = k.out ++ c :: s := List.append_assoc _ _ _
    have hcount : k.retval + 1 + BitVec.ofNat 32 s.length =
        k.retval + BitVec.ofNat 32 (c :: s).length :=
      add_one_add_ofNat k.retval s.length
    rw [hstep, ih, pchar]
    dsimp only
    rw [hout, hcount]

theorem pchars_append (k : Kvprintf) (s t : List (BitVec 8)) :
    k.pchars (s ++ t) = (k.pchars s).pchars t :=
  List.foldl_append

theorem extends_pchars (k : Kvprintf) (s : List (BitVec 8)) : k.Extends (k.pchars s) := by
  rw [pchars_eq]
  exact ⟨rfl, s, rfl, rfl⟩

theorem extends_pchar (k : Kvprintf) (c : BitVec 8) : k.Extends (k.pchar c) :=
  extends_pchars k [c]

theorem extends_padTo (k : Kvprintf) (test : Bool) (padc : BitVec 8) (width tmp : ℤ) :
    k.Extends (k.padTo test padc width tmp).2 := by
  rw [padTo]
  split
  · split
    · exact extends_pchars _ _
    · exact .refl k
  · exact .refl k

theorem extends_vaArg {a : Word × Kvprintf} (h : k.vaArg = some a) : k.Extends a.2 := by
  rw [vaArg] at h
  split at h
  · cases h
  · cases h
    exact ⟨rfl, [], (List.append_nil _).symm, (BitVec.add_zero _).symm⟩

theorem extends_vaArgQuad {a : BitVec 64 × Kvprintf} (h : k.vaArgQuad = some a) :
    k.Extends a.2 := by
  obtain ⟨low, hlow, h⟩ := Option.bind_eq_some_iff.mp h
  obtain ⟨high, hhigh, rfl⟩ := Option.map_eq_some_iff.mp h
  exact (extends_vaArg hlow).trans (extends_vaArg hhigh)

theorem extends_nbuf (k : Kvprintf) (nbuf : ByteMem 32) : k.Extends { k with nbuf := nbuf } :=
  ⟨rfl, [], (List.append_nil _).symm, (BitVec.add_zero _).symm⟩

theorem extends_printNumber (k : Kvprintf) (neg : Bool) (sharp digits bunitsstr : List (BitVec 8))
    (tmp : ℤ) : k.Extends (k.printNumber v neg sharp digits bunitsstr tmp) :=
  (extends_padTo _ _ _ _ _).trans ((extends_pchars _ _).trans ((extends_pchars _ _).trans
    ((extends_padTo _ _ _ _ _).trans ((extends_pchars _ _).trans ((extends_pchars _ _).trans
      (extends_padTo _ _ _ _ _))))))

theorem extends_number (h : k.number fuel v base upper bflag num = some k') : k.Extends k' := by
  obtain ⟨r, -, h⟩ := Option.bind_eq_some_iff.mp h
  obtain ⟨digits, -, rfl⟩ := Option.map_eq_some_iff.mp h
  exact (extends_nbuf k r.1).trans (extends_printNumber _ _ _ _ _ _)

theorem extends_handleNosign (h : k.handleNosign fuel v base upper bflag = some k') :
    k.Extends k' := by
  rw [handleNosign] at h
  split at h
  · obtain ⟨a, ha, h⟩ := Option.bind_eq_some_iff.mp h
    exact (extends_vaArgQuad ha).trans (extends_number h)
  · obtain ⟨a, ha, h⟩ := Option.bind_eq_some_iff.mp h
    exact (extends_vaArg ha).trans (extends_number h)

theorem extends_handleSign (h : k.handleSign fuel v base = some k') : k.Extends k' := by
  rw [handleSign] at h
  split at h
  · obtain ⟨a, ha, h⟩ := Option.bind_eq_some_iff.mp h
    exact (extends_vaArgQuad ha).trans (extends_number h)
  · obtain ⟨a, ha, h⟩ := Option.bind_eq_some_iff.mp h
    exact (extends_vaArg ha).trans (extends_number h)

theorem extends_bitNames {bits : Word} {p : Word} {tmp : Bool}
    (h : bitNames bits fuel p tmp k = some k') : k.Extends k' := by
  induction fuel generalizing p tmp k with
  | zero => cases h
  | succ fuel ih =>
    rw [bitNames] at h
    split at h
    · cases h
      split
      · exact extends_pchar _ _
      · exact .refl _
    · split at h
      · cases h
      · obtain ⟨r, -, h⟩ := Option.bind_eq_some_iff.mp h
        split at h
        · exact (extends_pchar _ _).trans ((extends_pchars _ _).trans (ih h))
        · exact ih h

theorem extends_decodeBits (h : k.decodeBits fuel = some k') : k.Extends k' := by
  obtain ⟨a, ha, h⟩ := Option.bind_eq_some_iff.mp h
  obtain ⟨b, hb, h⟩ := Option.bind_eq_some_iff.mp h
  obtain ⟨r, -, h⟩ := Option.bind_eq_some_iff.mp h
  obtain ⟨digits, -, h⟩ := Option.bind_eq_some_iff.mp h
  have hdigits := (extends_vaArg ha).trans ((extends_vaArg hb).trans
    ((extends_nbuf b.2 r.1).trans (extends_pchars _ digits)))
  dsimp only at h
  split at h
  · cases h
    exact hdigits
  · exact hdigits.trans (extends_bitNames h)

theorem extends_hexdumpLoop {p up : Word} {width : ℕ}
    (h : hexdumpLoop fuel p width up k = some k') : k.Extends k' := by
  induction width generalizing up k with
  | zero =>
    cases h
    exact .refl _
  | succ width ih =>
    have hdigits := (extends_pchar k (hexDigit false (k.m up >>> 4).toNat)).trans
      (extends_pchar _ (hexDigit false (k.m up &&& 0x0f).toNat))
    rw [hexdumpLoop] at h
    split at h
    · obtain ⟨n, -, h⟩ := Option.bind_eq_some_iff.mp h
      exact hdigits.trans ((extends_pchars _ _).trans (ih h))
    · exact hdigits.trans (ih h)

theorem extends_hexdump (h : k.hexdump fuel v = some k') : k.Extends k' := by
  obtain ⟨a, ha, h⟩ := Option.bind_eq_some_iff.mp h
  obtain ⟨b, hb, h⟩ := Option.bind_eq_some_iff.mp h
  exact (extends_vaArg ha).trans ((extends_vaArg hb).trans (extends_hexdumpLoop h))

theorem extends_string (h : k.string fuel v = some k') : k.Extends k' := by
  obtain ⟨a, ha, h⟩ := Option.bind_eq_some_iff.mp h
  obtain ⟨s, -, rfl⟩ := Option.map_eq_some_iff.mp h
  refine (extends_vaArg ha).trans ?_
  have hpad (k : Kvprintf) (test : Prop) [Decidable test] (t : List (BitVec 8)) :
      k.Extends (if test then k.pchars t else k) := by
    split
    · exact extends_pchars _ _
    · exact .refl k
  exact (hpad _ _ _).trans ((extends_pchars _ _).trans (hpad _ _ _))

private theorem of_ite {α : Type} {P c : Prop} [Decidable c] {x y : Option α} {a : α}
    (h : (if c then x else y) = some a) (hx : x = some a → P) (hy : y = some a → P) : P := by
  split at h
  · exact hx h
  · exact hy h

/-- Every conversion but `%n` leaves the memory as it is and counts what it prints. -/
theorem extends_convert {verbatim : List (BitVec 8)} {ch : BitVec 8} (hn : ch ≠ chr 'n')
    (h : k.convert fuel radix verbatim ch v = some k') : k.Extends k' := by
  unfold convert at h
  refine of_ite h (fun h => Option.some.inj h ▸ extends_pchar k ch) fun h => ?_
  refine of_ite h extends_handleNosign fun h => ?_
  refine of_ite h extends_decodeBits fun h => ?_
  refine of_ite h (fun h => ?_) fun h => ?_
  · obtain ⟨a, ha, rfl⟩ := Option.map_eq_some_iff.mp h
    exact (extends_vaArg ha).trans (extends_pchar _ _)
  refine of_ite h extends_hexdump fun h => ?_
  refine of_ite h extends_handleSign fun h => ?_
  rw [if_neg hn] at h
  refine of_ite h extends_handleNosign fun h => ?_
  refine of_ite h (fun h => ?_) fun h => ?_
  · obtain ⟨a, ha, h⟩ := Option.bind_eq_some_iff.mp h
    exact (extends_vaArg ha).trans (extends_number h)
  refine of_ite h (fun h => of_ite h extends_handleSign extends_handleNosign) fun h => ?_
  refine of_ite h extends_string fun h => ?_
  refine of_ite h extends_handleNosign fun h => ?_
  refine of_ite h extends_handleNosign fun h => ?_
  refine of_ite h extends_handleNosign fun h => ?_
  refine of_ite h extends_handleSign fun h => ?_
  cases h
  exact (extends_pchars k verbatim).trans
    ⟨rfl, [], (List.append_nil _).symm, (BitVec.add_zero _).symm⟩

end Kvprintf

end ChrisOS.Utils
