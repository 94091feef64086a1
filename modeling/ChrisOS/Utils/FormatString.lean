import ChrisOS.Utils.FormatNumber

/-!
# Strings, bit names and dumps in a format

The conversions of `kvprintf` that read memory: `%s` with a width and a precision, `%b`, which names
the bits of a number after a table, and `%D`, which dumps bytes.

The table of `%b` is a string: the base that the number is printed in, and for every bit one more
than its number and then its name. A name ends at the first character that is a control character
or a blank, which the number of the next bit always is.
-/

namespace ChrisOS.Utils

open ChrisOS.Lib ChrisOS.Sys

/-- A string in its field. -/
def stringField (v : Conversion) (s : List (BitVec 8)) : List (BitVec 8) :=
  let padding := List.replicate (v.width - s.length).toNat v.padc
  if v.ladjust then s ++ padding else padding ++ s

/-- The characters that `%s` prints of its argument: those up to the terminator, or with a precision
at most as many, whether a terminator follows or not. -/
def StringArg (m : ByteMem 32) (v : Conversion) (p : Word) (s : List (BitVec 8)) : Prop :=
  if p = 0 then s = if v.dot then nullText.take v.dwidth.toNat else nullText
  else if v.dot then s = (bytesAt m p v.dwidth.toNat).takeWhile (· ≠ 0)
  else StringAt m p s

/-- A bit and its name in the table of `%b`. -/
structure BitEntry where
  bit : Fin 32
  name : List (BitVec 8)
  printable : ∀ c ∈ name, 32 < c.toInt

/-- The characters of an entry. -/
def BitEntry.text (e : BitEntry) : List (BitVec 8) := BitVec.ofNat 8 (e.bit + 1) :: e.name

/-- What is printed for the names of the bits that are set. -/
def bitsText (names : List (List (BitVec 8))) : List (BitVec 8) :=
  if names = [] then [] else chr '<' :: ([chr ','].intercalate names ++ [chr '>'])

/-- The names of the bits that are set, in the order of the table. -/
def namesOf (num : Word) (es : List BitEntry) : List (List (BitVec 8)) :=
  (es.filter fun e => num.getLsbD e.bit).map BitEntry.name

/-- A byte as two digits. -/
def hexByte (b : BitVec 8) : List (BitVec 8) :=
  [hexDigit false (b >>> 4).toNat, hexDigit false (b &&& 0x0f).toNat]

section Loops

variable {m : ByteMem 32} {p : Word} {k : Kvprintf} {fuel : ℕ} {v : Conversion}
  {s : List (BitVec 8)} {num : Word} {es : List BitEntry}

/-- The loop that measures a string with a precision. -/
theorem precisionScan_eq (m : ByteMem 32) (p : Word) (left n : ℕ) :
    precisionScan m p left n =
      n + ((bytesAt m (p + BitVec.ofNat 32 n) left).takeWhile (· ≠ 0)).length := by
  induction left generalizing n with
  | zero => rfl
  | succ left ih =>
    rw [precisionScan, bytesAt_succ_left, List.takeWhile_cons]
    by_cases hc : m (p + BitVec.ofNat 32 n) ≠ 0
    · rw [if_pos hc, if_pos (decide_eq_true hc), ih, List.length_cons]
      rw [show p + BitVec.ofNat 32 (n + 1) = p + BitVec.ofNat 32 n + 1 from
        (add_ofNat_add_ofNat p n 1).symm]
      omega
    · rw [if_neg hc, if_neg (by simpa using hc)]
      rfl

theorem stringChars_eq (h : StringArg k.m v p s) (hfuel : s.length < fuel) :
    k.stringChars fuel v p = some s := by
  unfold StringArg at h
  unfold Kvprintf.stringChars
  split_ifs at h ⊢ with hp hdot
  · rw [h]
  · rw [h]
  · have hscan := precisionScan_eq k.m p v.dwidth.toNat 0
    rw [Nat.zero_add, show p + BitVec.ofNat 32 0 = p from BitVec.add_zero p, ← h] at hscan
    have hfront : s <+: bytesAt k.m p v.dwidth.toNat := by
      rw [h]
      exact List.takeWhile_prefix _
    have hle := hfront.length_le
    rw [length_bytesAt] at hle
    rw [hscan, ← Nat.min_eq_left hle, ← take_bytesAt, ← List.prefix_iff_eq_take.mp hfront]
  · rw [StringMem.strlen_eq h hfuel, Option.map_some, h.bytes]

/-- A count that an `int` holds. -/
theorem toInt_ofNat_of_lt {n : ℕ} (h : n < 2 ^ 31) : (BitVec.ofNat 32 n).toInt = n := by
  rw [BitVec.toInt_eq_toNat_cond, BitVec.toNat_ofNat, Nat.mod_eq_of_lt (by omega), if_pos (by omega)]

/-- What is left of the width for the padding, while neither wraps. -/
theorem toInt_width_sub (hv : v.Scanned) {n : ℕ} (hn : n < 2 ^ 31) :
    (BitVec.ofInt 32 v.width - BitVec.ofNat 32 n).toInt = v.width - n := by
  obtain ⟨hpos, hlt⟩ := hv.width
  have hwidth : (BitVec.ofInt 32 v.width).toInt = v.width := by
    rw [BitVec.toInt_ofInt]
    exact Int.bmod_eq_of_le (by omega) (by omega)
  rw [BitVec.toInt_sub, hwidth, toInt_ofNat_of_lt hn]
  exact Int.bmod_eq_of_le (by omega) (by omega)

/-- The conversion `%s`. -/
theorem string_eq {ap : List Word} (hap : k.ap = p :: ap) (h : StringArg k.m v p s)
    (hv : v.Scanned) (hlt : s.length < 2 ^ 31) (hfuel : s.length < fuel) :
    k.string fuel v = some (({ k with ap := ap }).pchars (stringField v s)) := by
  have hchars : ({ k with ap := ap } : Kvprintf).stringChars fuel v p = some s :=
    stringChars_eq h hfuel
  have harg : k.vaArg = some (p, { k with ap := ap }) := by rw [Kvprintf.vaArg, hap]
  rw [Kvprintf.string, harg, Option.bind_some, hchars, Option.map_some, stringField]
  dsimp only
  rw [toInt_width_sub hv hlt]
  generalize v.width - s.length = fill
  by_cases hfill : 0 < fill
  · cases v.ladjust <;> simp [hfill, Kvprintf.pchars_append]
  · have hnone : fill.toNat = 0 := Int.toNat_of_nonpos (Int.not_lt.mp hfill)
    simp [hfill, hnone]

/-- The name of a bit ends at the first character that is none of a name. -/
theorem bitName_eq {name : List (BitVec 8)} (hname : ∀ c ∈ name, 32 < c.toInt)
    (hm : HoldsAt m p name) (hend : (m (p + BitVec.ofNat 32 name.length)).toInt ≤ 32)
    (hfuel : name.length < fuel) :
    bitName m fuel p = some (name, p + BitVec.ofNat 32 name.length) := by
  induction name generalizing p fuel with
  | nil =>
    obtain _ | fuel := fuel
    · exact absurd hfuel (Nat.not_lt_zero _)
    · have hzero : p + BitVec.ofNat 32 0 = p := BitVec.add_zero p
      rw [List.length_nil, hzero] at hend ⊢
      rw [bitName, if_neg (Int.not_lt.mpr hend)]
  | cons c name ih =>
    obtain _ | fuel := fuel
    · exact absurd hfuel (Nat.not_lt_zero _)
    · obtain ⟨hc, hname⟩ := List.forall_mem_cons.mp hname
      obtain ⟨hfirst, hrest⟩ := holdsAt_cons.mp hm
      rw [List.length_cons] at hend hfuel ⊢
      rw [bitName, hfirst, if_pos hc,
        ih hname hrest (by rw [add_one_add_ofNat]; exact hend) (by omega), Option.map_some,
        add_one_add_ofNat]

/-- What the loop prints from an entry on, if it has printed a name or not. -/
def namesFrom : Bool → List (List (BitVec 8)) → List (BitVec 8)
  | tmp, [] => if tmp then [chr '>'] else []
  | tmp, name :: names => (if tmp then chr ',' else chr '<') :: (name ++ namesFrom true names)

theorem namesFrom_true (names : List (List (BitVec 8))) :
    namesFrom true names = (names.flatMap fun name => chr ',' :: name) ++ [chr '>'] := by
  induction names with
  | nil => rfl
  | cons name names ih =>
    rw [namesFrom, ih, List.flatMap_cons, if_pos rfl, List.cons_append, List.cons_append,
      List.append_assoc]

theorem intercalate_cons (c : BitVec 8) (name : List (BitVec 8)) (names : List (List (BitVec 8))) :
    [c].intercalate (name :: names) = name ++ names.flatMap fun name => c :: name := by
  induction names generalizing name with
  | nil => simp [List.intercalate]
  | cons next names ih =>
    have hnext := ih next
    rw [List.intercalate] at hnext
    rw [List.flatMap_cons, List.cons_append, ← hnext]
    simp [List.intercalate]

theorem namesFrom_false (names : List (List (BitVec 8))) : namesFrom false names = bitsText names := by
  cases names with
  | nil => rfl
  | cons name names =>
    rw [namesFrom, namesFrom_true, bitsText, if_neg (List.cons_ne_nil _ _), if_neg Bool.false_ne_true,
      intercalate_cons, List.append_assoc]

theorem BitEntry.toInt_number (e : BitEntry) :
    (BitVec.ofNat 8 (e.bit + 1)).toInt = e.bit + 1 := by
  have hlt := e.bit.isLt
  rw [BitVec.toInt_eq_toNat_cond, BitVec.toNat_ofNat, Nat.mod_eq_of_lt (by omega),
    if_pos (by omega)]
  rfl

/-- What follows a name in the table is no character of a name. -/
theorem toInt_entries_le (hs : StringAt m p (es.flatMap BitEntry.text)) : (m p).toInt ≤ 32 := by
  cases es with
  | nil =>
    rw [StringAt.nil_iff.mp hs]
    decide
  | cons e es =>
    obtain ⟨hfirst, -⟩ := StringAt.cons_iff.mp
      (show StringAt m p (BitVec.ofNat 8 (e.bit + 1) :: (e.name ++ es.flatMap BitEntry.text))
        from hs)
    have hlt := e.bit.isLt
    rw [hfirst, e.toInt_number]
    omega

/-- The loop over the table of `%b`. -/
theorem bitNames_eq {tmp : Bool} (hs : StringAt k.m p (es.flatMap BitEntry.text))
    (hfuel : (es.flatMap BitEntry.text).length < fuel) :
    bitNames num fuel p tmp k = some (k.pchars (namesFrom tmp (namesOf num es))) := by
  induction es generalizing p fuel tmp k with
  | nil =>
    obtain _ | fuel := fuel
    · exact absurd hfuel (Nat.not_lt_zero _)
    · rw [bitNames, if_pos (StringAt.nil_iff.mp hs)]
      cases tmp <;> rfl
  | cons e es ih =>
    obtain _ | fuel := fuel
    · exact absurd hfuel (Nat.not_lt_zero _)
    · obtain ⟨hfirst, hne, hs⟩ := StringAt.cons_iff.mp
        (show StringAt k.m p (BitVec.ofNat 8 (e.bit + 1) :: (e.name ++ es.flatMap BitEntry.text))
          from hs)
      have hrest := hs.of_append
      have hname := hs.holdsAt
      rw [List.append_assoc, holdsAt_append] at hname
      rw [List.flatMap_cons, List.length_append, BitEntry.text, List.length_cons] at hfuel
      have hlt := e.bit.isLt
      have hbit : ((e.bit : ℕ) + 1 - 1 : ℤ) = (e.bit : ℕ) := by omega
      rw [bitNames, hfirst, if_neg hne, e.toInt_number, hbit, if_neg (by omega),
        bitName_eq e.printable hname.1 (toInt_entries_le hrest) (by omega), Option.bind_some,
        Int.toNat_natCast]
      by_cases hset : num.getLsbD e.bit
      · have hnames : namesOf num (e :: es) = e.name :: namesOf num es := by
          simp [namesOf, hset]
        have hsame := (Kvprintf.extends_pchars (k.pchar (if tmp then chr ',' else chr '<'))
          e.name).m_eq
        rw [if_pos hset, hnames, ih (by rw [hsame]; exact hrest) (by omega),
          ← Kvprintf.pchars_append]
        rfl
      · have hnames : namesOf num (e :: es) = namesOf num es := by
          simp only [namesOf, List.filter_cons, if_neg hset]
        rw [if_neg hset, hnames, ih hrest (by omega)]

/-- The conversion `%b`. -/
theorem decodeBits_eq {base : BitVec 8} {ap : List Word} (hap : k.ap = num :: p :: ap)
    (hs : StringAt k.m p (base :: es.flatMap BitEntry.text)) (hbase : 2 ≤ base.toNat)
    (hbase' : base.toNat ≤ 36) (hfuel : 65 ≤ fuel)
    (hfuel' : (es.flatMap BitEntry.text).length < fuel) :
    ∃ k', k.decodeBits fuel = some k' ∧ k'.out = k.out ++ (numberString false base.toNat num.toNat ++
      bitsText (namesOf num es)) := by
  obtain ⟨hfirst, -, hentries⟩ := StringAt.cons_iff.mp hs
  have hint : (base.signExtend 32).toNat = base.toNat := by
    have hpositive : base.msb = false := by
      rw [BitVec.msb_eq_false_iff_two_mul_lt]
      omega
    rw [BitVec.signExtend_eq_setWidth_of_msb_false hpositive, BitVec.toNat_setWidth,
      Nat.mod_eq_of_lt (by omega)]
  have hnum : (num.setWidth 64).toNat = num.toNat := by
    rw [BitVec.toNat_setWidth, Nat.mod_eq_of_lt (by omega)]
  obtain ⟨nbuf, hprint, hback, -⟩ := ksprintn_eq k.nbuf 0 (num.setWidth 64) false
    (by rwa [hint] : 1 < (base.signExtend 32).toNat) (by rwa [hint])
  rw [hint, hnum] at hprint hback
  have hargs : k.decodeBits fuel = if num = 0 then
        some (({ k with ap := ap, nbuf := nbuf }).pchars (numberString false base.toNat num.toNat))
      else bitNames num fuel (p + 1) false
        (({ k with ap := ap, nbuf := nbuf }).pchars (numberString false base.toNat num.toNat)) := by
    rw [Kvprintf.decodeBits, Kvprintf.vaArg, hap]
    dsimp only [Option.bind_some, Kvprintf.vaArg]
    rw [hfirst, hprint fuel (by omega)]
    dsimp only [Option.bind_some]
    rw [hback fuel hfuel]
    rfl
  have hsame := (Kvprintf.extends_pchars { k with ap := ap, nbuf := nbuf }
    (numberString false base.toNat num.toNat)).m_eq
  by_cases hzero : num = 0
  · have hnames : namesOf num es = [] := by
      rw [namesOf, hzero]
      simp
    refine ⟨_, hargs.trans (if_pos hzero), ?_⟩
    rw [hnames, Kvprintf.pchars_eq, bitsText, if_pos rfl, List.append_nil]
  · refine ⟨_, hargs.trans ((if_neg hzero).trans
      (bitNames_eq (by rw [hsame]; exact hentries) hfuel')), ?_⟩
    rw [← Kvprintf.pchars_append, Kvprintf.pchars_eq, namesFrom_false]

/-- The loop of `%D`. -/
theorem hexdumpLoop_eq {sep : List (BitVec 8)} (hs : StringAt k.m p sep) (hfuel : sep.length < fuel)
    (n : ℕ) (up : Word) :
    hexdumpLoop fuel p n up k =
      some (k.pchars (sep.intercalate ((bytesAt k.m up n).map hexByte))) := by
  induction n generalizing up k with
  | zero => rfl
  | succ n ih =>
    have hbyte : (k.pchar (hexDigit false (k.m up >>> 4).toNat)).pchar
        (hexDigit false (k.m up &&& 0x0f).toNat) = k.pchars (hexByte (k.m up)) := rfl
    have hsame (s : List (BitVec 8)) := (Kvprintf.extends_pchars k s).m_eq
    rw [hexdumpLoop, hbyte, hsame, StringMem.strlen_eq hs hfuel, bytesAt_succ_left, List.map_cons]
    obtain _ | n := n
    · rw [if_neg (by simp), ih (by rw [hsame]; exact hs), bytesAt_zero, List.map_nil]
      simp [List.intercalate, Kvprintf.pchars]
    · rw [if_pos (Nat.succ_ne_zero n), Option.bind_some, hs.bytes, ← Kvprintf.pchars_append,
        ih (by rw [hsame]; exact hs), hsame, ← Kvprintf.pchars_append, bytesAt_succ_left,
        List.map_cons]
      simp [List.intercalate]

end Loops

section Format

variable {m : ByteMem 32} {fmt p : Word} {flags : List FormatFlag} {radix : BitVec 32}
  {v : Conversion} {ap ap' : List Word} {nbuf : ByteMem 32} {fuel : ℕ} {s : List (BitVec 8)}

/-- The conversion `%s` prints a string of less than `2 ^ 31` characters in its field. With a precision it
prints no more than that many characters, and they need no terminator; a null pointer is printed as
"(null)". -/
theorem kvprintf_string_field (hflags : FlagsFit false flags (chr 's'))
    (hs : StringAt m fmt (Directive.conversion flags (chr 's')).text) (hfmt : fmt ≠ 0)
    (happly : applyFlags flags ({}, ap) = some (v, p :: ap')) (harg : StringArg m v p s)
    (hlt : s.length < 2 ^ 31)
    (hfuel : (Directive.conversion flags (chr 's')).text.length < fuel)
    (hfuel' : s.length < fuel) :
    ∃ k, kvprintf fuel m fmt radix ap nbuf = some k ∧ k.out = stringField v s ∧
      (k.out.length : ℤ) = max v.width s.length ∧ k.retval.toInt = k.out.length := by
  have hlength : ((stringField v s).length : ℤ) = max v.width s.length := by
    unfold stringField
    dsimp only
    split_ifs <;> simp only [List.length_append, List.length_replicate] <;> omega
  have hv : v.Scanned := scanned_applyFlags scanned_default happly
  have hstring := string_eq (k := ⟨m, p :: ap', [], 0, nbuf, false⟩) rfl harg hv hlt hfuel'
  have hcount : (BitVec.ofNat 32 (stringField v s).length).toInt = (stringField v s).length := by
    have hwidth := hv.width.2
    exact toInt_ofNat_of_lt (by omega)
  have hrun : kvprintf fuel m fmt radix ap nbuf = _ :=
    kvprintf_conversion hflags (by decide) (by decide) hs hfmt happly hfuel
  simp +decide only [Kvprintf.convert, if_true, if_false] at hrun
  rw [hstring, Kvprintf.pchars_eq] at hrun
  refine ⟨_, hrun, rfl, hlength, ?_⟩
  exact (congrArg BitVec.toInt (BitVec.zero_add _)).trans hcount

/-- Three characters of "kernel" as "%-6.3s". -/
theorem kvprintf_string_field_precision :
    let m := textMem (0x1000 : Word) ("%-6.3s".toList.map chr ++ 0 :: "kernel".toList.map chr)
    ∃ k, kvprintf 9 m 0x1000 10 [0x1007] (fun _ => 0) = some k ∧
      k.out = stringField { width := 6, dwidth := 3, ladjust := true, dot := true }
        ("ker".toList.map chr) ∧ (k.out.length : ℤ) = max 6 3 ∧ k.retval.toInt = k.out.length := by
  intro m
  have hs : StringAt m 0x1000 (Directive.conversion [.minus, .digits ("6".toList.map chr), .dot,
      .digits ("3".toList.map chr)] (chr 's')).text := ⟨by decide, by decide, by decide⟩
  have hflags : FlagsFit false [.minus, .digits ("6".toList.map chr), .dot,
      .digits ("3".toList.map chr)] (chr 's') :=
    ⟨trivial, ⟨⟨_, _, rfl, by decide⟩, by decide, by decide⟩, trivial,
      ⟨⟨_, _, rfl, by decide⟩, by decide, by decide⟩, show isFlagChar (chr 's') = false by decide⟩
  have harg : StringArg m { width := 6, dwidth := 3, ladjust := true, dot := true } 0x1007
      ("ker".toList.map chr) := by
    show "ker".toList.map chr = _
    decide
  exact kvprintf_string_field hflags hs (by decide) rfl harg (by decide) (by decide) (by decide)

/-- The conversion `%b` prints the number in the base of the table, and the names of exactly those
bits of the table that are set, in the order of the table. -/
theorem kvprintf_names_bits {num : Word} {base : BitVec 8} {es : List BitEntry}
    (hflags : FlagsFit false flags (chr 'b'))
    (hs : StringAt m fmt (Directive.conversion flags (chr 'b')).text) (hfmt : fmt ≠ 0)
    (happly : applyFlags flags ({}, ap) = some (v, num :: p :: ap'))
    (htable : StringAt m p (base :: es.flatMap BitEntry.text)) (hbase : 2 ≤ base.toNat)
    (hbase' : base.toNat ≤ 36) (hfuel : 65 ≤ fuel)
    (hfuel' : (Directive.conversion flags (chr 'b')).text.length < fuel)
    (hfuel'' : (es.flatMap BitEntry.text).length < fuel) :
    ∃ k, kvprintf fuel m fmt radix ap nbuf = some k ∧
      k.out = numberString false base.toNat num.toNat ++ bitsText
        ((es.filter fun e => num.getLsbD e.bit).map BitEntry.name) := by
  obtain ⟨k, hbits, hout⟩ := decodeBits_eq (k := ⟨m, num :: p :: ap', [], 0, nbuf, false⟩) rfl htable
    hbase hbase' hfuel hfuel''
  refine ⟨k, ?_, hout⟩
  rw [kvprintf_conversion hflags (by decide) (by decide) hs hfmt happly hfuel']
  simp +decide only [Kvprintf.convert, if_true, if_false]
  exact hbits

/-- Bits 0 and 31 of the number 0x80000001, named as "%b". -/
theorem kvprintf_names_bits_control :
    let m := textMem (0x1000 : Word) ("%b".toList.map chr ++
      0 :: 16 :: 1 :: ("PE".toList.map chr ++ 2 :: ("MP".toList.map chr ++ 32 :: "PG".toList.map chr)))
    ∃ k, kvprintf 70 m 0x1000 10 [0x80000001, 0x1003] (fun _ => 0) = some k ∧
      k.out = numberString false 16 0x80000001 ++ bitsText ["PE".toList.map chr, "PG".toList.map chr] := by
  intro m
  let es : List BitEntry := [⟨0, "PE".toList.map chr, by decide⟩, ⟨1, "MP".toList.map chr, by decide⟩,
    ⟨31, "PG".toList.map chr, by decide⟩]
  have hs : StringAt m 0x1000 (Directive.conversion [] (chr 'b')).text :=
    ⟨by decide, by decide, by decide⟩
  have htable : StringAt m 0x1003 (16 :: es.flatMap BitEntry.text) :=
    ⟨by decide, by decide, by decide⟩
  have hflags : FlagsFit false [] (chr 'b') := show isFlagChar (chr 'b') = false by decide
  exact kvprintf_names_bits hflags hs (by decide) rfl htable (by decide) (by decide) (by decide)
    (by decide) (by decide)

/-- The conversion `%D` prints as many bytes as the width says, or 16, as two digits each, with the
string of its second argument between them and not behind the last. -/
theorem kvprintf_dumps_bytes (radix : BitVec 32) (nbuf : ByteMem 32) {up : Word}
    (hflags : FlagsFit false flags (chr 'D'))
    (hs : StringAt m fmt (Directive.conversion flags (chr 'D')).text) (hfmt : fmt ≠ 0)
    (happly : applyFlags flags ({}, ap) = some (v, up :: p :: ap')) (hsep : StringAt m p s)
    (hfuel : (Directive.conversion flags (chr 'D')).text.length < fuel)
    (hfuel' : s.length < fuel) :
    ∃ k, kvprintf fuel m fmt radix ap nbuf = some k ∧
      k.out = s.intercalate
        ((bytesAt m up (if v.width = 0 then 16 else v.width).toNat).map hexByte) := by
  have hdump := hexdumpLoop_eq (k := ⟨m, ap', [], 0, nbuf, false⟩) hsep hfuel'
    (if v.width = 0 then 16 else v.width).toNat up
  have hrun : kvprintf fuel m fmt radix ap nbuf = _ :=
    kvprintf_conversion hflags (by decide) (by decide) hs hfmt happly hfuel
  simp +decide only [Kvprintf.convert, if_true, if_false] at hrun
  rw [Kvprintf.pchars_eq] at hdump
  exact ⟨_, hrun.trans hdump, rfl⟩

/-- The first three bytes of the format "%3D" itself, with colons. -/
theorem kvprintf_dumps_bytes_format :
    let m := textMem (0x1000 : Word) ("%3D".toList.map chr ++ 0 :: ":".toList.map chr)
    ∃ k, kvprintf 9 m 0x1000 10 [0x1000, 0x1004] (fun _ => 0) = some k ∧
      k.out = "25:33:44".toList.map chr := by
  intro m
  have hs : StringAt m 0x1000
      (Directive.conversion [.digits ("3".toList.map chr)] (chr 'D')).text :=
    ⟨by decide, by decide, by decide⟩
  have hflags : FlagsFit false [.digits ("3".toList.map chr)] (chr 'D') :=
    ⟨⟨⟨_, _, rfl, by decide⟩, by decide, by decide⟩, show isFlagChar (chr 'D') = false by decide⟩
  have happly : applyFlags [.digits ("3".toList.map chr)] ({}, [0x1000, 0x1004]) =
      some ({ width := 3 }, [0x1000, 0x1004]) := by decide
  have hsep : StringAt m 0x1004 (":".toList.map chr) := ⟨by decide, by decide, by decide⟩
  obtain ⟨k, hrun, hout⟩ := kvprintf_dumps_bytes 10 (fun _ => 0) hflags hs (by decide) happly
    hsep (show _ < 9 by decide) (by decide)
  refine ⟨k, hrun, hout.trans ?_⟩
  decide

end Format

end ChrisOS.Utils
