import ChrisOS.Utils.Kvprintf

/-!
# Formats as directives

What the format of `kvprintf` says, apart from how it is scanned: a directive is a character that is
printed as it is, or a conversion with the flags in front of it. Directives are carried out one after
the other on the state of `kvprintf`; the flags only set variables and take the arguments of `*`.
After a conversion that there is none of, the text of every further directive is printed as it is.

Every format is the text of some directives, or such a text with a percent sign and flags at its end
that no conversion follows.
-/

namespace ChrisOS.Utils

open ChrisOS.Lib ChrisOS.Sys

/-- A flag of a conversion; the digits of a width or a precision are one. -/
inductive FormatFlag
  | dot | sharp | plus | minus | star | zero
  | digits (ds : List (BitVec 8))
  | h | j | l | q | t | z
deriving DecidableEq, Repr

namespace FormatFlag

/-- The characters of a flag. -/
def text : FormatFlag → List (BitVec 8)
  | dot => [chr '.']
  | sharp => [chr '#']
  | plus => [chr '+']
  | minus => [chr '-']
  | star => [chr '*']
  | zero => [chr '0']
  | digits ds => ds
  | h => [chr 'h']
  | j => [chr 'j']
  | l => [chr 'l']
  | q => [chr 'q']
  | t => [chr 't']
  | z => [chr 'z']

/-- What a flag sets; a star takes an argument. A width that no `int` can be computed for has no
meaning. -/
def apply : FormatFlag → Conversion × List Word → Option (Conversion × List Word)
  | dot, (v, ap) => some ({ v with dot := true }, ap)
  | sharp, (v, ap) => some ({ v with sharpflag := true }, ap)
  | plus, (v, ap) => some ({ v with sign := true }, ap)
  | minus, (v, ap) => some ({ v with ladjust := true }, ap)
  | star, (_, []) => none
  | star, (v, n :: ap) =>
    if v.dot then some ({ v with dwidth := n.toInt }, ap)
    else if n.toInt < 0 then
      (intValue (-n.toInt)).map fun width =>
        ({ v with ladjust := !v.ladjust, width := width }, ap)
    else some ({ v with width := n.toInt }, ap)
  | zero, (v, ap) => some ({ v with padc := chr '0' }, ap)
  | digits ds, (v, ap) =>
    if readFrom 10 0 (ds.map digitOf) + 48 < 2 ^ 31 then
      some (if v.dot then { v with dwidth := readFrom 10 0 (ds.map digitOf) }
        else { v with width := readFrom 10 0 (ds.map digitOf) }, ap)
    else none
  | h, (v, ap) =>
    some (if v.hflag then { v with hflag := false, cflag := true } else { v with hflag := true }, ap)
  | j, (v, ap) => some ({ v with jflag := true }, ap)
  | l, (v, ap) =>
    some (if v.lflag then { v with lflag := false, qflag := true } else { v with lflag := true }, ap)
  | q, (v, ap) => some ({ v with qflag := true }, ap)
  | t, (v, ap) => some ({ v with tflag := true }, ap)
  | z, (v, ap) => some ({ v with zflag := true }, ap)

/-- A flag that is scanned as such behind a dot or without one, with the character `next` behind
it: a zero is a flag before the dot and a digit after it, and digits are all there are. -/
def Fits (dot : Bool) (next : BitVec 8) : FormatFlag → Prop
  | zero => dot = false
  | digits ds => (∃ c ds', ds = c :: ds' ∧ (c = chr '0' → dot = true)) ∧
      (∀ c ∈ ds, isdigit c) ∧ isdigit next = false
  | _ => True

theorem Fits.length_text_pos {f : FormatFlag} {dot : Bool} {next : BitVec 8}
    (h : f.Fits dot next) : 0 < f.text.length := by
  cases f with
  | digits ds =>
    obtain ⟨⟨c, ds', rfl, -⟩, -⟩ := h
    exact Nat.succ_pos _
  | _ => exact Nat.succ_pos _

/-- Only the dot sets `dot`. -/
theorem dot_of_apply {f : FormatFlag} {v v' : Conversion} {ap ap' : List Word}
    (h : f.apply (v, ap) = some (v', ap')) : v'.dot = (v.dot || decide (f = .dot)) := by
  cases f with
  | dot =>
    cases h
    simp
  | star =>
    cases ap with
    | nil => cases h
    | cons n ap =>
      rw [apply] at h
      split at h
      · cases h
        simp
      · split at h
        · obtain ⟨width, -, heq⟩ := Option.map_eq_some_iff.mp h
          cases heq
          simp
        · cases h
          simp
  | digits ds =>
    rw [apply] at h
    split at h
    · cases h
      split <;> simp
    · cases h
  | h =>
    cases h
    split <;> simp
  | l =>
    cases h
    split <;> simp
  | _ =>
    cases h
    simp

end FormatFlag

/-- The characters of flags. -/
def flagsText (flags : List FormatFlag) : List (BitVec 8) := flags.flatMap FormatFlag.text

/-- A character that `reswitch` goes on after. -/
def isFlagChar (c : BitVec 8) : Bool :=
  c ∈ [chr '.', chr '#', chr '+', chr '-', chr '*', chr 'h', chr 'j', chr 'l', chr 'q', chr 't',
    chr 'z'] ∨ isdigit c

/-- Flags that are scanned as such, with the character `ch` behind them, which is none. -/
def FlagsFit : Bool → List FormatFlag → BitVec 8 → Prop
  | _, [], ch => isFlagChar ch = false
  | dot, f :: flags, ch =>
    f.Fits dot ((flagsText flags).headD ch) ∧ FlagsFit (dot || decide (f = .dot)) flags ch

/-- The flags in front of a conversion, one after the other. -/
def applyFlags (flags : List FormatFlag) (s : Conversion × List Word) :
    Option (Conversion × List Word) :=
  flags.foldlM (fun s f => f.apply s) s

theorem applyFlags_cons (f : FormatFlag) (flags : List FormatFlag) (s : Conversion × List Word) :
    applyFlags (f :: flags) s = (f.apply s).bind (applyFlags flags) := rfl

/-- A part of a format. -/
inductive Directive
  | literal (c : BitVec 8)
  | conversion (flags : List FormatFlag) (ch : BitVec 8)
deriving DecidableEq, Repr

namespace Directive

/-- The characters of a directive. -/
def text : Directive → List (BitVec 8)
  | literal c => [c]
  | conversion flags ch => chr '%' :: (flagsText flags ++ [ch])

/-- A directive that is scanned as such. -/
def Fits : Directive → Prop
  | literal c => c ≠ 0 ∧ c ≠ chr '%'
  | conversion flags ch => FlagsFit false flags ch ∧ ch ≠ 0

/-- A directive that does not write to memory. -/
def KeepsMemory : Directive → Prop
  | literal _ => True
  | conversion _ ch => ch ≠ chr 'n'

/-- What a directive does. -/
def run (fuel : ℕ) (radix : BitVec 32) (k : Kvprintf) (d : Directive) : Option Kvprintf :=
  if k.stop then some (k.pchars d.text)
  else
    match d with
    | literal c => some (k.pchar c)
    | conversion flags ch =>
      (applyFlags flags ({}, k.ap)).bind fun s =>
        Kvprintf.convert fuel radix d.text ch s.1 { k with ap := s.2 }

variable {fuel : ℕ} {radix : BitVec 32} {k : Kvprintf}

theorem run_of_stop (h : k.stop) (d : Directive) : d.run fuel radix k = some (k.pchars d.text) := by
  unfold run
  exact if_pos h

theorem run_literal (h : ¬ k.stop) (c : BitVec 8) :
    (literal c).run fuel radix k = some (k.pchar c) := by
  unfold run
  exact if_neg h

theorem run_conversion (h : ¬ k.stop) (flags : List FormatFlag) (ch : BitVec 8) :
    (conversion flags ch).run fuel radix k = (applyFlags flags ({}, k.ap)).bind fun s =>
      Kvprintf.convert fuel radix (conversion flags ch).text ch s.1 { k with ap := s.2 } := by
  unfold run
  exact if_neg h

end Directive

/-- The text of directives. -/
def formatText (ds : List Directive) : List (BitVec 8) := ds.flatMap Directive.text

/-- Directives carried out one after the other. -/
def runDirectives (fuel : ℕ) (radix : BitVec 32) (ds : List Directive) (k : Kvprintf) :
    Option Kvprintf :=
  ds.foldlM (Directive.run fuel radix) k

/-! ## The scan of a format -/

section Scan

variable {m : ByteMem 32} {fmt : Word} {fuel : ℕ} {v : Conversion} {ap : List Word}
  {ch next : BitVec 8}

theorem digitOf_add (c : BitVec 8) (h : isdigit c) : digitOf c + 48 = c.toNat := by
  revert c
  decide

/-- One digit of a width. -/
theorem widthDigits_step {n : ℕ} (hch : isdigit ch) :
    widthDigits m (fuel + 1) ch fmt n =
      if n * 10 + digitOf ch + 48 < 2 ^ 31 then
        if isdigit (m fmt) then widthDigits m fuel (m fmt) (fmt + 1) (n * 10 + digitOf ch : ℕ)
        else some ((n * 10 + digitOf ch : ℕ), fmt)
      else none := by
  have hvalue := digitOf_add ch hch
  have hsum : (n * 10 : ℤ) + ch.toNat - 48 = (n * 10 + digitOf ch : ℕ) := by omega
  rw [widthDigits]
  by_cases hlt : n * 10 + digitOf ch + 48 < 2 ^ 31
  · have htens : intValue (n * 10) = some (n * 10 : ℤ) := if_pos (by omega)
    have hint : intValue (n * 10 + ch.toNat) = some (n * 10 + ch.toNat : ℤ) := if_pos (by omega)
    rw [if_pos hlt, htens, Option.bind_some, hint, Option.bind_some, hsum]
  · have hover : intValue (n * 10 + ch.toNat) = none := if_neg (by omega)
    rw [if_neg hlt, intValue]
    split
    · rw [Option.bind_some, hover, Option.bind_none]
    · rfl

/-- The digits of a width: the number they stand for, unless an `int` overflows. -/
theorem widthDigits_eq {ds : List (BitVec 8)} {n : ℕ} (hch : isdigit ch)
    (hds : ∀ c ∈ ds, isdigit c) (hnext : isdigit next = false) (hm : HoldsAt m fmt (ds ++ [next]))
    (hfuel : ds.length < fuel) :
    widthDigits m fuel ch fmt n =
      if readFrom 10 n ((ch :: ds).map digitOf) + 48 < 2 ^ 31 then
        some ((readFrom 10 n ((ch :: ds).map digitOf) : ℤ), fmt + BitVec.ofNat 32 ds.length)
      else none := by
  induction ds generalizing fuel ch fmt n with
  | nil =>
    obtain _ | fuel := fuel
    · exact absurd hfuel (Nat.not_lt_zero _)
    · obtain ⟨hend, -⟩ := holdsAt_cons.mp hm
      have hzero : fmt + BitVec.ofNat 32 0 = fmt := BitVec.add_zero fmt
      rw [widthDigits_step hch, hend, hnext, List.length_nil, hzero]
      rfl
  | cons c ds ih =>
    obtain _ | fuel := fuel
    · exact absurd hfuel (Nat.not_lt_zero _)
    · obtain ⟨hfirst, hrest⟩ := holdsAt_cons.mp hm
      obtain ⟨hc, hds⟩ := List.forall_mem_cons.mp hds
      rw [widthDigits_step hch, hfirst, if_pos hc, ih hc hds hrest (Nat.lt_of_succ_lt_succ hfuel),
        List.map_cons (a := ch), readFrom_cons, List.length_cons, add_one_add_ofNat]
      -- a number that is too large stays so with every further digit
      have hgrows := le_readFrom (show 0 < 10 by decide) (n * 10 + digitOf ch)
        ((c :: ds).map digitOf)
      split
      · rfl
      · exact (if_neg (by omega)).symm

/-- A flag and what is behind it. -/
theorem reswitch_flag {f : FormatFlag} (hf : f.Fits v.dot next)
    (hm : HoldsAt m fmt (f.text ++ [next])) (hfuel : f.text.length ≤ fuel) :
    reswitch m (fuel + 1) fmt v ap =
      (f.apply (v, ap)).bind fun s =>
        reswitch m fuel (fmt + BitVec.ofNat 32 f.text.length) s.1 s.2 := by
  have hone : fmt + BitVec.ofNat 32 1 = fmt + 1 := rfl
  cases f with
  | zero =>
    obtain ⟨hch, -⟩ := holdsAt_cons.mp hm
    have hdot : ¬ v.dot := Bool.eq_false_iff.mp hf
    simp +decide only [reswitch, hch, hdot, if_true, if_false, FormatFlag.apply, Option.bind_some]
    rfl
  | star =>
    obtain ⟨hch, -⟩ := holdsAt_cons.mp hm
    cases ap with
    | nil =>
      simp +decide only [reswitch, hch, if_true, if_false]
      rfl
    | cons n ap =>
      simp +decide only [reswitch, hch, if_true, if_false]
      rw [FormatFlag.apply]
      split
      · rfl
      · split
        · rw [Option.bind_map]
          rfl
        · rfl
  | digits ds =>
    obtain ⟨⟨c, ds', rfl, hzero⟩, hds, hnext⟩ := hf
    obtain ⟨hch, hrest⟩ := holdsAt_cons.mp hm
    obtain ⟨hc, hds'⟩ := List.forall_mem_cons.mp hds
    have hdigits := widthDigits_eq (n := 0) hc hds' hnext hrest hfuel
    have hnot : isdigit (chr '.') = false ∧ isdigit (chr '#') = false ∧
        isdigit (chr '+') = false ∧ isdigit (chr '-') = false ∧ isdigit (chr '*') = false := by
      decide
    have hne {d : BitVec 8} (hd : isdigit d = false) : ¬ c = d := by
      rintro rfl
      rw [hc] at hd
      cases hd
    have hflag : ¬ (c = chr '0' ∧ ¬ v.dot) := fun h => h.2 (hzero h.1)
    simp only [reswitch, hch]
    rw [if_neg (hne hnot.1), if_neg (hne hnot.2.1), if_neg (hne hnot.2.2.1),
      if_neg (hne hnot.2.2.2.1), if_neg (hne hnot.2.2.2.2), if_neg hflag, if_pos hc]
    rw [show (0 : ℤ) = (0 : ℕ) from rfl, hdigits, FormatFlag.apply]
    split
    · rw [Option.bind_some, Option.bind_some, add_one_add_ofNat]
      rfl
    · rfl
  | _ =>
    obtain ⟨hch, -⟩ := holdsAt_cons.mp hm
    simp +decide only [reswitch, hch, if_true, if_false]
    rfl

/-- A character that is no flag. -/
theorem reswitch_done (hch : isFlagChar (m fmt) = false) :
    reswitch m (fuel + 1) fmt v ap = some (m fmt, fmt + 1, v, ap) := by
  rw [isFlagChar, decide_eq_false_iff_not, not_or] at hch
  obtain ⟨hflag, hdigit⟩ := hch
  have hne {d : BitVec 8} (hd : d ∈ [chr '.', chr '#', chr '+', chr '-', chr '*', chr 'h', chr 'j',
      chr 'l', chr 'q', chr 't', chr 'z']) : ¬ m fmt = d := by
    rintro rfl
    exact hflag hd
  have hzero : ¬ (m fmt = chr '0' ∧ ¬ v.dot) := by
    rintro ⟨h, -⟩
    rw [h] at hdigit
    exact hdigit (by decide)
  simp only [reswitch]
  rw [if_neg (hne (by decide)), if_neg (hne (by decide)), if_neg (hne (by decide)),
    if_neg (hne (by decide)), if_neg (hne (by decide)), if_neg hzero, if_neg hdigit,
    if_neg (hne (by decide)), if_neg (hne (by decide)), if_neg (hne (by decide)),
    if_neg (hne (by decide)), if_neg (hne (by decide)), if_neg (hne (by decide))]

/-- The flags of a conversion and the character behind them. -/
theorem reswitch_flags {flags : List FormatFlag} (hflags : FlagsFit v.dot flags ch)
    (hm : HoldsAt m fmt (flagsText flags ++ [ch])) (hfuel : (flagsText flags).length < fuel) :
    reswitch m fuel fmt v ap = (applyFlags flags (v, ap)).map fun s =>
      (ch, fmt + BitVec.ofNat 32 (flagsText flags).length + 1, s.1, s.2) := by
  induction flags generalizing fmt fuel v ap with
  | nil =>
    obtain _ | fuel := fuel
    · exact absurd hfuel (Nat.not_lt_zero _)
    · obtain ⟨hch, -⟩ := holdsAt_cons.mp hm
      subst hch
      have hzero : fmt + BitVec.ofNat 32 0 = fmt := BitVec.add_zero fmt
      rw [reswitch_done hflags, flagsText, List.flatMap_nil, List.length_nil, hzero]
      rfl
  | cons f flags ih =>
    obtain _ | fuel := fuel
    · exact absurd hfuel (Nat.not_lt_zero _)
    · obtain ⟨hf, hrest⟩ := hflags
      have htext : flagsText (f :: flags) = f.text ++ flagsText flags := List.flatMap_cons
      rw [htext, List.append_assoc, holdsAt_append] at hm
      rw [htext, List.length_append] at hfuel
      have hnext : HoldsAt m (fmt + BitVec.ofNat 32 f.text.length) [(flagsText flags).headD ch] := by
        cases hbehind : flagsText flags with
        | nil =>
          rw [hbehind] at hm
          exact hm.2
        | cons c text =>
          rw [hbehind, List.cons_append, holdsAt_cons] at hm
          exact holdsAt_cons.mpr ⟨hm.2.1, holdsAt_nil⟩
      have hpos := hf.length_text_pos
      rw [reswitch_flag hf (holdsAt_append.mpr ⟨hm.1, hnext⟩) (by omega), applyFlags_cons]
      cases happly : f.apply (v, ap) with
      | none => rfl
      | some s =>
        rw [← FormatFlag.dot_of_apply happly] at hrest
        rw [Option.bind_some, Option.bind_some, ih hrest hm.2 (by omega), htext,
          List.length_append, add_ofNat_add_ofNat]

end Scan

section Run

variable {k k' : Kvprintf} {fmt : Word} {fuel rounds : ℕ} {radix : BitVec 32} {d : Directive}
  {ds : List Directive}

/-- Flags have no zero byte in their text. -/
theorem flagsText_ne_zero {flags : List FormatFlag} {dot : Bool} {ch : BitVec 8}
    (h : FlagsFit dot flags ch) : ∀ c ∈ flagsText flags, c ≠ 0 := by
  induction flags generalizing dot with
  | nil => simp [flagsText]
  | cons f flags ih =>
    obtain ⟨hf, hrest⟩ := h
    have htext : flagsText (f :: flags) = f.text ++ flagsText flags := List.flatMap_cons
    rw [htext]
    intro c hc
    obtain hc | hc := List.mem_append.mp hc
    · cases f with
      | digits ds =>
        obtain ⟨-, hdigits, -⟩ := hf
        rintro rfl
        exact absurd (hdigits 0 hc) (by decide)
      | _ =>
        rw [List.mem_singleton.mp hc]
        decide
    · exact ih hrest c hc

theorem Directive.Fits.text_ne_zero (h : d.Fits) : ∀ c ∈ d.text, c ≠ 0 := by
  cases d with
  | literal c => exact List.forall_mem_singleton.mpr h.1
  | conversion flags ch =>
    rw [Directive.text, List.forall_mem_cons, List.forall_mem_append, List.forall_mem_singleton]
    exact ⟨by decide, flagsText_ne_zero h.1, h.2⟩

/-- The rest of a format after a conversion that there is none of. -/
theorem kvprintfLoop_verbatim (fuel : ℕ) (radix : BitVec 32) (rounds : ℕ) {s : List (BitVec 8)}
    (hstop : k.stop) (hm : HoldsAt k.m fmt s) (hne : ∀ c ∈ s, c ≠ 0) :
    kvprintfLoop fuel radix (rounds + s.length) fmt k =
      kvprintfLoop fuel radix rounds (fmt + BitVec.ofNat 32 s.length) (k.pchars s) := by
  induction s generalizing fmt k with
  | nil =>
    have hzero : fmt + BitVec.ofNat 32 0 = fmt := BitVec.add_zero fmt
    rw [List.length_nil, hzero]
    rfl
  | cons c s ih =>
    obtain ⟨hfirst, hrest⟩ := holdsAt_cons.mp hm
    obtain ⟨hc, hne⟩ := List.forall_mem_cons.mp hne
    rw [List.length_cons, ← Nat.add_assoc, kvprintfLoop]
    rw [if_pos (Or.inr hstop), hfirst, if_neg hc, ih (k := k.pchar c) hstop hrest hne,
      add_one_add_ofNat]
    rfl

/-- Carrying out a directive that keeps the memory. -/
theorem Directive.extends_run (hkeeps : d.KeepsMemory) (h : d.run fuel radix k = some k') :
    k.Extends k' := by
  by_cases hstop : k.stop
  · rw [Directive.run_of_stop hstop] at h
    cases h
    exact Kvprintf.extends_pchars _ _
  · cases d with
    | literal c =>
      rw [Directive.run_literal hstop] at h
      cases h
      exact Kvprintf.extends_pchar _ _
    | conversion flags ch =>
      rw [Directive.run_conversion hstop] at h
      obtain ⟨s, -, h⟩ := Option.bind_eq_some_iff.mp h
      have hconvert := Kvprintf.extends_convert hkeeps h
      exact ⟨hconvert.m_eq, hconvert.printed⟩

/-- A conversion and the flags in front of it, up to the character `ch`. -/
theorem kvprintfLoop_conversion (fuel : ℕ) (radix : BitVec 32) (rounds : ℕ)
    {flags : List FormatFlag} {ch : BitVec 8} (hstop : ¬ k.stop)
    (hflags : FlagsFit false flags ch) (hm : HoldsAt k.m fmt (Directive.conversion flags ch).text)
    (hfuel : (Directive.conversion flags ch).text.length ≤ fuel)
    (hlt : (Directive.conversion flags ch).text.length < 2 ^ 32) :
    kvprintfLoop fuel radix (rounds + 1) fmt k =
      ((Directive.conversion flags ch).run fuel radix k).bind (kvprintfLoop fuel radix rounds
        (fmt + BitVec.ofNat 32 (Directive.conversion flags ch).text.length)) := by
  obtain ⟨hpercent, hrest⟩ := holdsAt_cons.mp hm
  have hlength : (Directive.conversion flags ch).text.length = (flagsText flags).length + 2 := by
    rw [Directive.text, List.length_cons, List.length_append, List.length_singleton]
  have hbehind : fmt + 1 + BitVec.ofNat 32 (flagsText flags).length + 1 =
      fmt + BitVec.ofNat 32 (Directive.conversion flags ch).text.length := by
    rw [hlength, add_one_add_ofNat]
    exact add_ofNat_add_ofNat fmt _ 1
  have hverbatim : bytesAt k.m fmt
      (fmt + BitVec.ofNat 32 (Directive.conversion flags ch).text.length - fmt).toNat =
      (Directive.conversion flags ch).text := by
    rw [BitVec.add_comm, BitVec.add_sub_cancel, BitVec.toNat_ofNat, Nat.mod_eq_of_lt hlt]
    exact hm
  rw [kvprintfLoop, hpercent, if_neg (by simpa using hstop),
    reswitch_flags hflags hrest (by omega), Option.bind_map, Directive.run_conversion hstop,
    Option.bind_assoc, hbehind]
  simp only [Function.comp_apply, hverbatim]

/-- The loop carries out a directive, in as many rounds as the directive has characters at most. -/
theorem kvprintfLoop_directive (fuel : ℕ) (radix : BitVec 32) (rounds : ℕ) (hd : d.Fits)
    (hm : HoldsAt k.m fmt d.text) (hfuel : d.text.length ≤ fuel) (hlt : d.text.length < 2 ^ 32)
    (hrounds : d.text.length ≤ rounds) :
    ∃ rounds', rounds ≤ rounds' + d.text.length ∧
      kvprintfLoop fuel radix rounds fmt k = (d.run fuel radix k).bind
        (kvprintfLoop fuel radix rounds' (fmt + BitVec.ofNat 32 d.text.length)) := by
  by_cases hstop : k.stop
  · refine ⟨rounds - d.text.length, by omega, ?_⟩
    have hrun := kvprintfLoop_verbatim fuel radix (rounds - d.text.length) hstop hm hd.text_ne_zero
    rw [Nat.sub_add_cancel hrounds] at hrun
    rw [hrun, Directive.run_of_stop hstop, Option.bind_some]
  · cases d with
    | literal c =>
      obtain _ | rounds := rounds
      · exact absurd hrounds (Nat.not_succ_le_zero 0)
      · obtain ⟨hfirst, -⟩ := holdsAt_cons.mp hm
        refine ⟨rounds, Nat.le_refl _, ?_⟩
        rw [kvprintfLoop, hfirst, if_pos (Or.inl hd.2), if_neg hd.1, Directive.run_literal hstop,
          Option.bind_some]
        rfl
    | conversion flags ch =>
      obtain _ | rounds := rounds
      · exact absurd hrounds (by simp [Directive.text])
      · have hpos : 0 < (Directive.conversion flags ch).text.length := Nat.succ_pos _
        exact ⟨rounds, by omega, kvprintfLoop_conversion fuel radix rounds hstop hd.1 hm hfuel hlt⟩

/-- The loop carries out directives one after the other. -/
theorem kvprintfLoop_directives (fuel : ℕ) (radix : BitVec 32) (rounds : ℕ)
    (hfits : ∀ d ∈ ds, d.Fits) (hkeeps : ∀ d ∈ ds, d.KeepsMemory)
    (hm : HoldsAt k.m fmt (formatText ds)) (hfuel : (formatText ds).length ≤ fuel)
    (hlt : (formatText ds).length < 2 ^ 32) (hrounds : (formatText ds).length ≤ rounds) :
    ∃ rounds', rounds ≤ rounds' + (formatText ds).length ∧
      kvprintfLoop fuel radix rounds fmt k = (runDirectives fuel radix ds k).bind
        (kvprintfLoop fuel radix rounds' (fmt + BitVec.ofNat 32 (formatText ds).length)) := by
  induction ds generalizing fmt k rounds with
  | nil =>
    have hzero : fmt + BitVec.ofNat 32 0 = fmt := BitVec.add_zero fmt
    refine ⟨rounds, Nat.le_refl _, ?_⟩
    rw [formatText, List.flatMap_nil, List.length_nil, hzero]
    rfl
  | cons d ds ih =>
    obtain ⟨hd, hfits⟩ := List.forall_mem_cons.mp hfits
    obtain ⟨hkeep, hkeeps⟩ := List.forall_mem_cons.mp hkeeps
    have htext : formatText (d :: ds) = d.text ++ formatText ds := List.flatMap_cons
    rw [htext, holdsAt_append] at hm
    rw [htext, List.length_append] at hfuel hlt hrounds ⊢
    obtain ⟨rounds₁, hle₁, hrun₁⟩ := kvprintfLoop_directive fuel radix rounds hd hm.1
      (by omega) (by omega) (by omega)
    have hcons : runDirectives fuel radix (d :: ds) k =
        (d.run fuel radix k).bind (runDirectives fuel radix ds) := rfl
    rw [hrun₁, hcons, ← add_ofNat_add_ofNat]
    cases hd' : d.run fuel radix k with
    | none => exact ⟨rounds, by omega, rfl⟩
    | some k₁ =>
      have hsame := (Directive.extends_run hkeep hd').m_eq
      obtain ⟨rounds₂, hle₂, hrun₂⟩ := ih (k := k₁) rounds₁ hfits hkeeps
        (by rw [hsame]; exact hm.2) (by omega) (by omega) (by omega)
      exact ⟨rounds₂, by omega, hrun₂⟩

/-- The end of a format. -/
theorem kvprintfLoop_end (hrounds : 0 < rounds) (h : k.m fmt = 0) :
    kvprintfLoop fuel radix rounds fmt k = some k := by
  obtain _ | rounds := rounds
  · exact absurd hrounds (Nat.lt_irrefl 0)
  · rw [kvprintfLoop, h, if_pos (Or.inl (by decide)), if_pos rfl]

/-- Once a conversion was none there is, the rest of the string is printed as it stands. -/
theorem kvprintfLoop_rest {s : List (BitVec 8)} (hstop : k.stop) (hs : StringAt k.m fmt s)
    (hrounds : s.length < rounds) :
    kvprintfLoop fuel radix rounds fmt k = some (k.pchars s) := by
  obtain ⟨rest, rfl⟩ := Nat.exists_eq_add_of_lt hrounds
  have hsame := (Kvprintf.extends_pchars k s).m_eq
  rw [show s.length + rest + 1 = rest + 1 + s.length by omega,
    kvprintfLoop_verbatim fuel radix _ hstop hs.bytes hs.nonzero]
  exact kvprintfLoop_end (Nat.succ_pos rest) (by rw [hsame]; exact hs.terminated)

theorem extends_runDirectives (hkeeps : ∀ d ∈ ds, d.KeepsMemory)
    (h : runDirectives fuel radix ds k = some k') : k.Extends k' := by
  induction ds generalizing k with
  | nil =>
    cases h
    exact .refl k'
  | cons d ds ih =>
    obtain ⟨hkeep, hkeeps⟩ := List.forall_mem_cons.mp hkeeps
    obtain ⟨k₁, hd, hds⟩ := Option.bind_eq_some_iff.mp
      (show (d.run fuel radix k).bind (runDirectives fuel radix ds) = some k' from h)
    exact (Directive.extends_run hkeep hd).trans (ih hkeeps hds)

end Run

section Parse

/-- A flag of one character, if it is one. -/
theorem exists_flag {c : BitVec 8} (dot : Bool) (hc : isFlagChar c)
    (hdigit : isdigit c → c = chr '0' ∧ dot = false) :
    ∃ f : FormatFlag, f.text = [c] ∧ ∀ next, f.Fits dot next := by
  by_cases hd : isdigit c
  · obtain ⟨rfl, hdot⟩ := hdigit hd
    exact ⟨.zero, rfl, fun _ => hdot⟩
  · rw [isFlagChar, decide_eq_true_eq] at hc
    have hmem := hc.resolve_right hd
    simp only [List.mem_cons, List.not_mem_nil, or_false] at hmem
    obtain rfl | rfl | rfl | rfl | rfl | rfl | rfl | rfl | rfl | rfl | rfl := hmem
    · exact ⟨.dot, rfl, fun _ => trivial⟩
    · exact ⟨.sharp, rfl, fun _ => trivial⟩
    · exact ⟨.plus, rfl, fun _ => trivial⟩
    · exact ⟨.minus, rfl, fun _ => trivial⟩
    · exact ⟨.star, rfl, fun _ => trivial⟩
    · exact ⟨.h, rfl, fun _ => trivial⟩
    · exact ⟨.j, rfl, fun _ => trivial⟩
    · exact ⟨.l, rfl, fun _ => trivial⟩
    · exact ⟨.q, rfl, fun _ => trivial⟩
    · exact ⟨.t, rfl, fun _ => trivial⟩
    · exact ⟨.z, rfl, fun _ => trivial⟩

/-- What is behind all the digits is none. -/
theorem isdigit_headD_dropWhile (text : List (BitVec 8)) :
    isdigit ((text.dropWhile isdigit).headD 0) = false := by
  induction text with
  | nil => decide
  | cons c text ih =>
    rw [List.dropWhile_cons]
    split
    · exact ih
    · rename_i hc
      exact Bool.eq_false_iff.mpr hc

/-- Every text begins with flags, none or more. -/
theorem exists_flags (dot : Bool) (text : List (BitVec 8)) :
    ∃ flags tail, text = flagsText flags ++ tail ∧ FlagsFit dot flags (tail.headD 0) := by
  induction hn : text.length using Nat.strongRecOn generalizing text dot with
  | ind n ih =>
    subst hn
    have hcons (f : FormatFlag) (rest : List (BitVec 8)) (htext : text = f.text ++ rest)
        (hf : f.Fits dot (rest.headD 0)) :
        ∃ flags tail, text = flagsText flags ++ tail ∧ FlagsFit dot flags (tail.headD 0) := by
      have hpos := hf.length_text_pos
      obtain ⟨flags, tail, hrest, hflags⟩ := ih rest.length
        (by rw [htext, List.length_append]; omega) (dot || decide (f = .dot)) rest rfl
      refine ⟨f :: flags, tail, ?_, ?_, hflags⟩
      · rw [htext, hrest, flagsText, flagsText, List.flatMap_cons, List.append_assoc]
      · have hhead : (flagsText flags).headD (tail.headD 0) = rest.headD 0 := by
          rw [hrest]
          cases flagsText flags <;> rfl
        rwa [hhead]
    cases text with
    | nil => exact ⟨[], [], rfl, show isFlagChar 0 = false by decide⟩
    | cons c text =>
      by_cases hflag : isFlagChar c
      · by_cases hdigit : isdigit c → c = chr '0' ∧ dot = false
        · obtain ⟨f, htext, hfits⟩ := exists_flag dot hflag hdigit
          exact hcons f text (by rw [htext]; rfl) (hfits _)
        · -- the digits of a width, or of a precision that may begin with a zero
          obtain ⟨hc, hzero⟩ := Classical.not_imp.mp hdigit
          apply hcons (.digits ((c :: text).takeWhile isdigit)) ((c :: text).dropWhile isdigit)
          · exact List.takeWhile_append_dropWhile.symm
          · refine ⟨⟨c, text.takeWhile isdigit, by rw [List.takeWhile_cons, if_pos hc], ?_⟩, ?_, ?_⟩
            · intro h0
              exact Bool.eq_false_imp_eq_true.mp fun hdot => absurd ⟨h0, hdot⟩ hzero
            · exact List.all_eq_true.mp List.all_takeWhile
            · exact isdigit_headD_dropWhile (c :: text)
      · exact ⟨[], c :: text, rfl, Bool.eq_false_iff.mpr hflag⟩

/-- Every format is the text of directives, and maybe flags at its end that no conversion follows. -/
theorem exists_directives {text : List (BitVec 8)} (hne : ∀ c ∈ text, c ≠ 0) :
    ∃ ds tail, text = formatText ds ++ tail ∧ (∀ d ∈ ds, d.Fits) ∧
      (tail = [] ∨ ∃ flags, tail = chr '%' :: flagsText flags ∧ FlagsFit false flags 0) := by
  induction hn : text.length using Nat.strongRecOn generalizing text with
  | ind n ih =>
    subst hn
    have hcons (d : Directive) (rest : List (BitVec 8)) (htext : text = d.text ++ rest)
        (hd : d.Fits) (hpos : 0 < d.text.length) :
        ∃ ds tail, text = formatText ds ++ tail ∧ (∀ d ∈ ds, d.Fits) ∧
          (tail = [] ∨ ∃ flags, tail = chr '%' :: flagsText flags ∧ FlagsFit false flags 0) := by
      rw [htext] at hne
      obtain ⟨ds, tail, hrest, hds, htail⟩ := ih rest.length
        (by rw [htext, List.length_append]; omega)
        (fun c hc => hne c (List.mem_append_right _ hc)) rfl
      refine ⟨d :: ds, tail, ?_, List.forall_mem_cons.mpr ⟨hd, hds⟩, htail⟩
      rw [htext, hrest, formatText, formatText, List.flatMap_cons, List.append_assoc]
    cases text with
    | nil => exact ⟨[], [], rfl, by simp, Or.inl rfl⟩
    | cons c text =>
      obtain ⟨hc, hrest⟩ := List.forall_mem_cons.mp hne
      by_cases hpercent : c = chr '%'
      · subst hpercent
        obtain ⟨flags, tail, htext, hflags⟩ := exists_flags false text
        cases tail with
        | nil =>
          refine ⟨[], chr '%' :: flagsText flags, ?_, by simp, Or.inr ⟨flags, rfl, hflags⟩⟩
          rw [htext, List.append_nil]
          rfl
        | cons ch rest =>
          apply hcons (.conversion flags ch) rest
          · rw [htext, Directive.text, List.cons_append, List.append_assoc]
            rfl
          · refine ⟨hflags, hrest ch ?_⟩
            rw [htext]
            exact List.mem_append_right _ List.mem_cons_self
          · exact Nat.succ_pos _
      · exact hcons (.literal c) text rfl ⟨hc, hpercent⟩ Nat.one_pos

end Parse

section Format

variable {m : ByteMem 32} {fmt : Word} {text : List (BitVec 8)}

/-- The radix that `%r` prints in. -/
def radixFor (radix : BitVec 32) : BitVec 32 :=
  if radix.toInt < 2 ∨ 36 < radix.toInt then 10 else radix

variable {radix : BitVec 32} {nbuf : ByteMem 32} {ap : List Word} {fuel : ℕ}

theorem kvprintf_eq (hfmt : fmt ≠ 0) : kvprintf fuel m fmt radix ap nbuf =
      kvprintfLoop fuel (radixFor radix) fuel fmt ⟨m, ap, [], 0, nbuf, false⟩ :=
  if_neg hfmt

variable {ds : List Directive}

/-- Directives that start with nothing printed count what they print. -/
theorem retval_of_runDirectives (hkeeps : ∀ d ∈ ds, d.KeepsMemory) {k : Kvprintf}
    (hrun : runDirectives fuel radix ds ⟨m, ap, [], 0, nbuf, false⟩ = some k) :
    k.retval = BitVec.ofNat 32 k.out.length ∧ k.m = m := by
  obtain ⟨hsame, s, hout, hcount⟩ := extends_runDirectives hkeeps hrun
  refine ⟨?_, hsame⟩
  rw [hcount, hout, List.nil_append]
  exact BitVec.zero_add _

/-- A format that ends behind a directive, and not inside one. -/
theorem kvprintf_eq_runDirectives (hs : StringAt m fmt (formatText ds)) (hfmt : fmt ≠ 0)
    (hfits : ∀ d ∈ ds, d.Fits) (hkeeps : ∀ d ∈ ds, d.KeepsMemory)
    (hfuel : (formatText ds).length < fuel) (radix : BitVec 32) (ap : List Word)
    (nbuf : ByteMem 32) : kvprintf fuel m fmt radix ap nbuf =
      runDirectives fuel (radixFor radix) ds ⟨m, ap, [], 0, nbuf, false⟩ := by
  have hm := hs.holdsAt
  rw [holdsAt_append] at hm
  obtain ⟨rounds, hle, hloop⟩ := kvprintfLoop_directives fuel (radixFor radix) fuel
    (k := ⟨m, ap, [], 0, nbuf, false⟩) hfits hkeeps hm.1 (by omega)
    hs.length_lt (by omega)
  refine (kvprintf_eq hfmt).trans (hloop.trans ?_)
  cases hk : runDirectives fuel (radixFor radix) ds ⟨m, ap, [], 0, nbuf, false⟩ with
  | none => rfl
  | some k =>
    have hsame := (extends_runDirectives hkeeps hk).m_eq
    exact kvprintfLoop_end (by omega) (by rw [hsame]; exact hs.terminated)

/-- Every format is a row of directives, with a percent sign and flags behind them or not. If there
are none of these and no directive is a `%n`, `kvprintf` carries out the directives one after the
other, stops at the end of the format, returns the number of characters it printed, modulo `2 ^ 32`,
and leaves the memory as it was. -/
theorem kvprintf_runs_directives (hs : StringAt m fmt text) (hfmt : fmt ≠ 0) :
    (∃ ds tail, text = formatText ds ++ tail ∧ (∀ d ∈ ds, d.Fits) ∧
      (tail = [] ∨ ∃ flags, tail = chr '%' :: flagsText flags ∧ FlagsFit false flags 0)) ∧
    ∀ ds, text = formatText ds → (∀ d ∈ ds, d.Fits) → (∀ d ∈ ds, d.KeepsMemory) →
      ∀ (fuel : ℕ) (radix : BitVec 32) (ap : List Word) (nbuf : ByteMem 32), text.length < fuel →
        kvprintf fuel m fmt radix ap nbuf =
          runDirectives fuel (radixFor radix) ds ⟨m, ap, [], 0, nbuf, false⟩ ∧
        ∀ k, kvprintf fuel m fmt radix ap nbuf = some k →
          k.retval = BitVec.ofNat 32 k.out.length ∧ k.m = m := by
  refine ⟨exists_directives hs.nonzero, ?_⟩
  rintro ds rfl hfits hkeeps fuel radix ap nbuf hfuel
  have hrun := kvprintf_eq_runDirectives hs hfmt hfits hkeeps hfuel radix ap nbuf
  refine ⟨hrun, fun k hk => ?_⟩
  rw [hrun] at hk
  exact retval_of_runDirectives hkeeps hk

/-- The format "%5d!" with the number 42. -/
theorem kvprintf_runs_directives_width :
    let m := textMem (0x1000 : Word) ("%5d!".toList.map chr)
    kvprintf 9 m 0x1000 10 [42] (fun _ => 0) =
        runDirectives 9 10 [.conversion [.digits ("5".toList.map chr)] (chr 'd'), .literal (chr '!')]
          ⟨m, [42], [], 0, fun _ => 0, false⟩ ∧
      ∃ k, kvprintf 9 m 0x1000 10 [42] (fun _ => 0) = some k ∧
        k.out = "   42!".toList.map chr ∧ k.retval = 6 ∧ k.m = m := by
  intro m
  have hs : StringAt m 0x1000 ("%5d!".toList.map chr) := stringAt_textMem (by decide) (by decide)
  have hflags : FlagsFit false [.digits ("5".toList.map chr)] (chr 'd') :=
    ⟨⟨⟨_, _, rfl, by decide⟩, by decide, by decide⟩, show isFlagChar (chr 'd') = false by decide⟩
  have hfits : ∀ d ∈ [Directive.conversion [.digits ("5".toList.map chr)] (chr 'd'),
      .literal (chr '!')], d.Fits :=
    List.forall_mem_cons.mpr ⟨⟨hflags, by decide⟩,
      List.forall_mem_singleton.mpr ⟨by decide, by decide⟩⟩
  have hkeeps : ∀ d ∈ [Directive.conversion [.digits ("5".toList.map chr)] (chr 'd'),
      .literal (chr '!')], d.KeepsMemory :=
    List.forall_mem_cons.mpr ⟨show chr 'd' ≠ chr 'n' by decide, List.forall_mem_singleton.mpr trivial⟩
  obtain ⟨hrun, hcount⟩ := (kvprintf_runs_directives hs (by decide)).2 _ rfl hfits hkeeps 9 10 [42]
    (fun _ => 0) (by decide)
  have hout : (kvprintf 9 m 0x1000 10 [42] fun _ => 0).map Kvprintf.out =
      some ("   42!".toList.map chr) := by decide
  obtain ⟨k, hk, hprinted⟩ := Option.map_eq_some_iff.mp hout
  obtain ⟨hretval, hm⟩ := hcount k hk
  exact ⟨hrun, k, hk, hprinted, by rw [hretval, hprinted]; decide, hm⟩

theorem convert_zero (fuel : ℕ) (radix : BitVec 32) (verbatim : List (BitVec 8)) (v : Conversion)
    (k : Kvprintf) :
    k.convert fuel radix verbatim 0 v = some { k with
      out := k.out ++ verbatim
      retval := k.retval + BitVec.ofNat 32 verbatim.length
      stop := true } := by
  simp +decide only [Kvprintf.convert, if_false, Kvprintf.pchars_eq]

/-- A format that ends in a percent sign, or in flags behind one: the terminator is taken for the
conversion, and `kvprintf` goes on behind the format. It prints the percent sign, the flags and the
zero byte, and then whatever string lies behind the format in memory. -/
theorem kvprintf_reads_behind_format {ds : List Directive} {flags : List FormatFlag}
    {rest : List (BitVec 8)} (hfits : ∀ d ∈ ds, d.Fits) (hkeeps : ∀ d ∈ ds, d.KeepsMemory)
    (hflags : FlagsFit false flags 0) (htext : text = formatText ds ++ chr '%' :: flagsText flags)
    (hs : StringAt m fmt text) (hrest : StringAt m (fmt + BitVec.ofNat 32 (text.length + 1)) rest)
    (hlt : text.length + 1 < 2 ^ 32) (hfmt : fmt ≠ 0) {fuel : ℕ} {radix : BitVec 32}
    {ap : List Word} {nbuf : ByteMem 32} (hfuel : text.length + 1 + rest.length < fuel)
    {k : Kvprintf} {s : Conversion × List Word}
    (hrun : runDirectives fuel (radixFor radix) ds ⟨m, ap, [], 0, nbuf, false⟩ = some k)
    (hstop : k.stop = false) (happly : applyFlags flags ({}, k.ap) = some s) :
    ∃ k', kvprintf fuel m fmt radix ap nbuf = some k' ∧
      k'.out = k.out ++ (chr '%' :: (flagsText flags ++ [0]) ++ rest) ∧
      k'.retval = BitVec.ofNat 32 k'.out.length := by
  have hm := hs.holdsAt
  rw [htext, List.append_assoc, holdsAt_append] at hm
  have hlength : text.length = (formatText ds).length + ((flagsText flags).length + 1) := by
    rw [htext, List.length_append, List.length_cons]
  have hlast : (Directive.conversion flags 0).text.length = (flagsText flags).length + 2 := by
    rw [Directive.text, List.length_cons, List.length_append, List.length_singleton]
  obtain ⟨rounds, hle, hloop⟩ := kvprintfLoop_directives fuel (radixFor radix) fuel
    (k := ⟨m, ap, [], 0, nbuf, false⟩) hfits hkeeps hm.1 (by omega) (by omega)
    (by omega)
  obtain ⟨hcount, hsame⟩ := retval_of_runDirectives hkeeps hrun
  obtain ⟨rounds, rfl⟩ : ∃ r, rounds = r + 1 := ⟨rounds - 1, by omega⟩
  have hgo : k.stop ≠ true := by
    rw [hstop]
    exact Bool.false_ne_true
  -- the terminator is no conversion there is, so what follows is printed as it stands
  have hlast' : HoldsAt k.m (fmt + BitVec.ofNat 32 (formatText ds).length)
      (Directive.conversion flags 0).text := by
    rw [hsame]
    exact hm.2
  have hconversion := kvprintfLoop_conversion fuel (radixFor radix) rounds hgo hflags hlast'
    (by omega) (by omega)
  have hbehind : fmt + BitVec.ofNat 32 (formatText ds).length +
      BitVec.ofNat 32 (Directive.conversion flags 0).text.length =
      fmt + BitVec.ofNat 32 (text.length + 1) := by
    rw [add_ofNat_add_ofNat, hlast, hlength]
    rfl
  rw [Directive.run_conversion hgo, happly, Option.bind_some, convert_zero, Option.bind_some,
    hbehind] at hconversion
  have hstring : StringAt k.m (fmt + BitVec.ofNat 32 (text.length + 1)) rest := by
    rw [hsame]
    exact hrest
  have htail := hconversion.trans (kvprintfLoop_rest (s := rest) rfl hstring (by omega))
  refine ⟨_, (kvprintf_eq hfmt).trans (hloop.trans (by rw [hrun]; exact htail)), ?_, ?_⟩
  · rw [Kvprintf.pchars_eq]
    exact List.append_assoc _ _ _
  · rw [Kvprintf.pchars_eq]
    simp only [hcount, List.length_append, BitVec.ofNat_add]

/-- The format "5%-" with the string "key" behind it. -/
theorem kvprintf_reads_behind_format_key :
    let m := textMem (0x1000 : Word) ("5%-".toList.map chr ++ 0 :: "key".toList.map chr)
    StringAt m 0x1000 ("5%-".toList.map chr) ∧
      ∃ k, kvprintf 9 m 0x1000 10 [] (fun _ => 0) = some k ∧
        k.out = "5%-".toList.map chr ++ 0 :: "key".toList.map chr ∧ k.retval = 7 := by
  intro m
  have hs : StringAt m 0x1000 ("5%-".toList.map chr) := ⟨by decide, by decide, by decide⟩
  refine ⟨hs, ?_⟩
  have hfits : ∀ d ∈ [Directive.literal (chr '5')], d.Fits := by simp +decide [Directive.Fits]
  have hflags : FlagsFit false [.minus] 0 := by simp +decide [FlagsFit, FormatFlag.Fits]
  have hrest : StringAt m 0x1004 ("key".toList.map chr) := ⟨by decide, by decide, by decide⟩
  have hliteral : runDirectives 9 10 [Directive.literal (chr '5')] ⟨m, [], [], 0, fun _ => 0, false⟩ =
      some ⟨m, [], [chr '5'], 1, fun _ => 0, false⟩ := rfl
  obtain ⟨k, hrun, hout, hcount⟩ := kvprintf_reads_behind_format hfits
    (by simp [Directive.KeepsMemory]) hflags rfl hs hrest (by decide) (by decide) (by decide)
    (show runDirectives 9 (radixFor 10) _ _ = _ from hliteral) rfl rfl
  exact ⟨k, hrun, hout, by rw [hcount, hout]; decide⟩

end Format

end ChrisOS.Utils
