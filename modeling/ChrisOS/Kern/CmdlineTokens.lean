import ChrisOS.Kern.CmdlineRoundTrip
import Mathlib.Data.List.Forall2
import Mathlib.Data.List.TakeWhile

/-!
# Tokens and the options they become

The tokens of a command line are its maximal parts without a space. The parser reads one after the
other, but it does not start afresh at every token: a token that ends where a value could begin adds
no option and leaves its name and its values behind. The name is lost when the next token has one, and
the values go to the next option that is added. A last token that has no equals sign and no space
behind it is not added either.

If none of this happens, every token becomes an option of its own.
-/

namespace ChrisOS.Kern

open ChrisOS.Utils

/-- The maximal parts of a text without a space. -/
def cmdlineTokens (text : List (BitVec 8)) : List (List (BitVec 8)) :=
  (text.splitOn cmdlineSpace).filter (· ≠ [])

/-- The part of a token before its first equals sign, not counting one in front. -/
def tokenName (token : List (BitVec 8)) : List (BitVec 8) :=
  token.take 1 ++ token.tail.takeWhile (· ≠ cmdlineEquals)

/-- What is behind that equals sign, if there is one. -/
def tokenRest (token : List (BitVec 8)) : Option (List (BitVec 8)) :=
  match token.tail.dropWhile (· ≠ cmdlineEquals) with
  | [] => none
  | _ :: rest => some rest

/-- Non-empty pieces of a text, in order and without overlap. -/
inductive Pieces : List (List (BitVec 8)) → List (BitVec 8) → Prop
  | nil {text : List (BitVec 8)} : Pieces [] text
  | cons {gap piece rest : List (BitVec 8)} {pieces : List (List (BitVec 8))} (hne : piece ≠ [])
      (hrest : Pieces pieces rest) : Pieces (piece :: pieces) (gap ++ (piece ++ rest))

/-- The option is the token's: its name is, and its values are pieces of the rest of the token. -/
structure OptionOf (token : List (BitVec 8)) (option : CmdlineOption) : Prop where
  name : option.name = tokenName token
  count : option.valueCount = option.values.length
  values : Pieces option.values ((tokenRest token).getD [])

/-- The values that a scan completes, given the beginning of the current one, and the value that it is
still in. A comma ends a value, but the first character of a value may be one. -/
def scanValues : Option (List (BitVec 8)) → List (BitVec 8) →
    List (List (BitVec 8)) × Option (List (BitVec 8))
  | current, [] => ([], current)
  | none, c :: rest => scanValues (some [c]) rest
  | some value, c :: rest =>
    if c = cmdlineComma then
      let scanned := scanValues none rest
      (value :: scanned.1, scanned.2)
    else scanValues (some (value ++ [c])) rest

/-- The token has an equals sign and ends where a value could begin. -/
def Dangles (token : List (BitVec 8)) : Prop :=
  (tokenRest token).map (fun rest => (scanValues none rest).2) = some none

instance : DecidablePred Dangles := fun token =>
  inferInstanceAs (Decidable ((tokenRest token).map _ = some none))

/-- The option that `cmdline_option_add` adds. -/
def optionAdded (name : List (BitVec 8)) (values : List (List (BitVec 8))) : CmdlineOption :=
  ⟨strdup name, values.length, values.map strdup⟩

/-- What the parser keeps between tokens. -/
structure Carried where
  name : Option (List (BitVec 8))
  values : List (List (BitVec 8))

/-- A token that is followed by a space: what it adds, and what is kept. -/
def Carried.token (kept : Carried) (token : List (BitVec 8)) : List CmdlineOption × Carried :=
  match tokenRest token with
  | none => ([optionAdded token kept.values], ⟨none, kept.values⟩)
  | some rest =>
    let scanned := scanValues none rest
    match scanned.2 with
    | some value =>
      ([optionAdded (tokenName token) (kept.values ++ scanned.1 ++ [value])], ⟨none, []⟩)
    | none => ([], ⟨some (tokenName token), kept.values ++ scanned.1⟩)

/-- What is added at the end of the text. -/
def Carried.flush (kept : Carried) : List CmdlineOption :=
  (kept.name.map fun name => optionAdded name kept.values).toList

/-- The options of a sequence of tokens. -/
def optionsFrom (kept : Carried) : List (List (BitVec 8)) → List CmdlineOption
  | [] => kept.flush
  | token :: tokens => (kept.token token).1 ++ optionsFrom (kept.token token).2 tokens

/-- The last token, which no space follows, counts if it has an equals sign. -/
def lastToken (token : List (BitVec 8)) : List (List (BitVec 8)) :=
  if tokenRest token = none then [] else [token]

section Tokens

variable {token rest : List (BitVec 8)}

/-- A token has a rest if there is an equals sign behind its first character. -/
theorem tokenRest_eq_none_iff : tokenRest token = none ↔ cmdlineEquals ∉ token.tail := by
  have hnone : tokenRest token = none ↔ token.tail.dropWhile (· ≠ cmdlineEquals) = [] := by
    unfold tokenRest
    split <;> simp only [*, reduceCtorEq]
  rw [hnone, List.dropWhile_eq_nil_iff]
  constructor
  · intro h hmem
    simpa using h cmdlineEquals hmem
  · intro h c hc
    simpa using ne_of_mem_of_not_mem hc h

/-- A token without an equals sign is its name. -/
theorem tokenName_of_rest_none (h : tokenRest token = none) : tokenName token = token := by
  have hall : ∀ c ∈ token.tail, decide (c ≠ cmdlineEquals) = true := by
    intro c hc
    simpa using ne_of_mem_of_not_mem hc (tokenRest_eq_none_iff.mp h)
  rw [tokenName, List.takeWhile_eq_self_iff.mpr hall, ← List.drop_one, List.take_append_drop]

/-- A token with an equals sign is its name, the sign and the rest. -/
theorem token_of_rest_some (h : tokenRest token = some rest) :
    token = tokenName token ++ cmdlineEquals :: rest ∧ tokenName token ≠ [] ∧
      cmdlineEquals ∉ (tokenName token).tail := by
  cases token with
  | nil => cases h
  | cons c token =>
    have hname : tokenName (c :: token) = c :: token.takeWhile (· ≠ cmdlineEquals) := rfl
    have hdrop : token.dropWhile (· ≠ cmdlineEquals) = cmdlineEquals :: rest := by
      unfold tokenRest at h
      split at h
      · cases h
      · rename_i a rest' hrest
        cases h
        have hhead := List.head?_dropWhile_not (fun x => decide (x ≠ cmdlineEquals)) token
        rw [List.tail_cons] at hrest
        rw [hrest] at hhead ⊢
        simpa using hhead
    refine ⟨?_, by simp [hname], ?_⟩
    · rw [hname, ← hdrop, List.cons_append, List.takeWhile_append_dropWhile]
    · rw [hname, List.tail_cons]
      intro hmem
      simpa using List.mem_takeWhile_imp hmem

/-- The name and the rest of a token have its characters. -/
theorem forall_mem_tokenName_and_rest {P : BitVec 8 → Prop} (h : ∀ c ∈ token, P c) :
    (∀ c ∈ tokenName token, P c) ∧ ∀ c ∈ (tokenRest token).getD [], P c := by
  cases hrest : tokenRest token with
  | none =>
    rw [tokenName_of_rest_none hrest]
    exact ⟨h, List.forall_mem_nil _⟩
  | some rest =>
    rw [(token_of_rest_some hrest).1] at h
    obtain ⟨hname, hequals⟩ := List.forall_mem_append.mp h
    exact ⟨hname, (List.forall_mem_cons.mp hequals).2⟩

end Tokens

section Pieces

variable {text : List (BitVec 8)} {pieces : List (List (BitVec 8))}

/-- Pieces of the rest of a text. -/
theorem Pieces.skip (h : Pieces pieces text) (c : BitVec 8) : Pieces pieces (c :: text) := by
  cases h with
  | nil => exact .nil
  | @cons gap _ _ _ hne hrest => exact @Pieces.cons (c :: gap) _ _ _ hne hrest

/-- A first piece. -/
theorem Pieces.cons_append {piece : List (BitVec 8)} (hne : piece ≠ []) (h : Pieces pieces text) :
    Pieces (piece :: pieces) (piece ++ text) :=
  @Pieces.cons [] _ _ _ hne h

/-- The characters of pieces are the text's. -/
theorem Pieces.mem (h : Pieces pieces text) : ∀ piece ∈ pieces, ∀ c ∈ piece, c ∈ text := by
  induction h with
  | nil => exact List.forall_mem_nil _
  | cons _ _ ih =>
    refine List.forall_mem_cons.mpr ⟨fun c hc => ?_, fun piece hpiece c hc => ?_⟩
    · exact List.mem_append_right _ (List.mem_append_left _ hc)
    · exact List.mem_append_right _ (List.mem_append_right _ (ih piece hpiece c hc))

/-- The values of a scan are pieces of what it reads. -/
theorem scanValues_pieces {current : Option (List (BitVec 8))} (hcurrent : current ≠ some [])
    (text : List (BitVec 8)) :
    Pieces ((scanValues current text).1 ++ (scanValues current text).2.toList)
      (current.getD [] ++ text) := by
  induction text generalizing current with
  | nil =>
    cases current with
    | none => exact .nil
    | some value => exact .cons_append (fun h => hcurrent (congrArg some h)) .nil
  | cons c rest ih =>
    cases current with
    | none => exact @ih (some [c]) (by simp)
    | some value =>
      have hne : value ≠ [] := fun h => hcurrent (congrArg some h)
      rw [scanValues]
      split
      · exact .cons_append hne ((ih (by simp)).skip c)
      · have hnext := @ih (some (value ++ [c])) (by simp)
        simpa using hnext

end Pieces

section Scan

variable {cmdline tail : List (BitVec 8)} {i optionStart : Nat} {name : Option (List (BitVec 8))}
  {values : List (List (BitVec 8))} {table : List CmdlineOption}

/-- The parser behind the beginning of a value, or where one could begin. -/
def valueParser (i optionStart : Nat) (current name : Option (List (BitVec 8)))
    (values : List (List (BitVec 8))) (table : List CmdlineOption) : CmdlineParser :=
  match current with
  | none => ⟨.searchValueStart, i, optionStart, none, name, values, table⟩
  | some value => ⟨.searchValueEnd, i, optionStart, some (i - value.length), name, values, table⟩

/-- The text around an index: the beginning of the value before it, and what is left. -/
structure ValueAt (cmdline : List (BitVec 8)) (i : Nat) (current : Option (List (BitVec 8)))
    (tail : List (BitVec 8)) : Prop where
  length_le : (current.getD []).length ≤ i
  drop_eq : cmdline.drop (i - (current.getD []).length) = current.getD [] ++ tail
  chars : ∀ c ∈ current.getD [], c ≠ 0

/-- The copy of the value that was read. -/
theorem ValueAt.since {value : List (BitVec 8)} (h : ValueAt cmdline i (some value) tail)
    {p : CmdlineParser} (hp : p.i = i) : p.since cmdline (i - value.length) = value :=
  CmdlineParser.since_eq h.drop_eq h.chars (hp.trans (Nat.sub_add_cancel h.length_le).symm)

/-- Reading values up to the end of a token. -/
theorem cmdlineLoop_scan {current : Option (List (BitVec 8))} {text : List (BitVec 8)}
    (hchars : ∀ c ∈ text, c ≠ 0 ∧ c ≠ cmdlineSpace) (hat : ValueAt cmdline i current (text ++ tail)) :
    ValueAt cmdline (i + text.length) (scanValues current text).2 tail ∧
      cmdlineLoop cmdline (valueParser i optionStart current name values table) (text ++ tail) =
        cmdlineLoop cmdline (valueParser (i + text.length) optionStart (scanValues current text).2 name
          (values ++ (scanValues current text).1) table) tail := by
  -- the value that is being read and where it began go from character to character
  induction text generalizing i current values with
  | nil => simpa [scanValues] using hat
  | cons c rest ih =>
    obtain ⟨hc, hspace⟩ := hchars c List.mem_cons_self
    have hrest : ∀ x ∈ rest, x ≠ 0 ∧ x ≠ cmdlineSpace := fun x hx =>
      hchars x (List.mem_cons_of_mem c hx)
    have hlength : i + (c :: rest).length = i + 1 + rest.length := by
      rw [List.length_cons, Nat.add_assoc, Nat.add_comm 1]
    rw [hlength, List.cons_append, cmdlineLoop, if_neg hc]
    cases current with
    | none =>
      have hnext : ValueAt cmdline (i + 1) (some [c]) (rest ++ tail) :=
        ⟨Nat.le_add_left 1 i, hat.drop_eq, List.forall_mem_singleton.mpr hc⟩
      rw [valueParser, cmdlineSwitch]
      dsimp only
      rw [if_neg hspace, Option.bind_some]
      exact ih hrest hnext
    | some value =>
      rw [valueParser, cmdlineSwitch, scanValues]
      dsimp only
      rw [if_neg hspace]
      by_cases hcomma : c = cmdlineComma
      · have hdrop := drop_of_append_cons hat.drop_eq
        rw [Nat.sub_add_cancel hat.length_le] at hdrop
        have hnext : ValueAt cmdline (i + 1) none (rest ++ tail) :=
          ⟨Nat.zero_le _, hdrop, List.forall_mem_nil _⟩
        rw [if_pos hcomma, if_pos hcomma, Option.bind_eq_bind, Option.bind_some, Option.bind_some,
          hat.since rfl]
        have hscan := @ih _ (values ++ [value]) _ hrest hnext
        rw [List.append_assoc, List.singleton_append] at hscan
        exact hscan
      · have hstart : i + 1 - (value ++ [c]).length = i - value.length := by
          rw [List.length_append, List.length_singleton, Nat.add_sub_add_right]
        have hnext : ValueAt cmdline (i + 1) (some (value ++ [c])) (rest ++ tail) := by
          refine ⟨?_, ?_, List.forall_mem_append.mpr ⟨hat.chars, List.forall_mem_singleton.mpr hc⟩⟩
          · rw [Option.getD_some, List.length_append]
            exact Nat.succ_le_succ hat.length_le
          · rw [Option.getD_some, hstart, List.append_assoc]
            exact hat.drop_eq
        have hscan := @ih _ values _ hrest hnext
        rw [valueParser, hstart] at hscan
        rw [if_neg hcomma, if_neg hcomma, Option.bind_some]
        exact hscan

/-- Reading a token that has an equals sign, up to its end. -/
theorem cmdlineLoop_rest {token rest : List (BitVec 8)} (hrest : tokenRest token = some rest)
    (hchars : ∀ c ∈ token, c ≠ 0 ∧ c ≠ cmdlineSpace) (hat : cmdline.drop i = token ++ tail)
    (optionStart : Nat) (kept : Carried) (table : List CmdlineOption) :
    ValueAt cmdline (i + token.length) (scanValues none rest).2 tail ∧
      cmdlineLoop cmdline
          ⟨.searchOptionStart, i, optionStart, none, kept.name, kept.values, table⟩ (token ++ tail) =
        cmdlineLoop cmdline (valueParser (i + token.length) i (scanValues none rest).2
          (some (tokenName token)) (kept.values ++ (scanValues none rest).1) table) tail := by
  obtain ⟨htoken, hne, hequals⟩ := token_of_rest_some hrest
  obtain ⟨hname, hrestChars⟩ := forall_mem_tokenName_and_rest hchars
  rw [hrest, Option.getD_some] at hrestChars
  have htext : token ++ tail = tokenName token ++ cmdlineEquals :: (rest ++ tail) := by
    conv_lhs => rw [htoken]
    rw [List.append_assoc, List.cons_append]
  have hlength : i + token.length = i + (tokenName token).length + 1 + rest.length := by
    conv_lhs => rw [htoken]
    rw [List.length_append, List.length_cons]
    omega
  rw [htext] at hat ⊢
  rw [cmdlineLoop_name_equals hne hname hequals hat, hlength]
  exact cmdlineLoop_scan hrestChars ⟨Nat.zero_le _, drop_of_append_cons hat, List.forall_mem_nil _⟩

/-- A token that is followed by a space. -/
theorem cmdlineLoop_token {token : List (BitVec 8)} (hne : token ≠ [])
    (hchars : ∀ c ∈ token, c ≠ 0 ∧ c ≠ cmdlineSpace)
    (hat : cmdline.drop i = token ++ cmdlineSpace :: tail) (kept : Carried) :
    cmdlineLoop cmdline ⟨.searchOptionStart, i, optionStart, none, kept.name, kept.values, table⟩
        (token ++ cmdlineSpace :: tail) =
      cmdlineLoop cmdline
        ⟨.searchOptionStart, i + token.length + 1, i, none, (kept.token token).2.name,
          (kept.token token).2.values, table ++ (kept.token token).1⟩ tail := by
  unfold Carried.token
  cases hrest : tokenRest token with
  | none =>
    rw [cmdlineLoop_name hne hchars (tokenRest_eq_none_iff.mp hrest), cmdlineLoop,
      if_neg (by decide), cmdlineSwitch]
    dsimp only
    rw [if_pos rfl, CmdlineParser.since_eq hat (fun c hc => (hchars c hc).1) rfl]
    rfl
  | some rest =>
    obtain ⟨hvalue, hloop⟩ := cmdlineLoop_rest hrest hchars hat optionStart kept table
    rw [hloop]
    dsimp only
    cases hscanned : (scanValues none rest).2 with
    | none =>
      rw [valueParser, cmdlineLoop, if_neg (by decide), cmdlineSwitch]
      dsimp only
      rw [if_pos rfl, Option.bind_some, List.append_nil]
    | some value =>
      rw [hscanned] at hvalue
      rw [valueParser, cmdlineLoop, if_neg (by decide), cmdlineSwitch]
      dsimp only
      rw [if_pos rfl, Option.bind_eq_bind, Option.bind_some, hvalue.since rfl]
      rfl

/-- Outside a value, what is kept is added at the end. -/
theorem cmdlineFinish_flush (cmdline : List (BitVec 8)) (state : ParserState) (i optionStart : Nat)
    (kept : Carried) (table : List CmdlineOption) :
    cmdlineFinish cmdline ⟨state, i, optionStart, none, kept.name, kept.values, table⟩ =
      some (table ++ kept.flush) := by
  rw [cmdlineFinish, Carried.flush]
  cases kept.name with
  | none => exact congrArg some (List.append_nil table).symm
  | some name => rfl

/-- The last token, behind which the text ends. -/
theorem cmdlineFinish_lastToken {token : List (BitVec 8)}
    (hchars : ∀ c ∈ token, c ≠ 0 ∧ c ≠ cmdlineSpace) (hat : cmdline.drop i = token) (kept : Carried) :
    (cmdlineLoop cmdline ⟨.searchOptionStart, i, optionStart, none, kept.name, kept.values, table⟩
        token).bind (cmdlineFinish cmdline) =
      some (table ++ optionsFrom kept (lastToken token)) := by
  unfold lastToken
  rw [← List.append_nil token] at hat
  cases hrest : tokenRest token with
  | none =>
    rw [if_pos rfl, optionsFrom]
    by_cases hne : token = []
    · rw [hne, cmdlineLoop, Option.bind_some, cmdlineFinish_flush]
    · rw [← List.append_nil token, cmdlineLoop_name hne hchars (tokenRest_eq_none_iff.mp hrest),
        cmdlineLoop, Option.bind_some, cmdlineFinish_flush]
  | some rest =>
    obtain ⟨hvalue, hloop⟩ := cmdlineLoop_rest hrest hchars hat optionStart kept table
    rw [List.append_nil] at hloop
    rw [hloop, if_neg (by simp), optionsFrom, optionsFrom, Carried.token, hrest]
    dsimp only
    rw [cmdlineLoop, Option.bind_some]
    cases hscanned : (scanValues none rest).2 with
    | none => exact cmdlineFinish_flush _ _ _ _ ⟨some (tokenName token), _⟩ _
    | some value =>
      rw [hscanned] at hvalue
      rw [valueParser, cmdlineFinish]
      dsimp only
      rw [hvalue.since rfl]
      rfl

/-- The rest of a text from the start of a piece on: pieces that are followed by spaces, and the last
one. -/
theorem cmdlineParse_pieces {front : List (List (BitVec 8))} {last : List (BitVec 8)}
    (hchars : ∀ w ∈ front ++ [last], ∀ c ∈ w, c ≠ 0 ∧ c ≠ cmdlineSpace)
    (hat : cmdline.drop i = (front.flatMap fun w => w ++ [cmdlineSpace]) ++ last) (optionStart : Nat)
    (kept : Carried) (table : List CmdlineOption) :
    (cmdlineLoop cmdline ⟨.searchOptionStart, i, optionStart, none, kept.name, kept.values, table⟩
        ((front.flatMap fun w => w ++ [cmdlineSpace]) ++ last)).bind (cmdlineFinish cmdline) =
      some (table ++ optionsFrom kept (front.filter (· ≠ []) ++ lastToken last)) := by
  induction front generalizing i optionStart kept table with
  | nil => exact cmdlineFinish_lastToken (hchars last List.mem_cons_self) hat kept
  | cons w rest ih =>
    have hrest : ∀ x ∈ rest ++ [last], ∀ c ∈ x, c ≠ 0 ∧ c ≠ cmdlineSpace := fun x hx =>
      hchars x (List.mem_cons_of_mem w hx)
    have hw := hchars w List.mem_cons_self
    rw [List.flatMap_cons, List.append_assoc, List.append_assoc, List.singleton_append] at hat ⊢
    have hnext := drop_of_append_cons hat
    by_cases hne : w = []
    · subst hne
      rw [List.filter_cons_of_neg (by simp), List.nil_append, cmdlineLoop, if_neg (by decide),
        cmdlineSwitch]
      exact ih hrest hnext optionStart kept table
    · rw [List.filter_cons_of_pos (by simpa), List.cons_append, optionsFrom, ← List.append_assoc,
        cmdlineLoop_token hne hw hat kept]
      exact ih hrest hnext i _ _

end Scan

/-- The pieces between the separators of a text have its characters, but no separator. -/
theorem mem_of_mem_splitOn {α : Type*} [DecidableEq α] {sep : α} {text w : List α}
    (h : w ∈ text.splitOn sep) : ∀ c ∈ w, c ∈ text ∧ c ≠ sep := by
  induction text generalizing w with
  | nil =>
    obtain rfl := List.mem_singleton.mp h
    exact List.forall_mem_nil _
  | cons x rest ih =>
    have hskip {v : List α} (hv : v ∈ rest.splitOn sep) : ∀ c ∈ v, c ∈ x :: rest ∧ c ≠ sep := by
      intro c hc
      exact ⟨List.mem_cons_of_mem x (ih hv c hc).1, (ih hv c hc).2⟩
    rw [List.splitOn_cons_eq_if_modifyHead] at h
    split at h
    · obtain rfl | h := List.mem_cons.mp h
      · exact List.forall_mem_nil _
      · exact hskip h
    · rename_i hx
      obtain ⟨first, others, hrest⟩ := List.exists_cons_of_ne_nil (List.splitOn_ne_nil sep rest)
      rw [hrest, List.modifyHead_cons] at h
      obtain rfl | h := List.mem_cons.mp h
      · have hfirst := hskip (hrest ▸ List.mem_cons_self)
        exact List.forall_mem_cons.mpr ⟨⟨List.mem_cons_self, by simpa using hx⟩, hfirst⟩
      · exact hskip (hrest ▸ List.mem_cons_of_mem first h)

/-- What is parsed: the options of the tokens, without a last one that does not count. -/
theorem cmdlineParse_eq_optionsFrom (table : List CmdlineOption) {text : List (BitVec 8)}
    (htext : ∀ c ∈ text, c ≠ 0) {front : List (List (BitVec 8))} {last : List (BitVec 8)}
    (hsplit : text.splitOn cmdlineSpace = front ++ [last]) :
    cmdlineParse table text =
      some (table ++ optionsFrom ⟨none, []⟩ (front.filter (· ≠ []) ++ lastToken last)) := by
  have hpieces : text = (front.flatMap fun w => w ++ [cmdlineSpace]) ++ last := by
    rw [← intercalate_concat, ← hsplit, List.intercalate_splitOn]
  have hchars : ∀ w ∈ front ++ [last], ∀ c ∈ w, c ≠ 0 ∧ c ≠ cmdlineSpace := by
    intro w hw c hc
    rw [← hsplit] at hw
    obtain ⟨hmem, hne⟩ := mem_of_mem_splitOn hw c hc
    exact ⟨htext c hmem, hne⟩
  have hat : text.drop 0 = (front.flatMap fun w => w ++ [cmdlineSpace]) ++ last := hpieces
  have hparse := cmdlineParse_pieces hchars hat (2 ^ 32 - 1) ⟨none, []⟩ table
  rw [← hpieces] at hparse
  exact hparse

section Correspondence

variable {token : List (BitVec 8)} {tokens : List (List (BitVec 8))}

/-- A token adds its option or keeps it, but not both. -/
theorem Carried.length_token (kept : Carried) (token : List (BitVec 8)) :
    (kept.token token).1.length + (kept.token token).2.flush.length = 1 := by
  unfold Carried.token Carried.flush
  cases tokenRest token with
  | none => rfl
  | some rest =>
    dsimp only
    cases (scanValues none rest).2 with
    | none => rfl
    | some value => rfl

/-- A token that dangles adds no option. -/
theorem Dangles.token_eq (h : Dangles token) (kept : Carried) : (kept.token token).1 = [] := by
  obtain ⟨rest, hrest, hscanned⟩ := Option.map_eq_some_iff.mp h
  rw [Carried.token, hrest]
  dsimp only
  rw [hscanned]

/-- The options of at least one token are not more than the tokens. -/
theorem length_optionsFrom_cons_le (kept : Carried) (token : List (BitVec 8))
    (tokens : List (List (BitVec 8))) :
    (optionsFrom kept (token :: tokens)).length ≤ (token :: tokens).length := by
  induction tokens generalizing kept token with
  | nil =>
    rw [optionsFrom, optionsFrom, List.length_append, kept.length_token]
    rfl
  | cons next tokens ih =>
    have hone := kept.length_token token
    have hrest := ih (kept.token token).2 next
    rw [optionsFrom, List.length_append, List.length_cons]
    omega

/-- The options are not more than the tokens if no name was kept before. -/
theorem length_optionsFrom_le (tokens : List (List (BitVec 8))) :
    (optionsFrom ⟨none, []⟩ tokens).length ≤ tokens.length := by
  cases tokens with
  | nil => exact Nat.le_refl 0
  | cons token tokens => exact length_optionsFrom_cons_le _ token tokens

/-- They are fewer if a token dangles that is not the last one. -/
theorem length_optionsFrom_lt {kept : Carried} (htoken : token ∈ tokens.dropLast)
    (h : Dangles token) : (optionsFrom kept tokens).length < tokens.length := by
  induction tokens generalizing kept with
  | nil => cases htoken
  | cons first tokens ih =>
    cases tokens with
    | nil => cases htoken
    | cons next tokens =>
      have hone := kept.length_token first
      have hrest := length_optionsFrom_cons_le (kept.token first).2 next tokens
      rw [optionsFrom, List.length_append, List.length_cons (a := first)]
      rw [List.dropLast_cons_cons] at htoken
      obtain rfl | htoken := List.mem_cons.mp htoken
      · -- it adds nothing, and what it keeps is lost or replaced by the next token
        rw [h.token_eq kept, List.length_nil]
        omega
      · have hlt := @ih (kept.token first).2 htoken
        omega

/-- The option that is added for a token and values that are pieces of it. -/
theorem optionOf_optionAdded (hchars : ∀ c ∈ token, c ≠ 0) {values : List (List (BitVec 8))}
    (hvalues : Pieces values ((tokenRest token).getD [])) :
    OptionOf token (optionAdded (tokenName token) values) := by
  obtain ⟨hname, hrest⟩ := forall_mem_tokenName_and_rest hchars
  have hcopies : values.map strdup = values := by
    rw [List.map_congr_left (g := id), List.map_id]
    exact fun v hv => strdup_of_forall_ne fun c hc => hrest c (hvalues.mem v hv c hc)
  refine ⟨strdup_of_forall_ne hname, ?_, ?_⟩
  · exact (List.length_map strdup).symm
  · rw [optionAdded, hcopies]
    exact hvalues

/-- The first token: its option is added, and nothing is kept, or it dangles and its option is kept. -/
theorem token_start_cases (hchars : ∀ c ∈ token, c ≠ 0) :
    ∃ option, OptionOf token option ∧
      (Carried.token ⟨none, []⟩ token = ([option], ⟨none, []⟩) ∨
        Dangles token ∧ (Carried.token ⟨none, []⟩ token).1 = [] ∧
          (Carried.token ⟨none, []⟩ token).2.flush = [option]) := by
  cases hrest : tokenRest token with
  | none =>
    have hoption : OptionOf token (optionAdded (tokenName token) []) := optionOf_optionAdded hchars .nil
    rw [tokenName_of_rest_none hrest] at hoption
    refine ⟨_, hoption, .inl ?_⟩
    rw [Carried.token, hrest]
  | some rest =>
    have hpieces : Pieces ((scanValues none rest).1 ++ (scanValues none rest).2.toList)
        ((tokenRest token).getD []) := by
      rw [hrest]
      exact @scanValues_pieces none (by simp) rest
    refine ⟨_, optionOf_optionAdded hchars hpieces, ?_⟩
    rw [Dangles, Carried.token, hrest, Option.map_some]
    dsimp only
    cases (scanValues none rest).2 with
    | none =>
      right
      rw [Option.toList_none, List.append_nil]
      exact ⟨rfl, rfl, rfl⟩
    | some value => exact .inl rfl

/-- Tokens of which none but the last dangles become options of their own. -/
theorem forall₂_optionsFrom (hchars : ∀ token ∈ tokens, ∀ c ∈ token, c ≠ 0)
    (h : ∀ token ∈ tokens.dropLast, ¬ Dangles token) :
    List.Forall₂ OptionOf tokens (optionsFrom ⟨none, []⟩ tokens) := by
  induction tokens with
  | nil => exact .nil
  | cons token tokens ih =>
    obtain ⟨htoken, hchars⟩ := List.forall_mem_cons.mp hchars
    obtain ⟨option, hoption, hadded | ⟨hdangles, hnone, hkept⟩⟩ := token_start_cases htoken
    · rw [optionsFrom, hadded]
      refine .cons hoption (ih hchars fun t ht => ?_)
      cases tokens with
      | nil => cases ht
      | cons next tokens => exact h t (List.mem_cons_of_mem token ht)
    · cases tokens with
      | nil =>
        rw [optionsFrom, optionsFrom, hnone, hkept]
        exact .cons hoption .nil
      | cons next tokens =>
        rw [List.dropLast_cons_cons] at h
        exact absurd hdangles (h token List.mem_cons_self)

/-- The last token counts, unless it has no equals sign. -/
theorem lastToken_eq (h : token = [] ∨ cmdlineEquals ∈ token.tail) :
    lastToken token = [token].filter (· ≠ []) := by
  obtain rfl | hequals := h
  · rfl
  · have hne : token ≠ [] := List.ne_nil_of_mem (List.mem_of_mem_tail hequals)
    have hrest : tokenRest token ≠ none := fun hnone => tokenRest_eq_none_iff.mp hnone hequals
    rw [lastToken, if_neg hrest, List.filter_cons_of_pos (by simpa), List.filter_nil]

end Correspondence

/-- The options that are added are the tokens', one for each and in order, exactly if no token but the
last ends where a value could begin, and what is behind the last space has an equals sign or is
empty. -/
theorem cmdlineParse_tokens_iff (table : List CmdlineOption) {text : List (BitVec 8)}
    (htext : ∀ c ∈ text, c ≠ 0) :
    ∃ options, cmdlineParse table text = some (table ++ options) ∧
      (List.Forall₂ OptionOf (cmdlineTokens text) options ↔
        (∀ token ∈ (cmdlineTokens text).dropLast, ¬ Dangles token) ∧
          ∀ last, (text.splitOn cmdlineSpace).getLast? = some last →
            last = [] ∨ cmdlineEquals ∈ last.tail) := by
  obtain hnil | ⟨front, last, hsplit⟩ := (text.splitOn cmdlineSpace).eq_nil_or_concat'
  · exact absurd hnil (List.splitOn_ne_nil _ _)
  refine ⟨_, cmdlineParse_eq_optionsFrom table htext hsplit, ?_⟩
  have hlastPiece : (text.splitOn cmdlineSpace).getLast? = some last := by
    rw [hsplit, List.getLast?_concat]
  have htokens : cmdlineTokens text = front.filter (· ≠ []) ++ [last].filter (· ≠ []) := by
    rw [cmdlineTokens, hsplit, List.filter_append]
  constructor
  · intro hforall
    have hlength := hforall.length_eq
    -- in both cases there would be fewer options than tokens
    have hlast : last = [] ∨ cmdlineEquals ∈ last.tail := by
      by_contra hnot
      obtain ⟨hne, hequals⟩ := not_or.mp hnot
      have hle := length_optionsFrom_le (front.filter (· ≠ []))
      rw [htokens, lastToken, if_pos (tokenRest_eq_none_iff.mpr hequals), List.append_nil,
        List.filter_cons_of_pos (by simpa), List.filter_nil, List.length_append,
        List.length_singleton] at hlength
      omega
    rw [lastToken_eq hlast, ← htokens] at hlength
    refine ⟨fun token htoken hdangles => ?_, fun w hw => ?_⟩
    · exact (length_optionsFrom_lt htoken hdangles).ne hlength.symm
    · obtain rfl := Option.some.inj (hlastPiece.symm.trans hw)
      exact hlast
  · rintro ⟨hdangles, hlast⟩
    rw [lastToken_eq (hlast last hlastPiece), ← htokens]
    refine forall₂_optionsFrom (fun token htoken c hc => ?_) hdangles
    exact htext c (mem_of_mem_splitOn (List.mem_filter.mp htoken).1 c hc).1

/-- The command line `a=1 b c=2,`. -/
def separateTokens : List (BitVec 8) := [0x61, 0x3d, 0x31, 0x20, 0x62, 0x20, 0x63, 0x3d, 0x32, 0x2c]

theorem cmdlineParse_tokens_separate :
    ∃ options, cmdlineParse [] separateTokens = some options ∧
      List.Forall₂ OptionOf (cmdlineTokens separateTokens) options := by
  obtain ⟨options, hparse, hiff⟩ :=
    cmdlineParse_tokens_iff [] (by decide : ∀ c ∈ separateTokens, c ≠ 0)
  have hlast : (separateTokens.splitOn cmdlineSpace).getLast? = some [0x63, 0x3d, 0x32, 0x2c] := by
    decide
  refine ⟨options, hparse, hiff.mpr ⟨by decide, fun last h => .inr ?_⟩⟩
  obtain rfl := Option.some.inj (hlast.symm.trans h)
  decide

/-- The command line `a=1, b c=2`. -/
def mixedTokens : List (BitVec 8) := [0x61, 0x3d, 0x31, 0x2c, 0x20, 0x62, 0x20, 0x63, 0x3d, 0x32]

/-- The name of its first token is lost, and the value of that token becomes a value of both other
options. -/
theorem cmdlineParse_mixes_tokens :
    cmdlineParse [] mixedTokens =
        some [⟨[0x62], 1, [[0x31]]⟩, ⟨[0x63], 2, [[0x31], [0x32]]⟩] ∧
      cmdlineTokens mixedTokens = [[0x61, 0x3d, 0x31, 0x2c], [0x62], [0x63, 0x3d, 0x32]] ∧
      ¬ List.Forall₂ OptionOf (cmdlineTokens mixedTokens)
        [⟨[0x62], 1, [[0x31]]⟩, ⟨[0x63], 2, [[0x31], [0x32]]⟩] := by
  refine ⟨by decide, by decide, fun h => ?_⟩
  have hlength := h.length_eq
  revert hlength
  decide

end ChrisOS.Kern
