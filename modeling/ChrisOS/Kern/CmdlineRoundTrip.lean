import ChrisOS.Kern.Cmdline

/-!
# Command lines are parsed back

A list of options is written with a space between options and, for an option with values, an equals
sign and commas between the values. The parser gets back every option that is followed by a space
and a last one that has values. A last option without values is lost: its name is copied only when
a space or an equals sign is seen.
-/

namespace ChrisOS.Kern

open ChrisOS.Utils

/-- An option as it can be written. -/
structure WrittenOption where
  name : List (BitVec 8)
  values : List (List (BitVec 8))
  name_ne : name ≠ []
  name_chars : ∀ c ∈ name, c ≠ 0 ∧ c ≠ cmdlineSpace ∧ c ≠ cmdlineEquals
  values_ne : ∀ v ∈ values, v ≠ []
  values_chars : ∀ v ∈ values, ∀ c ∈ v, c ≠ 0 ∧ c ≠ cmdlineSpace ∧ c ≠ cmdlineComma

/-- The text of an option. -/
def WrittenOption.text (o : WrittenOption) : List (BitVec 8) :=
  if o.values = [] then o.name
  else o.name ++ cmdlineEquals :: [cmdlineComma].intercalate o.values

/-- The text of a command line. -/
def cmdlineText (options : List WrittenOption) : List (BitVec 8) :=
  [cmdlineSpace].intercalate (options.map WrittenOption.text)

/-- The option in the table. -/
def WrittenOption.parsed (o : WrittenOption) : CmdlineOption := ⟨o.name, o.values.length, o.values⟩

section Separators

variable {α : Type*}

/-- Every item but the last is followed by the separator. -/
theorem intercalate_concat (sep : α) (front : List (List α)) (last : List α) :
    [sep].intercalate (front ++ [last]) = (front.flatMap fun w => w ++ [sep]) ++ last := by
  induction front with
  | nil => rw [List.nil_append, List.intercalate_singleton, List.flatMap_nil, List.nil_append]
  | cons w rest ih =>
    obtain ⟨next, rest', hrest⟩ := List.exists_cons_of_ne_nil (List.concat_ne_nil last rest)
    rw [List.cons_append, hrest, List.intercalate_cons_cons, ← hrest, ih, List.flatMap_cons]
    simp

/-- The first item, its separator and the others. -/
theorem flatMap_separated_cons {β : Type*} (f : β → List α) (sep : α) (first : β) (rest : List β)
    (tail : List α) :
    ((first :: rest).flatMap fun x => f x ++ [sep]) ++ tail =
      f first ++ sep :: ((rest.flatMap fun x => f x ++ [sep]) ++ tail) := by
  simp

variable {text w tail : List α} {i : Nat}

/-- The text after what was read. -/
theorem drop_of_append (hat : text.drop i = w ++ tail) : text.drop (i + w.length) = tail := by
  rw [← List.drop_drop, hat, List.drop_left]

/-- The text after what was read and a separator. -/
theorem drop_of_append_cons {sep : α} (hat : text.drop i = w ++ sep :: tail) :
    text.drop (i + w.length + 1) = tail := by
  rw [← List.drop_drop, drop_of_append hat, List.drop_succ_cons, List.drop_zero]

end Separators

section Chunks

variable {cmdline tail w : List (BitVec 8)}

/-- Characters on which the parser only moves on. -/
theorem cmdlineLoop_chunk {p : CmdlineParser}
    (hstay : ∀ c ∈ w, c ≠ 0 ∧ ∀ i, cmdlineSwitch cmdline { p with i := i } c = some { p with i := i })
    (tail : List (BitVec 8)) :
    cmdlineLoop cmdline p (w ++ tail) = cmdlineLoop cmdline { p with i := p.i + w.length } tail := by
  induction w generalizing p with
  | nil => rfl
  | cons c rest ih =>
    obtain ⟨hc, hswitch⟩ := hstay c List.mem_cons_self
    calc cmdlineLoop cmdline p (c :: (rest ++ tail))
      _ = cmdlineLoop cmdline { p with i := p.i + 1 } (rest ++ tail) := by
        rw [cmdlineLoop, if_neg hc, hswitch p.i]
        rfl
      _ = cmdlineLoop cmdline { p with i := p.i + 1 + rest.length } tail :=
        ih fun x hx => hstay x (List.mem_cons_of_mem c hx)
      _ = _ := by rw [List.length_cons, Nat.add_assoc, Nat.add_comm 1]

/-- A word: its first character takes the parser to a state in which the others only move on. -/
theorem cmdlineLoop_word {p q : CmdlineParser} (hne : w ≠ []) (hw : ∀ c ∈ w, c ≠ 0)
    (hfirst : ∀ c ∈ w, cmdlineSwitch cmdline p c = some q)
    (hstay : ∀ c ∈ w.tail, ∀ i, cmdlineSwitch cmdline { q with i := i } c = some { q with i := i })
    (tail : List (BitVec 8)) :
    cmdlineLoop cmdline p (w ++ tail) = cmdlineLoop cmdline { q with i := q.i + w.length } tail := by
  obtain ⟨c, rest, rfl⟩ := List.exists_cons_of_ne_nil hne
  have hc := List.mem_cons_self (a := c) (l := rest)
  calc cmdlineLoop cmdline p (c :: (rest ++ tail))
    _ = cmdlineLoop cmdline { q with i := q.i + 1 } (rest ++ tail) := by
      rw [cmdlineLoop, if_neg (hw c hc), hfirst c hc, Option.bind_some]
    _ = cmdlineLoop cmdline { q with i := q.i + 1 + rest.length } tail :=
      cmdlineLoop_chunk (p := { q with i := q.i + 1 }) (fun x hx =>
        ⟨hw x (List.mem_cons_of_mem c hx), hstay x hx⟩) tail
    _ = _ := by rw [List.length_cons, Nat.add_assoc, Nat.add_comm 1]

variable {i optionStart start : Nat} {name : Option (List (BitVec 8))}
  {valueStart : Option Nat} {values : List (List (BitVec 8))} {table : List CmdlineOption}

/-- A name is read from its first character on, which may be an equals sign. -/
theorem cmdlineLoop_name (hne : w ≠ []) (hchars : ∀ c ∈ w, c ≠ 0 ∧ c ≠ cmdlineSpace)
    (hequals : cmdlineEquals ∉ w.tail) (tail : List (BitVec 8)) :
    cmdlineLoop cmdline ⟨.searchOptionStart, i, optionStart, valueStart, name, values, table⟩
        (w ++ tail) =
      cmdlineLoop cmdline ⟨.searchOptionEnd, i + w.length, i, valueStart, name, values, table⟩
        tail := by
  apply cmdlineLoop_word hne (fun c hc => (hchars c hc).1)
    (q := ⟨.searchOptionEnd, i, i, valueStart, name, values, table⟩)
  · intro c hc
    exact if_pos (hchars c hc).2
  · intro c hc j
    have hspace := (hchars c (List.mem_of_mem_tail hc)).2
    have hnot : c ≠ cmdlineEquals := fun h => hequals (h ▸ hc)
    simp only [cmdlineSwitch, if_neg hspace, if_neg hnot]

/-- A value is read from its first character on. -/
theorem cmdlineLoop_value (hne : w ≠ [])
    (hchars : ∀ c ∈ w, c ≠ 0 ∧ c ≠ cmdlineSpace ∧ c ≠ cmdlineComma) (tail : List (BitVec 8)) :
    cmdlineLoop cmdline ⟨.searchValueStart, i, optionStart, valueStart, name, values, table⟩
        (w ++ tail) =
      cmdlineLoop cmdline ⟨.searchValueEnd, i + w.length, optionStart, some i, name, values, table⟩
        tail := by
  apply cmdlineLoop_word hne (fun c hc => (hchars c hc).1)
    (q := ⟨.searchValueEnd, i, optionStart, some i, name, values, table⟩)
  · intro c hc
    exact if_neg (hchars c hc).2.1
  · intro c hc j
    obtain ⟨-, hspace, hcomma⟩ := hchars c (List.mem_of_mem_tail hc)
    simp only [cmdlineSwitch, if_neg hspace, if_neg hcomma]

/-- The copy of what was read. -/
theorem CmdlineParser.since_eq {p : CmdlineParser} (hat : cmdline.drop i = w ++ tail)
    (hw : ∀ c ∈ w, c ≠ 0) (hi : p.i = i + w.length) : p.since cmdline i = w := by
  rw [since, hat, hi, Nat.add_sub_cancel_left, strndup_append hw]

/-- A name and an equals sign. -/
theorem cmdlineLoop_name_equals (hne : w ≠ []) (hchars : ∀ c ∈ w, c ≠ 0 ∧ c ≠ cmdlineSpace)
    (hequals : cmdlineEquals ∉ w.tail)
    (hat : cmdline.drop i = w ++ cmdlineEquals :: tail) :
    cmdlineLoop cmdline ⟨.searchOptionStart, i, optionStart, valueStart, name, values, table⟩
        (w ++ cmdlineEquals :: tail) =
      cmdlineLoop cmdline
        ⟨.searchValueStart, i + w.length + 1, i, valueStart, some w, values, table⟩ tail := by
  rw [cmdlineLoop_name hne hchars hequals, cmdlineLoop, if_neg (by decide), cmdlineSwitch]
  dsimp only
  rw [if_neg (by decide), if_pos rfl, Option.bind_some,
    CmdlineParser.since_eq hat (fun c hc => (hchars c hc).1) rfl]

/-- A value and a comma. -/
theorem cmdlineLoop_value_comma (hne : w ≠ [])
    (hchars : ∀ c ∈ w, c ≠ 0 ∧ c ≠ cmdlineSpace ∧ c ≠ cmdlineComma)
    (hat : cmdline.drop i = w ++ cmdlineComma :: tail) :
    cmdlineLoop cmdline ⟨.searchValueStart, i, optionStart, none, name, values, table⟩
        (w ++ cmdlineComma :: tail) =
      cmdlineLoop cmdline
        ⟨.searchValueStart, i + w.length + 1, optionStart, none, name, values ++ [w], table⟩
        tail := by
  rw [cmdlineLoop_value hne hchars, cmdlineLoop, if_neg (by decide), cmdlineSwitch]
  dsimp only
  rw [if_neg (by decide), if_pos rfl, Option.bind_eq_bind, Option.bind_some, Option.bind_some,
    CmdlineParser.since_eq hat (fun c hc => (hchars c hc).1) rfl]

/-- Values that are followed by commas. -/
theorem cmdlineLoop_values {front : List (List (BitVec 8))} (hne : ∀ v ∈ front, v ≠ [])
    (hchars : ∀ v ∈ front, ∀ c ∈ v, c ≠ 0 ∧ c ≠ cmdlineSpace ∧ c ≠ cmdlineComma)
    (hat : cmdline.drop i = (front.flatMap fun v => v ++ [cmdlineComma]) ++ tail) :
    cmdlineLoop cmdline ⟨.searchValueStart, i, optionStart, none, name, values, table⟩
        ((front.flatMap fun v => v ++ [cmdlineComma]) ++ tail) =
      cmdlineLoop cmdline
        ⟨.searchValueStart, i + (front.flatMap fun v => v ++ [cmdlineComma]).length, optionStart,
          none, name, values ++ front, table⟩ tail := by
  induction front generalizing i values with
  | nil => simp
  | cons v rest ih =>
    rw [flatMap_separated_cons] at hat ⊢
    rw [cmdlineLoop_value_comma (hne v List.mem_cons_self) (hchars v List.mem_cons_self) hat,
      ih (fun x hx => hne x (List.mem_cons_of_mem v hx))
        (fun x hx => hchars x (List.mem_cons_of_mem v hx)) (drop_of_append_cons hat)]
    simp [Nat.add_assoc, Nat.add_comm 1]

end Chunks

section Options

variable {cmdline tail : List (BitVec 8)} {i optionStart : Nat} {table : List CmdlineOption}
  {o : WrittenOption}

/-- The characters of a name are read as one word. -/
theorem WrittenOption.name_word (o : WrittenOption) : ∀ c ∈ o.name, c ≠ 0 ∧ c ≠ cmdlineSpace :=
  fun c hc => ⟨(o.name_chars c hc).1, (o.name_chars c hc).2.1⟩

/-- A name has no equals sign. -/
theorem WrittenOption.equals_notMem_name (o : WrittenOption) : cmdlineEquals ∉ o.name.tail :=
  fun h => (o.name_chars _ (List.mem_of_mem_tail h)).2.2 rfl

/-- Copying a name that was written. -/
theorem WrittenOption.strdup_name (o : WrittenOption) : strdup o.name = o.name :=
  strdup_of_forall_ne fun c hc => (o.name_chars c hc).1

/-- Copying values that were written. -/
theorem WrittenOption.map_strdup_values (o : WrittenOption) : o.values.map strdup = o.values := by
  rw [List.map_congr_left (g := id), List.map_id]
  exact fun v hv => strdup_of_forall_ne fun c hc => (o.values_chars v hv c hc).1

variable {front : List (List (BitVec 8))} {last : List (BitVec 8)}

/-- The last value is one of the values. -/
theorem WrittenOption.last_mem (h : o.values = front ++ [last]) : last ∈ o.values :=
  h ▸ List.mem_append_right front (List.mem_singleton_self last)

/-- The last value has no zero byte. -/
theorem WrittenOption.last_chars (h : o.values = front ++ [last]) : ∀ c ∈ last, c ≠ 0 :=
  fun c hc => (o.values_chars last (last_mem h) c hc).1

/-- Adding an option that was written. -/
theorem WrittenOption.cmdlineOptionAdd_eq (o : WrittenOption) (table : List CmdlineOption) :
    cmdlineOptionAdd table (some o.name) o.values = some (table ++ [o.parsed]) := by
  rw [cmdlineOptionAdd, Option.map_some, o.strdup_name, o.map_strdup_values]
  rfl

/-- The text of an option without values. -/
theorem WrittenOption.text_of_nil (h : o.values = []) : o.text = o.name := if_pos h

/-- The text of an option with values. -/
theorem WrittenOption.text_of_concat (h : o.values = front ++ [last]) :
    o.text = o.name ++ cmdlineEquals :: ((front.flatMap fun v => v ++ [cmdlineComma]) ++ last) := by
  rw [text, h, if_neg (List.concat_ne_nil last front), intercalate_concat]

/-- Reading an option without values. -/
theorem cmdlineLoop_flag (h : o.values = []) (tail : List (BitVec 8)) :
    cmdlineLoop cmdline ⟨.searchOptionStart, i, optionStart, none, none, [], table⟩
        (o.text ++ tail) =
      cmdlineLoop cmdline ⟨.searchOptionEnd, i + o.text.length, i, none, none, [], table⟩ tail := by
  rw [o.text_of_nil h]
  exact cmdlineLoop_name o.name_ne o.name_word o.equals_notMem_name tail

/-- Reading an option with values, up to the end of the last one. -/
theorem cmdlineLoop_setting (h : o.values = front ++ [last]) (hat : cmdline.drop i = o.text ++ tail) :
    ∃ start, cmdline.drop start = last ++ tail ∧ i + o.text.length = start + last.length ∧
      cmdlineLoop cmdline ⟨.searchOptionStart, i, optionStart, none, none, [], table⟩
          (o.text ++ tail) =
        cmdlineLoop cmdline
          ⟨.searchValueEnd, start + last.length, i, some start, some o.name, front, table⟩ tail := by
  have hfront : ∀ v ∈ front, v ∈ o.values := fun v hv => h ▸ List.mem_append_left _ hv
  have hlast := WrittenOption.last_mem h
  have htext : o.text ++ tail = o.name ++ cmdlineEquals ::
      ((front.flatMap fun v => v ++ [cmdlineComma]) ++ (last ++ tail)) := by
    rw [WrittenOption.text_of_concat h]
    simp
  rw [htext] at hat ⊢
  have hvalues := drop_of_append_cons hat
  refine ⟨_, drop_of_append hvalues, ?_, ?_⟩
  · rw [WrittenOption.text_of_concat h]
    simp
    omega
  · rw [cmdlineLoop_name_equals o.name_ne o.name_word o.equals_notMem_name hat,
      cmdlineLoop_values (fun v hv => o.values_ne v (hfront v hv))
        (fun v hv => o.values_chars v (hfront v hv)) hvalues, List.nil_append,
      cmdlineLoop_value (o.values_ne last hlast) (o.values_chars last hlast)]

/-- An option that is followed by a space is added. -/
theorem cmdlineLoop_option (hat : cmdline.drop i = o.text ++ cmdlineSpace :: tail) :
    cmdlineLoop cmdline ⟨.searchOptionStart, i, optionStart, none, none, [], table⟩
        (o.text ++ cmdlineSpace :: tail) =
      cmdlineLoop cmdline
        ⟨.searchOptionStart, i + o.text.length + 1, i, none, none, [], table ++ [o.parsed]⟩ tail := by
  have hadd := o.cmdlineOptionAdd_eq table
  obtain hflag | ⟨front, last, hvalues⟩ := o.values.eq_nil_or_concat'
  · have hname : ∀ c ∈ o.text, c ≠ 0 := fun c hc =>
      (o.name_chars c (o.text_of_nil hflag ▸ hc)).1
    rw [cmdlineLoop_flag hflag, cmdlineLoop, if_neg (by decide), cmdlineSwitch]
    dsimp only
    rw [if_pos rfl, CmdlineParser.since_eq hat hname rfl, o.text_of_nil hflag, ← hflag, hadd]
    rfl
  · obtain ⟨start, hlast, hend, hloop⟩ := cmdlineLoop_setting hvalues hat
    rw [hloop, cmdlineLoop, if_neg (by decide), cmdlineSwitch]
    dsimp only
    rw [if_pos rfl, Option.bind_eq_bind, Option.bind_some,
      CmdlineParser.since_eq hlast (WrittenOption.last_chars hvalues) rfl, ← hvalues, hadd, hend]
    rfl

/-- Options that are followed by spaces are added in order. -/
theorem cmdlineLoop_options (optionStart : Nat) (table : List CmdlineOption)
    {front : List WrittenOption}
    (hat : cmdline.drop i = (front.flatMap fun o => o.text ++ [cmdlineSpace]) ++ tail) :
    ∃ optionStart', cmdlineLoop cmdline
        ⟨.searchOptionStart, i, optionStart, none, none, [], table⟩
        ((front.flatMap fun o => o.text ++ [cmdlineSpace]) ++ tail) =
      cmdlineLoop cmdline
        ⟨.searchOptionStart, i + (front.flatMap fun o => o.text ++ [cmdlineSpace]).length,
          optionStart', none, none, [], table ++ front.map WrittenOption.parsed⟩ tail := by
  induction front generalizing i optionStart table with
  | nil => exact ⟨optionStart, by simp⟩
  | cons o rest ih =>
    rw [flatMap_separated_cons] at hat ⊢
    obtain ⟨optionStart', hrest⟩ := ih i (table ++ [o.parsed]) (drop_of_append_cons hat)
    refine ⟨optionStart', ?_⟩
    rw [cmdlineLoop_option hat, hrest]
    simp [Nat.add_assoc, Nat.add_comm 1]

/-- The last option is added if it has values. -/
theorem cmdlineFinish_last (hat : cmdline.drop i = o.text) :
    (cmdlineLoop cmdline ⟨.searchOptionStart, i, optionStart, none, none, [], table⟩ o.text).bind
        (cmdlineFinish cmdline) =
      some (if o.values = [] then table else table ++ [o.parsed]) := by
  rw [← List.append_nil o.text] at hat ⊢
  obtain hflag | ⟨front, last, hvalues⟩ := o.values.eq_nil_or_concat'
  · rw [cmdlineLoop_flag hflag, if_pos hflag]
    rfl
  · obtain ⟨start, hlast, -, hloop⟩ := cmdlineLoop_setting hvalues hat
    have hne : o.values ≠ [] := hvalues ▸ List.concat_ne_nil last front
    rw [hloop, cmdlineLoop, Option.bind_some, cmdlineFinish]
    dsimp only
    rw [CmdlineParser.since_eq hlast (WrittenOption.last_chars hvalues) rfl, ← hvalues,
      o.cmdlineOptionAdd_eq table, if_neg hne]

/-- The text of a command line is the options but the last, each followed by a space, and the
last. -/
theorem cmdlineText_concat (front : List WrittenOption) (last : WrittenOption) :
    cmdlineText (front ++ [last]) =
      (front.flatMap fun o => o.text ++ [cmdlineSpace]) ++ last.text := by
  rw [cmdlineText, List.map_append, List.map_singleton, intercalate_concat, List.flatMap_map]

/-- What is parsed: all options, but not a last one without values. -/
theorem cmdlineParse_concat (table : List CmdlineOption) (front : List WrittenOption)
    (last : WrittenOption) :
    cmdlineParse table (cmdlineText (front ++ [last])) =
      some (table ++ if last.values = [] then front.map WrittenOption.parsed
        else (front ++ [last]).map WrittenOption.parsed) := by
  generalize hcmdline : cmdlineText (front ++ [last]) = cmdline
  rw [cmdlineText_concat] at hcmdline
  have hat : cmdline.drop 0 = (front.flatMap fun o => o.text ++ [cmdlineSpace]) ++ last.text := by
    rw [List.drop_zero, hcmdline]
  obtain ⟨optionStart, hfront⟩ := cmdlineLoop_options (2 ^ 32 - 1) table hat
  rw [hcmdline] at hfront
  rw [cmdlineParse, hfront, cmdlineFinish_last (drop_of_append hat)]
  split
  · rfl
  · rw [List.map_append, List.append_assoc, List.map_singleton]

end Options

/-- A command line is parsed into the options it was written from if the last of them has values;
otherwise into all but the last. -/
theorem cmdline_parse_text (options : List WrittenOption) :
    ((∀ o, options.getLast? = some o → o.values ≠ []) →
      cmdlineParse [] (cmdlineText options) = some (options.map WrittenOption.parsed)) ∧
    ∀ o, options.getLast? = some o → o.values = [] →
      cmdlineParse [] (cmdlineText options) = some (options.dropLast.map WrittenOption.parsed) := by
  obtain rfl | ⟨front, last, rfl⟩ := options.eq_nil_or_concat'
  · exact ⟨fun _ => rfl, fun o h => by cases h⟩
  · rw [cmdlineParse_concat, List.getLast?_concat, List.dropLast_concat]
    refine ⟨fun h => ?_, fun o ho hflag => ?_⟩
    · rw [if_neg (h last rfl), List.nil_append]
    · cases ho
      rw [if_pos hflag, List.nil_append]

/-- The option `quiet`. -/
def quietOption : WrittenOption where
  name := [0x71, 0x75, 0x69, 0x65, 0x74]
  values := []
  name_ne := by decide
  name_chars := by simp [cmdlineSpace, cmdlineEquals]
  values_ne := by simp
  values_chars := by simp

/-- The option `log=tty,com1`. -/
def logOption : WrittenOption where
  name := [0x6c, 0x6f, 0x67]
  values := [[0x74, 0x74, 0x79], [0x63, 0x6f, 0x6d, 0x31]]
  name_ne := by decide
  name_chars := by simp [cmdlineSpace, cmdlineEquals]
  values_ne := by simp
  values_chars := by simp [cmdlineSpace, cmdlineComma]

/-- The command line `quiet log=tty,com1` is parsed back. -/
theorem cmdline_parse_quiet_log :
    cmdlineParse [] (cmdlineText [quietOption, logOption]) =
      some [quietOption.parsed, logOption.parsed] := by
  apply (cmdline_parse_text [quietOption, logOption]).1
  intro o ho
  cases ho
  decide

/-- The command line `quiet` is parsed into no option at all. -/
theorem cmdline_parse_quiet :
    cmdlineParse [] (cmdlineText [quietOption]) = some [] ∧
      cmdlineParse [] (cmdlineText [quietOption]) ≠ some [quietOption.parsed] := by
  decide

end ChrisOS.Kern
