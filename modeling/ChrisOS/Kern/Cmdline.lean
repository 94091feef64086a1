import ChrisOS.Utils.CString
import Mathlib.Algebra.Group.Nat.Defs

/-!
# The kernel command line

`kern/cmdline.c`: a parser with four states that reads the command line once and adds the options
it finds to a table. The hash table is modelled by the list of its options in the order they were
added, the array of values by a list of copied strings. `none` is a failed assertion.
-/

namespace ChrisOS.Kern

open ChrisOS.Utils

/-- `enum parser_state`. -/
inductive ParserState
  | searchOptionStart
  | searchOptionEnd
  | searchValueStart
  | searchValueEnd
deriving DecidableEq, Repr

/-- `struct cmdline_option`. -/
structure CmdlineOption where
  name : List (BitVec 8)
  valueCount : Nat
  values : List (List (BitVec 8))
deriving DecidableEq, Repr

/-- The variables of `cmdline_parse` and the table `cmdline_options_table`. A `valueStart` of `none`
is the value `-1` it has outside values, and a `name` of `none` the null pointer. -/
structure CmdlineParser where
  state : ParserState
  i : Nat
  optionStart : Nat
  valueStart : Option Nat
  name : Option (List (BitVec 8))
  values : List (List (BitVec 8))
  table : List CmdlineOption
deriving DecidableEq, Repr

/-- The space between options. -/
def cmdlineSpace : BitVec 8 := 0x20

/-- The sign between an option and its values. -/
def cmdlineEquals : BitVec 8 := 0x3d

/-- The comma between values. -/
def cmdlineComma : BitVec 8 := 0x2c

/-- `cmdline_option_add`: the table with the option. -/
def cmdlineOptionAdd (table : List CmdlineOption) (name : Option (List (BitVec 8)))
    (values : List (List (BitVec 8))) : Option (List CmdlineOption) :=
  name.map fun name => table ++ [⟨strdup name, values.length, values.map strdup⟩]

/-- The copy of the text from an index up to the current one. -/
def CmdlineParser.since (p : CmdlineParser) (cmdline : List (BitVec 8)) (start : Nat) :
    List (BitVec 8) :=
  strndup (cmdline.drop start) (p.i - start)

/-- One iteration of the loop of `cmdline_parse`, without the increment. -/
def cmdlineSwitch (cmdline : List (BitVec 8)) (p : CmdlineParser) (c : BitVec 8) :
    Option CmdlineParser :=
  match p.state with
  | .searchOptionStart =>
    if c ≠ cmdlineSpace then some { p with state := .searchOptionEnd, optionStart := p.i }
    else some p
  | .searchOptionEnd =>
    if c = cmdlineSpace then
      let name := p.since cmdline p.optionStart
      (cmdlineOptionAdd p.table (some name) p.values).map fun table =>
        { p with state := .searchOptionStart, name := none, table := table }
    else if c = cmdlineEquals then
      some { p with state := .searchValueStart, name := some (p.since cmdline p.optionStart) }
    else some p
  | .searchValueStart =>
    if c = cmdlineSpace then some { p with state := .searchOptionStart }
    else some { p with state := .searchValueEnd, valueStart := some p.i }
  | .searchValueEnd =>
    if c = cmdlineSpace then do
      let value := p.since cmdline (← p.valueStart)
      let table ← cmdlineOptionAdd p.table p.name (p.values ++ [value])
      some { p with
        state := .searchOptionStart
        valueStart := none
        name := none
        values := []
        table := table }
    else if c = cmdlineComma then do
      let value := p.since cmdline (← p.valueStart)
      some { p with state := .searchValueStart, valueStart := none, values := p.values ++ [value] }
    else some p

/-- The loop of `cmdline_parse` over the rest of the text. -/
def cmdlineLoop (cmdline : List (BitVec 8)) (p : CmdlineParser) :
    List (BitVec 8) → Option CmdlineParser
  | [] => some p
  | c :: rest =>
    if c = 0 then some p
    else (cmdlineSwitch cmdline p c).bind fun p => cmdlineLoop cmdline { p with i := p.i + 1 } rest

/-- What `cmdline_parse` does after the loop: the table with the last option. -/
def cmdlineFinish (cmdline : List (BitVec 8)) (p : CmdlineParser) : Option (List CmdlineOption) :=
  match p.name with
  | some name =>
    match p.valueStart with
    | some start =>
      cmdlineOptionAdd p.table (some name) (p.values ++ [p.since cmdline start])
    | none => cmdlineOptionAdd p.table (some name) p.values
  | none => some p.table

/-- `cmdline_parse`: the table after it. -/
def cmdlineParse (table : List CmdlineOption) (cmdline : List (BitVec 8)) :
    Option (List CmdlineOption) :=
  (cmdlineLoop cmdline ⟨.searchOptionStart, 0, 2 ^ 32 - 1, none, none, [], table⟩ cmdline).bind
    (cmdlineFinish cmdline)

end ChrisOS.Kern
