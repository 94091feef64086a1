import ChrisOS.Drivers.Tty
import ChrisOS.Sys.Param
import Mathlib.Data.List.OfFn

/-!
# The keyboard thread

`ps2_kbd_thread` of `ia32/ps2.c` and what it calls. The thread reads bytes from the data port, collects
them in an array until a scancode is complete, and handles it: a modifier key changes
`_ps2_kbd_mod_state`, and any other key is looked up in the tables and sent to the console.

The thread starts in `waiting_scancode_start`, and from there it never comes to the states for commands.
Masking the interrupt and blocking between bytes does not change what is done with a byte. `none` is a
store outside the array or a failed assertion.
-/

namespace ChrisOS.Ia32

open ChrisOS.Utils ChrisOS.Sys ChrisOS.Drivers

/-- The entry of a key that has no character. -/
def nul : Char := '\x00'

/-- `_ps2_kbd_scancodes_set_2_en_gb`. -/
def ps2KbdScancodesSet2EnGb : List Char :=
  ['\x60', nul, nul, nul, nul, nul, nul, nul,
   nul, nul, nul, nul, nul, '\t', '\\', nul,
   nul, nul, nul, nul, nul, 'q', '1', nul,
   nul, nul, 'z', 's', 'a', 'w', '2', nul,
   nul, 'c', 'x', 'd', 'e', '4', '3', nul,
   nul, ' ', 'v', 'f', 't', 'r', '5', nul,
   nul, 'n', 'b', 'h', 'g', 'y', '6', nul,
   nul, nul, 'm', 'j', 'u', '7', '8', nul,
   nul, ',', 'k', 'i', 'o', '0', '9', nul,
   nul, '.', '/', 'l', ';', 'p', '-', nul,
   nul, nul, '\x27', nul, '[', '=', nul, nul,
   nul, nul, '\n', ']', nul, '#', nul, nul,
   nul, nul, '\x08', nul, nul, '1', '\x08', '4',
   '7', nul, nul, nul, '0', '.', '2', '5',
   '6', '8', '\x1b', nul, nul, '+', '3', '-',
   '*', '9', nul, nul, nul, nul, nul, nul]

/-- `_ps2_kbd_scancodes_set_2_en_gb_shift`. -/
def ps2KbdScancodesSet2EnGbShift : List Char :=
  ['\x60', nul, nul, nul, nul, nul, nul, nul,
   nul, nul, nul, nul, nul, '\t', '|', nul,
   nul, nul, nul, nul, nul, 'Q', '!', nul,
   nul, nul, 'Z', 'S', 'A', 'W', '\x22', nul,
   nul, 'C', 'X', 'D', 'E', '$', '#', nul,
   nul, ' ', 'V', 'F', 'T', 'R', '%', nul,
   nul, 'N', 'B', 'H', 'G', 'Y', '^', nul,
   nul, nul, 'M', 'J', 'U', '&', '*', nul,
   nul, '<', 'K', 'I', 'O', ')', '(', nul,
   nul, '>', '?', 'L', ':', 'P', '_', nul,
   nul, nul, '@', nul, '\x7b', '+', nul, nul,
   nul, nul, '\n', '\x7d', nul, '~', nul, nul,
   nul, nul, '\x08', nul, nul, '1', nul, '4',
   '7', nul, nul, nul, '0', '.', '2', '5',
   '6', '8', '\x1b', nul, nul, '+', '3', '-',
   '*', '9', nul, nul, nul, nul, nul, nul]

/-- The bytes behind each of the tables, by their index into the table. -/
structure BehindTables where
  plain : ℕ → BitVec 8
  shift : ℕ → BitVec 8

/-- The byte at an index of a table, or behind it. -/
def tableEntry (table : List Char) (behind : ℕ → BitVec 8) (i : ℕ) : BitVec 8 :=
  (table[i]?.map fun c => BitVec.ofNat 8 c.toNat).getD (behind i)

/-- `PS2_SC_ALT`. -/
def ps2ScAlt : BitVec 8 := 0x11

/-- `PS2_SC_LEFT_SHIFT`. -/
def ps2ScLeftShift : BitVec 8 := 0x12

/-- `PS2_SC_CTRL`. -/
def ps2ScCtrl : BitVec 8 := 0x14

/-- `PS2_SC_RIGHT_SHIFT`. -/
def ps2ScRightShift : BitVec 8 := 0x59

/-- The modifier keys of `enum ps2_kbd_mod_bits`. -/
inductive Ps2KbdModBit
  | leftShift
  | rightShift
  | leftCtrl
  | rightCtrl
  | leftAlt
  | rightAlt
deriving DecidableEq, Repr

/-- The value of the enumerator. -/
def Ps2KbdModBit.toNat : Ps2KbdModBit → ℕ
  | .leftShift => 1
  | .rightShift => 2
  | .leftCtrl => 3
  | .rightCtrl => 4
  | .leftAlt => 5
  | .rightAlt => 6

/-- `tty_mod_alt`. -/
def ttyModAlt : Word := 2

/-- `tty_mod_ctrl`. -/
def ttyModCtrl : Word := 4

/-- One of two modifier keys is down. -/
def eitherPressed (modState : Word) (left right : Ps2KbdModBit) : Bool :=
  getbit modState left.toNat = 1 || getbit modState right.toNat = 1

/-- `ps2_kbd_mod_shift_pressed`. -/
def ps2KbdModShiftPressed (modState : Word) : Bool := eitherPressed modState .leftShift .rightShift

/-- `ps2_kbd_mod_ctrl_pressed`. -/
def ps2KbdModCtrlPressed (modState : Word) : Bool := eitherPressed modState .leftCtrl .rightCtrl

/-- `ps2_kbd_mod_alt_pressed`. -/
def ps2KbdModAltPressed (modState : Word) : Bool := eitherPressed modState .leftAlt .rightAlt

/-- `MAX_SCANCODE_BYTES`. -/
abbrev maxScancodeBytes : ℕ := 8

/-- The array that the bytes of a scancode are collected in. -/
abbrev ScancodeArray := Fin maxScancodeBytes → BitVec 8

/-- What `ps2_kbd_handle_scancode` finds in the array: `pressed`, `e0` and `key`, and the indices that it
reads for them. -/
structure ScancodeKey where
  pressed : Bool
  e0 : Bool
  key : BitVec 8
  reads : List ℕ

/-- The first part of `ps2_kbd_handle_scancode`. -/
def scancodeKey (scancode : ScancodeArray) : ScancodeKey :=
  if scancode 0 = 0xF0 then ⟨false, false, scancode 1, [0, 1]⟩
  else if scancode 0 = 0xE0 then
    if scancode 1 = 0xF0 then ⟨false, true, scancode 2, [0, 1, 2]⟩
    else ⟨true, true, scancode 1, [0, 1]⟩
  else ⟨true, false, scancode 0, [0]⟩

/-- The modifier key of a code, with or without `0xe0` before it. -/
def modifierOf (key : BitVec 8) (e0 : Bool) : Option Ps2KbdModBit :=
  if key = ps2ScAlt then some (if e0 then .rightAlt else .leftAlt)
  else if key = ps2ScCtrl then some (if e0 then .rightCtrl else .leftCtrl)
  else if key = ps2ScLeftShift then some .leftShift
  else if key = ps2ScRightShift then some .rightShift
  else none

/-- The `mod_keys` of an event: all modifiers if control or alt is pressed, and none otherwise. -/
def eventModKeys (modState : Word) : Word :=
  if ps2KbdModCtrlPressed modState || ps2KbdModAltPressed modState then
    (if ps2KbdModCtrlPressed modState then ttyModCtrl else 0) |||
      (if ps2KbdModAltPressed modState then ttyModAlt else 0) |||
      (if ps2KbdModShiftPressed modState then ttyModShift else 0)
  else 0

/-- Shift selects the second table if neither control nor alt is pressed. -/
def usesShiftTable (modState : Word) : Bool :=
  !(ps2KbdModCtrlPressed modState || ps2KbdModAltPressed modState) && ps2KbdModShiftPressed modState

/-- What a call of `ps2_kbd_handle_scancode` does: the modifiers it leaves, the event it sends, the indices
it reads of the scancode, and the tables it looks into with the index it uses. -/
structure ScancodeHandled where
  modState : Word
  event : Option TtyKeyEvent
  reads : List ℕ
  lookups : List (List Char × ℕ)

/-- `ps2_kbd_handle_scancode`. -/
def ps2KbdHandleScancode (behind : BehindTables) (modState : Word) (scancode : ScancodeArray)
    (length : ℕ) : Option ScancodeHandled :=
  if length = 0 then none
  else
    let k := scancodeKey scancode
    match modifierOf k.key k.e0 with
    | some bit => some ⟨withbit modState bit.toNat (if k.pressed then 1 else 0), none, k.reads, []⟩
    | none =>
      let i := k.key.toNat
      let plain := tableEntry ps2KbdScancodesSet2EnGb behind.plain i
      let character :=
        if usesShiftTable modState then tableEntry ps2KbdScancodesSet2EnGbShift behind.shift i else plain
      let event : TtyKeyEvent := ⟨if k.pressed then .down else .up, character, eventModKeys modState⟩
      some ⟨modState, if character = 0 then none else some event, k.reads,
        (ps2KbdScancodesSet2EnGb, i) ::
          if usesShiftTable modState then [(ps2KbdScancodesSet2EnGbShift, i)] else []⟩

/-- `ps2_kbd_scancode_complete`. -/
def ps2KbdScancodeComplete (scancode : ScancodeArray) : ℕ → Bool
  | 1 => !(scancode 0 = 0xE0 || scancode 0 = 0xF0 || scancode 0 = 0xE1)
  | 2 => !(scancode 0 = 0xE0 && scancode 1 = 0xF0 || scancode 0 = 0xE1)
  | 3 | 4 | 5 | 6 | 7 => !(scancode 0 = 0xE1)
  | _ => true

/-- The states of `enum ps2_driver_state` that the thread comes to. -/
inductive Ps2DriverState
  | waitingScancodeStart
  | waitingScancodeEnd
deriving DecidableEq, Repr

/-- A call of `ps2_kbd_handle_scancode` and what it did. -/
structure HandleCall where
  scancode : ScancodeArray
  length : ℕ
  handled : ScancodeHandled

/-- The variables of the thread, with `_ps2_kbd_mod_state`, and the scancodes it has handled. -/
structure KbdThread where
  state : Ps2DriverState
  scancode : ScancodeArray
  scancodeI : ℕ
  modState : Word
  calls : List HandleCall

/-- The thread when it starts, with anything in its array. -/
def KbdThread.start (scancode : ScancodeArray) (modState : Word) : KbdThread :=
  ⟨.waitingScancodeStart, scancode, 0, modState, []⟩

/-- Handle the bytes that were collected. -/
def KbdThread.handle (behind : BehindTables) (t : KbdThread) : Option KbdThread :=
  (ps2KbdHandleScancode behind t.modState t.scancode t.scancodeI).map fun handled =>
    { t with
      state := .waitingScancodeStart
      modState := handled.modState
      calls := t.calls ++ [⟨t.scancode, t.scancodeI, handled⟩] }

/-- Store a byte at an index of the array, and go on behind it. -/
def KbdThread.store (t : KbdThread) (i : ℕ) (byte : BitVec 8) : Option KbdThread :=
  if hi : i < maxScancodeBytes then
    some { t with scancode := Function.update t.scancode ⟨i, hi⟩ byte, scancodeI := i + 1 }
  else none

/-- What `ps2_kbd_thread` does with a byte that it reads from the data port. -/
def ps2KbdReceive (behind : BehindTables) (t : KbdThread) (byte : BitVec 8) : Option KbdThread :=
  match t.state with
  | .waitingScancodeStart =>
    (t.store 0 byte).bind fun t =>
      if ps2KbdScancodeComplete t.scancode t.scancodeI then t.handle behind
      else some { t with state := .waitingScancodeEnd }
  | .waitingScancodeEnd =>
    (t.store t.scancodeI byte).bind fun t =>
      if ps2KbdScancodeComplete t.scancode t.scancodeI then t.handle behind
      else some t

/-- The bytes of a stream, one after the other. -/
def ps2KbdReceiveAll (behind : BehindTables) (t : KbdThread) (stream : List (BitVec 8)) :
    Option KbdThread :=
  stream.foldlM (ps2KbdReceive behind) t

end ChrisOS.Ia32
