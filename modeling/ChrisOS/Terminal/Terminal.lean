import ChrisOS.Drivers.Vga

/-!
# The terminal

`terminal/terminal.c`: characters are written to the screen from left to right and from top to
bottom, and the screen scrolls when the last row is full. Characters that are copied to the serial
port are left out.
-/

namespace ChrisOS.Terminal

open ChrisOS.Lib ChrisOS.Drivers

/-- The terminal's variables and the screen. -/
structure TerminalState where
  vga : Vga
  terminalRow : ℕ
  terminalColumn : ℕ
  terminalColor : BitVec 8

/-- The space. -/
def space : BitVec 8 := 0x20

/-- The newline character. -/
def newlineChar : BitVec 8 := 0x0a

/-- The backspace character. -/
def backspaceChar : BitVec 8 := 0x08

/-- `terminal_putentryat`. -/
def terminalPutentryat (t : TerminalState) (c color : BitVec 8) (x y : ℕ) : Option TerminalState :=
  (vgaPutChar t.vga c color x y).map fun vga => { t with vga := vga }

/-- `terminal_clear`. -/
def terminalClear (t : TerminalState) : Option TerminalState :=
  countedLoop (fun y =>
    countedLoop (fun x t => terminalPutentryat t space t.terminalColor x y) 0 vgaWidth)
    0 vgaHeight t

/-- `terminal_initialize`. -/
def terminalInitialize (vga : Vga) : Option TerminalState :=
  terminalClear ⟨vga, 0, 0, vgaMakeColor .lightGrey .black⟩

/-- `terminal_clear_line_end`. -/
def terminalClearLineEnd (t : TerminalState) (x y : ℕ) : Option TerminalState :=
  countedLoop (fun x t => terminalPutentryat t space t.terminalColor x y) x (vgaWidth - x) t

/-- The first part of `terminal_putchar`: the character at the cursor. -/
def putAtCursor (t : TerminalState) (c : BitVec 8) : Option TerminalState :=
  if c = newlineChar then
    (terminalClearLineEnd t t.terminalColumn t.terminalRow).map fun t =>
      { t with terminalColumn := vgaWidth }
  else if c = backspaceChar then
    if t.terminalColumn > 0 then
      let t := { t with terminalColumn := t.terminalColumn - 1 }
      terminalPutentryat t space t.terminalColor t.terminalColumn t.terminalRow
    else some t
  else
    (terminalPutentryat t c t.terminalColor t.terminalColumn t.terminalRow).map fun t =>
      { t with terminalColumn := t.terminalColumn + 1 }

/-- The second part of `terminal_putchar`: after the last column a new row begins. -/
def wrapRow (t : TerminalState) : Option TerminalState :=
  if t.terminalColumn = vgaWidth then do
    let t := { t with terminalColumn := 0, terminalRow := t.terminalRow + 1 }
    let t ←
      if t.terminalRow = vgaHeight then
        (vgaScrollRow t.vga).map fun vga => { t with vga := vga, terminalRow := t.terminalRow - 1 }
      else some t
    terminalClearLineEnd t 0 t.terminalRow
  else some t

/-- `terminal_putchar`. -/
def terminalPutchar (t : TerminalState) (c : BitVec 8) : Option TerminalState := do
  let t ← putAtCursor t c
  let t ← wrapRow t
  some { t with vga := vgaMoveCursor t.vga t.terminalRow t.terminalColumn }

/-- Write characters one by one. -/
def terminalPutchars (t : TerminalState) (text : List (BitVec 8)) : Option TerminalState :=
  text.foldlM terminalPutchar t

end ChrisOS.Terminal
