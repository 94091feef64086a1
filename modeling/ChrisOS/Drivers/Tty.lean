import ChrisOS.Utils.MemMove

/-!
# The console's line buffer

The buffer of `drivers/tty.c` that key events fill and `tty_getc` empties: a `struct tty_line`
with its data in byte memory. What the functions do besides, echoing to the terminal and waking
observers, does not touch the buffer.
-/

namespace ChrisOS.Drivers

open ChrisOS.Lib ChrisOS.Utils

/-- `struct tty_line`. -/
structure TtyLine where
  data : Word
  capacity : Word
  length : Word
  readPos : Word
  writePos : Word
deriving DecidableEq, Repr

/-- The console's line, and the memory its data is in. -/
structure TtyBuffer where
  line : TtyLine
  mem : ByteMem 32

/-- `krealloc` as its caller sees it: from the memory, a pointer and a size to the new pointer, null
if there is no memory, and the memory afterwards. -/
abbrev Krealloc := ByteMem 32 → Word → Word → Word × ByteMem 32

/-- `TTY_NEW_LINE_CHAR`. -/
def ttyNewLineChar : BitVec 8 := 0x0a

/-- The character that erases. -/
def backspace : BitVec 8 := 0x08

/-- The line buffer after `tty_init`. -/
def ttyInit (mem : ByteMem 32) : TtyBuffer := ⟨⟨0, 0, 0, 0, 0⟩, mem⟩

/-- `tty_line_write_space_available`. -/
def ttyLineWriteSpaceAvailable (line : TtyLine) : Word := line.capacity - line.writePos

/-- `tty_line_read_chars_available`. -/
def ttyLineReadCharsAvailable (line : TtyLine) : Word := line.length - line.readPos

/-- The capacity that `tty_line_reserve_space` asks for. -/
def ttyLineNewCapacity (line : TtyLine) (size : Word) : Word :=
  if size > line.capacity * 2 then size else line.capacity * 2

/-- `tty_line_reserve_space`, and whether it succeeds. -/
def ttyLineReserveSpace (krealloc : Krealloc) (b : TtyBuffer) (size : Word) : TtyBuffer × Bool :=
  if ttyLineWriteSpaceAvailable b.line < size then
    let newCapacity := ttyLineNewCapacity b.line size
    let result := krealloc b.mem b.line.data newCapacity
    if result.1 ≠ 0 then
      (⟨{ b.line with data := result.1, capacity := newCapacity }, result.2⟩, true)
    else ({ b with mem := result.2 }, false)
  else (b, true)

/-- `tty_line_append_char`, and whether it succeeds; no result when the assertion fails. -/
def ttyLineAppendChar (krealloc : Krealloc) (b : TtyBuffer) (c : BitVec 8) :
    Option (TtyBuffer × Bool) :=
  if c = backspace then
    if b.line.readPos < b.line.writePos then
      some ({ b with line := { b.line with
        writePos := b.line.writePos - 1, length := b.line.length - 1 } }, true)
    else some (b, true)
  else
    let reserved := ttyLineReserveSpace krealloc b 1
    if reserved.2 then
      let b := reserved.1
      if ttyLineWriteSpaceAvailable b.line > 0 then
        some (⟨{ b.line with writePos := b.line.writePos + 1, length := b.line.length + 1 },
          Function.update b.mem (b.line.data + b.line.writePos) c⟩, true)
      else none
    else some (reserved.1, false)

/-- `tty_compact_buffer`. -/
def ttyCompactBuffer (b : TtyBuffer) : TtyBuffer where
  mem := memmove b.mem b.line.data (b.line.data + b.line.readPos) b.line.length
  line := { b.line with
    length := b.line.length - b.line.readPos
    writePos := b.line.writePos - b.line.readPos
    readPos := 0 }

/-- `tty_line_newline`. -/
def ttyLineNewline (krealloc : Krealloc) (b : TtyBuffer) : Option (TtyBuffer × Bool) :=
  (ttyLineAppendChar krealloc b ttyNewLineChar).map fun result =>
    if result.2 then (ttyCompactBuffer result.1, true) else result

/-- `enum tty_key_event_type`. -/
inductive TtyKeyEventType
  | down
  | up
deriving DecidableEq, Repr

/-- `struct tty_key_event`. -/
structure TtyKeyEvent where
  eventType : TtyKeyEventType
  character : BitVec 8
  modKeys : Word
deriving DecidableEq, Repr

/-- `tty_mod_shift`. -/
def ttyModShift : Word := 1

/-- The events that `tty_send_key_event` looks at: keys going down without alt and control. -/
def TtyKeyEvent.types (event : TtyKeyEvent) : Bool :=
  event.eventType = .down && (event.modKeys = 0 || event.modKeys = ttyModShift)

/-- `tty_send_key_event`. -/
def ttySendKeyEvent (krealloc : Krealloc) (b : TtyBuffer) (event : TtyKeyEvent) :
    Option TtyBuffer :=
  if event.types then
    if event.character = ttyNewLineChar then (ttyLineNewline krealloc b).map Prod.fst
    else (ttyLineAppendChar krealloc b event.character).map Prod.fst
  else some b

/-- `tty_getc` after its wait: the character as an `int`, or `-1`. -/
def ttyGetc (b : TtyBuffer) : TtyBuffer × Int :=
  if ttyLineReadCharsAvailable b.line = 0 then (b, -1)
  else ({ b with line := { b.line with readPos := b.line.readPos + 1 } },
    (b.mem (b.line.data + b.line.readPos)).toInt)

end ChrisOS.Drivers
