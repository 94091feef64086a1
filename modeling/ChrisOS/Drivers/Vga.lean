import ChrisOS.Lib.CountedLoop
import Mathlib.Logic.Function.Basic

/-!
# The text screen

The part of `drivers/vga.c` that writes characters, scrolls and moves the cursor. The buffer has an
entry of sixteen bits for each of the 2000 positions, row by row; `none` is a write outside it.
-/

namespace ChrisOS.Drivers

open ChrisOS.Lib

/-- The entries at `vga_buffer` and the registers of the display controller. -/
structure Vga where
  vgaBuffer : ℕ → BitVec 16
  crtc : BitVec 8 → BitVec 8

/-- `VGA_WIDTH`. -/
def vgaWidth : ℕ := 80

/-- `VGA_HEIGHT`. -/
def vgaHeight : ℕ := 25

/-- `enum vga_color`. -/
inductive VgaColor
  | black
  | blue
  | green
  | cyan
  | red
  | magenta
  | brown
  | lightGrey
  | darkGrey
  | lightBlue
  | lightGreen
  | lightCyan
  | lightRed
  | lightMagenta
  | lightBrown
  | white
deriving DecidableEq, Repr

/-- The values of the colors, which are counted from zero. -/
def VgaColor.toByte (color : VgaColor) : BitVec 8 := BitVec.ofNat 8 color.ctorIdx

/-- `vga_make_color`. -/
def vgaMakeColor (fg bg : VgaColor) : BitVec 8 := fg.toByte ||| (bg.toByte <<< 4)

/-- `vga_make_vgaentry`; a `char` is signed. -/
def vgaMakeVgaentry (c color : BitVec 8) : BitVec 16 :=
  let c16 := c.signExtend 16
  let color16 := color.setWidth 16
  c16 ||| (color16 <<< 8)

/-- An assignment to `vga_buffer[index]`. -/
def Vga.store (vga : Vga) (index : ℕ) (entry : BitVec 16) : Option Vga :=
  if index < vgaWidth * vgaHeight then
    some { vga with vgaBuffer := Function.update vga.vgaBuffer index entry }
  else none

/-- `vga_put_char`, which takes the column first. -/
def vgaPutChar (vga : Vga) (c colour : BitVec 8) (row col : ℕ) : Option Vga :=
  let index := col * vgaWidth + row
  vga.store index (vgaMakeVgaentry c colour)

/-- `vga_scroll_row`: every row but the first is copied one row up. -/
def vgaScrollRow (vga : Vga) : Option Vga :=
  countedLoop (fun y =>
    countedLoop (fun x vga =>
      let index := y * vgaWidth + x
      let entry := vga.vgaBuffer index
      vga.store (index - vgaWidth) entry) 0 vgaWidth) 1 (vgaHeight - 1) vga

/-- `vga_move_cursor`. -/
def vgaMoveCursor (vga : Vga) (row col : ℕ) : Vga :=
  let position := BitVec.ofNat 32 (row * 80 + col)
  let crtc := Function.update vga.crtc 0x0f (position.setWidth 8)
  { vga with crtc := Function.update crtc 0x0e ((position >>> 8).setWidth 8) }

end ChrisOS.Drivers
