import ChrisOS.Lib.ScrollText
import ChrisOS.Terminal.Screen

/-!
# The terminal shows a scrolling text

The characters written to the terminal are also typed into a text of unbounded length, and the
screen is at all times the window on the last rows of that text. The terminal begins a new row as
soon as the last column is filled; it clears the row it begins, which after scrolling still holds
the row above, and so the part of the screen behind the cursor is always blank.
-/

namespace ChrisOS.Terminal

open ChrisOS.Lib ChrisOS.Drivers

/-- A row of characters without text. -/
def blankRow : Fin vgaWidth → BitVec 8 := fun _ => space

/-- The text that is typed, in characters. -/
abbrev Text := ScrollText (BitVec 8) vgaWidth space

/-- Type a character. -/
def typeChar (m : Text) (c : BitVec 8) : Text :=
  if c = newlineChar then m.newline
  else if c = backspaceChar then m.backspace
  else m.put c

/-- The entry of a character: the color in the upper byte. -/
def entryOf (color c : BitVec 8) : BitVec 16 := color ++ c

/-- Characters of seven bits do not reach into the color. -/
theorem vgaMakeVgaentry_eq {c : BitVec 8} (hc : c.toNat < 128) (color : BitVec 8) :
    vgaMakeVgaentry c color = entryOf color c := by
  have hmsb : c.msb = false := by
    rw [BitVec.msb_eq_false_iff_two_mul_lt]
    omega
  apply BitVec.eq_of_getLsbD_eq
  intro k hk
  rw [vgaMakeVgaentry, entryOf, BitVec.signExtend_eq_setWidth_of_msb_false hmsb]
  simp only [BitVec.getLsbD_or, BitVec.getLsbD_setWidth, BitVec.getLsbD_shiftLeft,
    BitVec.getLsbD_append]
  by_cases hk8 : k < 8
  · simp [hk, hk8]
  · have hclear : c.getLsbD k = false := BitVec.getLsbD_of_ge c k (Nat.le_of_not_lt hk8)
    simp [hk, hk8, hclear, show k - 8 < 16 by omega]

/-- The screen is the window on the last rows. -/
def ShowsRows (vga : Vga) (color : BitVec 8) (rows : List (Fin vgaWidth → BitVec 8)) : Prop :=
  ∀ y < vgaHeight, screen vga y = fun x => entryOf color (window vgaHeight blankRow rows y x)

section Rows

variable {vga vga' : Vga} {color : BitVec 8} {above : List (Fin vgaWidth → BitVec 8)}
  {last : Fin vgaWidth → BitVec 8}

/-- The screen row with the last row of the text. -/
theorem ShowsRows.current (h : ShowsRows vga color (above ++ [last])) :
    screen vga (min above.length (vgaHeight - 1)) = fun x => entryOf color (last x) := by
  rw [h _ (by simp only [vgaHeight]; omega), window_concat_self (by decide)]

/-- Replacing the last row of the text and its row of the screen. -/
theorem ShowsRows.replace (h : ShowsRows vga color (above ++ [last]))
    {row : Fin vgaWidth → BitVec 8}
    (hscreen : screen vga' = Function.update (screen vga) (min above.length (vgaHeight - 1))
      fun x => entryOf color (row x)) :
    ShowsRows vga' color (above ++ [row]) := by
  intro y hy
  rw [hscreen]
  by_cases hrow : y = min above.length (vgaHeight - 1)
  · rw [hrow, Function.update_self, window_concat_self (by decide)]
  · rw [Function.update_of_ne hrow, h y hy, window_concat_of_ne blankRow above row last hrow]

/-- A fresh row while there is room: the row of the screen is cleared. -/
theorem ShowsRows.fresh {rows : List (Fin vgaWidth → BitVec 8)} (h : ShowsRows vga color rows)
    (hroom : rows.length < vgaHeight)
    (hscreen : screen vga' = Function.update (screen vga) rows.length
      fun x => entryOf color (blankRow x)) :
    ShowsRows vga' color (rows ++ [blankRow]) := by
  intro y hy
  rw [hscreen, window_concat_blank_of_lt blankRow hroom]
  by_cases hrow : y = rows.length
  · have hnone : rows[rows.length - vgaHeight + rows.length]? = none :=
      List.getElem?_eq_none (Nat.le_add_left _ _)
    rw [hrow, Function.update_self, window, hnone, Option.getD_none]
  · rw [Function.update_of_ne hrow, h y hy]

/-- A fresh row when the screen is full: it scrolls and the last row is cleared. -/
theorem ShowsRows.scroll {rows : List (Fin vgaWidth → BitVec 8)} (h : ShowsRows vga color rows)
    (hfull : vgaHeight ≤ rows.length)
    (hscreen : screen vga' = Function.update
      (fun y => if y + 1 < vgaHeight then screen vga (y + 1) else screen vga y) (vgaHeight - 1)
      fun x => entryOf color (blankRow x)) :
    ShowsRows vga' color (rows ++ [blankRow]) := by
  intro y hy
  rw [hscreen, window_concat_blank_of_le blankRow hfull]
  by_cases hrow : y = vgaHeight - 1
  · have hnone : rows[rows.length - vgaHeight + (y + 1)]? = none :=
      List.getElem?_eq_none (by omega)
    rw [window, hnone, Option.getD_none, hrow, Function.update_self]
  · rw [Function.update_of_ne hrow, if_pos (by omega), h (y + 1) (by omega)]

end Rows

/-- The terminal is at the end of the text and shows its last rows. -/
structure Refines (t : TerminalState) (m : Text) : Prop where
  row : t.terminalRow = min m.above.length (vgaHeight - 1)
  column : t.terminalColumn = m.column
  shows : ShowsRows t.vga t.terminalColor m.rows

variable {row : Fin vgaWidth → BitVec 8}

/-- Clearing a row from a column on. -/
theorem filled_blank (t : TerminalState) {x : ℕ}
    (hblank : ∀ x' : Fin vgaWidth, x ≤ x'.val → row x' = space) :
    filled x vgaWidth (fun _ => blankEntry t) (fun x' => entryOf t.terminalColor (row x')) =
      fun x' => entryOf t.terminalColor (row x') := by
  funext x'
  rw [filled, blankEntry, vgaMakeVgaentry_eq (by decide)]
  split
  · next hx => rw [hblank x' hx.1]
  · rfl

variable {t : TerminalState}

/-- After the last column a fresh row begins. -/
theorem wrapRow_fresh {above : List (Fin vgaWidth → BitVec 8)}
    (hrow : t.terminalRow = min above.length (vgaHeight - 1))
    (hcolumn : t.terminalColumn = vgaWidth)
    (hshows : ShowsRows t.vga t.terminalColor (above ++ [row])) :
    ∃ t', wrapRow t = some t' ∧ t'.terminalRow = min (above.length + 1) (vgaHeight - 1) ∧
      t'.terminalColumn = 0 ∧ t'.terminalColor = t.terminalColor ∧
      ShowsRows t'.vga t.terminalColor (above ++ [row] ++ [blankRow]) := by
  have hheight : vgaHeight = 25 := rfl
  have hlength : (above ++ [row]).length = above.length + 1 := List.length_append
  have hblank : (fun _ => blankEntry t) = fun x => entryOf t.terminalColor (blankRow x) := by
    funext x
    exact vgaMakeVgaentry_eq (by decide) _
  rw [wrapRow, if_pos hcolumn]
  dsimp only
  by_cases hfull : t.terminalRow + 1 = vgaHeight
  · have hrow' : t.terminalRow = min (above.length + 1) (vgaHeight - 1) := by omega
    have hlast : vgaHeight - 1 = t.terminalRow := by omega
    obtain ⟨vga₁, hscroll, hscreen₁⟩ := vgaScrollRow_screen t.vga
    obtain ⟨vga₂, hclear, hscreen₂⟩ := terminalClearLineEnd_screen
      ⟨vga₁, t.terminalRow, 0, t.terminalColor⟩ (Nat.zero_le _) (y := t.terminalRow) (by omega)
    refine ⟨⟨vga₂, t.terminalRow, 0, t.terminalColor⟩, ?_, hrow', rfl, rfl,
      hshows.scroll (by omega) ?_⟩
    · rw [if_pos hfull, hscroll, Option.map_some, Option.bind_eq_bind, Option.bind_some,
        Nat.add_sub_cancel]
      exact hclear
    · rw [hscreen₂, filled_zero, hscreen₁, ← hblank, hlast]
      rfl
  · have hrow' : t.terminalRow + 1 = min (above.length + 1) (vgaHeight - 1) := by omega
    have hfresh : (above ++ [row]).length = t.terminalRow + 1 := by omega
    obtain ⟨vga₂, hclear, hscreen₂⟩ := terminalClearLineEnd_screen
      ⟨t.vga, t.terminalRow + 1, 0, t.terminalColor⟩ (Nat.zero_le _) (y := t.terminalRow + 1)
      (by omega)
    refine ⟨⟨vga₂, t.terminalRow + 1, 0, t.terminalColor⟩, ?_, hrow', rfl, rfl,
      hshows.fresh (by omega) ?_⟩
    · rw [if_neg hfull, Option.bind_eq_bind, Option.bind_some]
      exact hclear
    · rw [hscreen₂, filled_zero, ← hblank, hfresh]
      rfl

section Step

variable {t t₁ : TerminalState} {m : Text} {c : BitVec 8}

/-- Writing a character into the last row of the text. -/
theorem ShowsRows.putentry {above : List (Fin vgaWidth → BitVec 8)}
    {last : Fin vgaWidth → BitVec 8} (h : ShowsRows t.vga t.terminalColor (above ++ [last]))
    (hc : c.toNat < 128) (x : Fin vgaWidth) :
    ∃ vga', terminalPutentryat t c t.terminalColor x (min above.length (vgaHeight - 1)) =
        some { t with vga := vga' } ∧
      ShowsRows vga' t.terminalColor (above ++ [Function.update last x c]) := by
  have hrow : min above.length (vgaHeight - 1) < vgaHeight := by
    simp only [vgaHeight]
    omega
  obtain ⟨vga', hput, hscreen⟩ := terminalPutentryat_screen t c t.terminalColor x hrow
  refine ⟨vga', hput, h.replace ?_⟩
  rw [hscreen, h.current, vgaMakeVgaentry_eq hc]
  exact congrArg _ (Function.comp_update (entryOf t.terminalColor) last x c).symm

/-- A character that fills its row. -/
theorem terminalPutchar_full (hput : putAtCursor t c = some t₁)
    (hcolor : t₁.terminalColor = t.terminalColor)
    (hrow : t₁.terminalRow = min m.above.length (vgaHeight - 1))
    (hcolumn : t₁.terminalColumn = vgaWidth)
    (hshows : ShowsRows t₁.vga t₁.terminalColor (m.above ++ [row])) :
    ∃ t', terminalPutchar t c = some t' ∧ t'.terminalColor = t.terminalColor ∧
      Refines t' (m.finishRow row) := by
  obtain ⟨t₂, hwrap, hrow₂, hcolumn₂, hcolor₂, hshows₂⟩ := wrapRow_fresh hrow hcolumn hshows
  refine ⟨{ t₂ with vga := vgaMoveCursor t₂.vga t₂.terminalRow t₂.terminalColumn }, ?_,
    hcolor₂.trans hcolor, ⟨?_, hcolumn₂, ?_⟩⟩
  · rw [terminalPutchar, hput, Option.bind_eq_bind, Option.bind_some, hwrap]
    rfl
  · rw [ScrollText.finishRow, List.length_append]
    exact hrow₂
  · rw [hcolor₂]
    exact hshows₂

/-- A character that leaves room in its row. -/
theorem terminalPutchar_room (hput : putAtCursor t c = some t₁)
    (hcolor : t₁.terminalColor = t.terminalColor) (h : Refines t₁ m) :
    ∃ t', terminalPutchar t c = some t' ∧ t'.terminalColor = t.terminalColor ∧ Refines t' m := by
  have hroom : t₁.terminalColumn ≠ vgaWidth := by
    rw [h.column]
    exact Nat.ne_of_lt m.column.isLt
  refine ⟨{ t₁ with vga := vgaMoveCursor t₁.vga t₁.terminalRow t₁.terminalColumn }, ?_, hcolor,
    ⟨h.row, h.column, h.shows⟩⟩
  rw [terminalPutchar, hput, Option.bind_eq_bind, Option.bind_some, wrapRow, if_neg hroom]
  rfl

/-- A newline. -/
theorem Refines.newline (h : Refines t m) :
    ∃ t', terminalPutchar t newlineChar = some t' ∧ t'.terminalColor = t.terminalColor ∧
      Refines t' m.newline := by
  have hrow : t.terminalRow < vgaHeight := by
    have hheight : vgaHeight = 25 := rfl
    have := h.row
    omega
  have hcolumn : t.terminalColumn ≤ vgaWidth := by
    rw [h.column]
    exact Nat.le_of_lt m.column.isLt
  obtain ⟨vga', hclear, hscreen⟩ := terminalClearLineEnd_screen t hcolumn hrow
  have hput : putAtCursor t newlineChar =
      some ⟨vga', t.terminalRow, vgaWidth, t.terminalColor⟩ := by
    rw [putAtCursor, if_pos rfl, hclear]
    rfl
  refine terminalPutchar_full hput rfl h.row rfl (ShowsRows.replace h.shows ?_)
  rw [hscreen, h.row, ShowsRows.current h.shows, h.column, filled_blank t m.blank_from]

/-- A backspace. -/
theorem Refines.backspace (h : Refines t m) :
    ∃ t', terminalPutchar t backspaceChar = some t' ∧ t'.terminalColor = t.terminalColor ∧
      Refines t' m.backspace := by
  rw [ScrollText.backspace]
  split
  · next hpos =>
    let t₀ : TerminalState := { t with terminalColumn := t.terminalColumn - 1 }
    obtain ⟨vga', hput, hshows⟩ := ShowsRows.putentry (t := t₀) h.shows
      (by decide : space.toNat < 128) (ScrollText.before m.column)
    have hrun : putAtCursor t backspaceChar = some { t₀ with vga := vga' } := by
      have hcolumn : (ScrollText.before m.column).val = t.terminalColumn - 1 := by
        rw [h.column]
        rfl
      rw [hcolumn, ← h.row] at hput
      rw [putAtCursor, if_neg (by decide), if_pos rfl, if_pos (by rwa [h.column])]
      exact hput
    exact terminalPutchar_room hrun rfl ⟨h.row, congrArg (· - 1) h.column, hshows⟩
  · next hzero =>
    have hrun : putAtCursor t backspaceChar = some t := by
      rw [putAtCursor, if_neg (by decide), if_pos rfl, if_neg (by rwa [h.column])]
    exact terminalPutchar_room hrun rfl h

/-- A character that is placed at the cursor. -/
theorem Refines.put (h : Refines t m) (hc : c.toNat < 128) (hnewline : c ≠ newlineChar)
    (hbackspace : c ≠ backspaceChar) :
    ∃ t', terminalPutchar t c = some t' ∧ t'.terminalColor = t.terminalColor ∧
      Refines t' (m.put c) := by
  obtain ⟨vga', hput, hshows⟩ := ShowsRows.putentry h.shows hc m.column
  rw [← h.row, ← h.column] at hput
  have hrun : putAtCursor t c =
      some ⟨vga', t.terminalRow, t.terminalColumn + 1, t.terminalColor⟩ := by
    rw [putAtCursor, if_neg hnewline, if_neg hbackspace, hput]
    rfl
  rw [ScrollText.put]
  split
  · exact terminalPutchar_room hrun rfl ⟨h.row, congrArg (· + 1) h.column, hshows⟩
  · next hfull =>
    have hcolumn : t.terminalColumn + 1 = vgaWidth := by
      have := m.column.isLt
      rw [h.column]
      omega
    exact terminalPutchar_full hrun rfl h.row hcolumn hshows

/-- One character of seven bits, typed into the text and written to the terminal. -/
theorem Refines.putchar (h : Refines t m) (hc : c.toNat < 128) :
    ∃ t', terminalPutchar t c = some t' ∧ t'.terminalColor = t.terminalColor ∧
      Refines t' (typeChar m c) := by
  rw [typeChar]
  split
  · next hnewline => exact hnewline ▸ h.newline
  · next hnewline =>
    split
    · next hbackspace => exact hbackspace ▸ h.backspace
    · next hbackspace => exact h.put hc hnewline hbackspace

end Step

/-- The blank screen after `terminal_initialize` shows the empty text. -/
theorem terminalInitialize_refines (vga : Vga) :
    ∃ t, terminalInitialize vga = some t ∧ t.terminalColor = vgaMakeColor .lightGrey .black ∧
      Refines t (ScrollText.empty (by decide)) := by
  let t₀ : TerminalState := ⟨vga, 0, 0, vgaMakeColor .lightGrey .black⟩
  obtain ⟨vga', hclear, hscreen⟩ := terminalClear_screen t₀
  refine ⟨{ t₀ with vga := vga' }, hclear, rfl, ⟨rfl, rfl, fun y hy => ?_⟩⟩
  have hblank : window vgaHeight blankRow [blankRow] y = blankRow := by
    rw [← List.nil_append [blankRow], window_concat_blank_of_lt blankRow (by decide)]
    rfl
  rw [hscreen y hy]
  funext x
  change blankEntry t₀ = entryOf _ (window vgaHeight blankRow [blankRow] y x)
  rw [hblank]
  exact vgaMakeVgaentry_eq (by decide) _

variable {m : Text}

/-- Text that is written to a terminal is typed. -/
theorem Refines.putchars (h : Refines t m) {text : List (BitVec 8)} (htext : ∀ c ∈ text, c.toNat < 128) :
    ∃ t', terminalPutchars t text = some t' ∧ t'.terminalColor = t.terminalColor ∧
      Refines t' (text.foldl typeChar m) := by
  induction text generalizing t m with
  | nil => exact ⟨t, rfl, rfl, h⟩
  | cons c rest ih =>
    obtain ⟨t₁, hput, hcolor, h₁⟩ := h.putchar (htext c List.mem_cons_self)
    obtain ⟨t', hrest, hcolor', h'⟩ := ih h₁ fun x hx => htext x (List.mem_cons_of_mem c hx)
    refine ⟨t', ?_, hcolor'.trans hcolor, h'⟩
    rw [terminalPutchars, List.foldlM_cons, hput]
    exact hrest

/-- The view of a text: the cursor is inside the screen, the rows down to the cursor's are the last
rows of the text, all of them or as many as there is room for, and everything from the cursor on is
blank. -/
structure Views (t : TerminalState) (m : Text) : Prop where
  row_lt : t.terminalRow < vgaHeight
  column_lt : t.terminalColumn < vgaWidth
  column : t.terminalColumn = m.column
  row : t.terminalRow + 1 = min m.rows.length vgaHeight
  shown : ∀ y ≤ t.terminalRow, ∃ row, m.rows[m.rows.length - (t.terminalRow + 1) + y]? = some row ∧
    ∀ x : Fin vgaWidth, t.vga.vgaBuffer (y * vgaWidth + x) = entryOf t.terminalColor (row x)
  blank : ∀ index, t.terminalRow * vgaWidth + t.terminalColumn ≤ index →
    index < vgaWidth * vgaHeight → t.vga.vgaBuffer index = entryOf t.terminalColor space

/-- The rows down to the cursor's show the text. -/
theorem Refines.shown (h : Refines t m) {y : ℕ} (hy : y ≤ t.terminalRow) :
    ∃ row, m.rows[m.rows.length - (t.terminalRow + 1) + y]? = some row ∧
      screen t.vga y = fun x => entryOf t.terminalColor (row x) := by
  have hheight : vgaHeight = 25 := rfl
  have hrow := h.row
  have hlength : m.rows.length = m.above.length + 1 := List.length_append
  have htop : m.rows.length - vgaHeight + y = m.rows.length - (t.terminalRow + 1) + y := by omega
  have hlt : m.rows.length - (t.terminalRow + 1) + y < m.rows.length := by omega
  refine ⟨_, List.getElem?_eq_getElem hlt, ?_⟩
  rw [h.shows y (by omega), window, htop, List.getElem?_eq_getElem hlt, Option.getD_some]

/-- The rows below the cursor's are blank. -/
theorem Refines.blank_below (h : Refines t m) {y : ℕ} (hy : t.terminalRow < y)
    (hheight : y < vgaHeight) :
    screen t.vga y = fun _ => entryOf t.terminalColor space := by
  have hrow := h.row
  have hlength : m.rows.length = m.above.length + 1 := List.length_append
  have hnone : m.rows[m.rows.length - vgaHeight + y]? = none :=
    List.getElem?_eq_none (by omega)
  rw [h.shows y hheight, window, hnone]
  rfl

/-- Everything from the cursor on is blank. -/
theorem Refines.blank_from (h : Refines t m) {y : ℕ} (hy : y < vgaHeight) (x : Fin vgaWidth)
    (hfrom : t.terminalRow * vgaWidth + t.terminalColumn ≤ y * vgaWidth + x) :
    screen t.vga y x = entryOf t.terminalColor space := by
  have hcolumn := h.column
  have hx := x.isLt
  simp only [vgaWidth] at hfrom hx
  obtain hrow | hrow : y = t.terminalRow ∨ t.terminalRow < y := by omega
  · have hblank : m.current x = space := m.blank_from x (Fin.le_def.mpr (by omega))
    rw [hrow, h.row, ShowsRows.current h.shows]
    exact congrArg (entryOf t.terminalColor) hblank
  · rw [h.blank_below hrow hy]

/-- The refinement gives the view. -/
theorem Refines.views (h : Refines t m) : Views t m := by
  have hheight : vgaHeight = 25 := rfl
  have hrow := h.row
  have hlength : m.rows.length = m.above.length + 1 := List.length_append
  refine ⟨by omega, ?_, h.column, by omega, fun y hy => ?_, fun index hfrom hindex => ?_⟩
  · rw [h.column]
    exact m.column.isLt
  · obtain ⟨row, hget, hscreen⟩ := h.shown hy
    exact ⟨row, hget, fun x => congrFun hscreen x⟩
  · have hwidth : 0 < vgaWidth := by decide
    have hsplit : index / vgaWidth * vgaWidth + index % vgaWidth = index := Nat.div_add_mod' ..
    have hcell := h.blank_from (Nat.div_lt_of_lt_mul hindex)
      ⟨index % vgaWidth, Nat.mod_lt _ hwidth⟩ (by rwa [hsplit])
    rwa [screen, hsplit] at hcell

/-- After `terminal_initialize`, any characters of seven bits can be written, all writes to the
screen are inside the buffer, and the screen is the view of the text that was typed. -/
theorem terminal_views_text (vga : Vga) {text : List (BitVec 8)}
    (htext : ∀ c ∈ text, c.toNat < 128) :
    ∃ t₀ t, terminalInitialize vga = some t₀ ∧ terminalPutchars t₀ text = some t ∧
      t.terminalColor = t₀.terminalColor ∧
      Views t (text.foldl typeChar (ScrollText.empty (by decide))) := by
  obtain ⟨t₀, hinit, _, h₀⟩ := terminalInitialize_refines vga
  obtain ⟨t, hrun, hcolor, h⟩ := h₀.putchars htext
  exact ⟨t₀, t, hinit, hrun, hcolor, h.views⟩

/-- The characters `Hi` and a newline on a screen of zeros. -/
theorem terminal_views_hi :
    (∀ c ∈ [0x48, 0x69, newlineChar], c.toNat < 128) ∧
      ∃ t₀ t, terminalInitialize ⟨fun _ => 0, fun _ => 0⟩ = some t₀ ∧
        terminalPutchars t₀ [0x48, 0x69, newlineChar] = some t ∧
        t.terminalColor = t₀.terminalColor ∧
        Views t ((((ScrollText.empty (by decide) : Text).put 0x48).put 0x69).newline) := by
  have htext : ∀ c ∈ [0x48, 0x69, newlineChar], c.toNat < 128 := by decide
  exact ⟨htext, terminal_views_text ⟨fun _ => 0, fun _ => 0⟩ htext⟩

end ChrisOS.Terminal
