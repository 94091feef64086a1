import Mathlib.Data.List.Basic
import Mathlib.Logic.Function.Basic

/-!
# Scrolling text

Text of unbounded length as a list of rows of one width that grows at the end, with a cursor in the
last row. A character is placed at the cursor, a fresh blank row begins after the last column and on
a newline, and a backspace blanks the column before the cursor in the same row. A window of some
height shows the last rows, and blank ones below them as long as there are fewer.
-/

namespace ChrisOS.Lib

section Window

variable {ρ : Type*}

/-- The row that a window of height `h` on the last rows shows at `y`. -/
def window (h : ℕ) (blank : ρ) (rows : List ρ) (y : ℕ) : ρ :=
  rows[rows.length - h + y]?.getD blank

/-- A blank row at the end looks like no row. -/
theorem getD_concat_blank (blank : ρ) (rows : List ρ) (i : ℕ) :
    (rows ++ [blank])[i]?.getD blank = rows[i]?.getD blank := by
  rw [List.getElem?_append]
  split
  · rfl
  · next hi =>
    rw [List.getElem?_eq_none (Nat.le_of_not_lt hi), List.getElem?_singleton]
    split <;> rfl

/-- A fresh row is not seen while the window has room. -/
theorem window_concat_blank_of_lt {h : ℕ} (blank : ρ) {rows : List ρ} (hlt : rows.length < h)
    (y : ℕ) : window h blank (rows ++ [blank]) y = window h blank rows y := by
  have htop : (rows ++ [blank]).length - h = rows.length - h := by
    rw [List.length_append, List.length_singleton]
    omega
  rw [window, htop, getD_concat_blank, window]

/-- A fresh row moves a full window by one row. -/
theorem window_concat_blank_of_le {h : ℕ} (blank : ρ) {rows : List ρ} (hle : h ≤ rows.length)
    (y : ℕ) : window h blank (rows ++ [blank]) y = window h blank rows (y + 1) := by
  have htop : (rows ++ [blank]).length - h + y = rows.length - h + (y + 1) := by
    rw [List.length_append, List.length_singleton]
    omega
  rw [window, htop, getD_concat_blank, window]

/-- Where the window shows the last row. -/
theorem window_concat_self {h : ℕ} (hh : 0 < h) (blank : ρ) (above : List ρ) (last : ρ) :
    window h blank (above ++ [last]) (min above.length (h - 1)) = last := by
  have hlast : (above ++ [last]).length - h + min above.length (h - 1) = above.length := by
    rw [List.length_append, List.length_singleton]
    omega
  rw [window, hlast, List.getElem?_concat_length, Option.getD_some]

/-- The other rows of the window do not depend on the last row. -/
theorem window_concat_of_ne {h y : ℕ} (blank : ρ) (above : List ρ) (last last' : ρ)
    (hne : y ≠ min above.length (h - 1)) :
    window h blank (above ++ [last]) y = window h blank (above ++ [last']) y := by
  have hother : (above ++ [last]).length - h + y ≠ above.length := by
    rw [List.length_append, List.length_singleton]
    omega
  rw [List.length_append, List.length_singleton] at hother
  simp only [window, List.length_append, List.length_singleton, List.getElem?_append,
    List.getElem?_singleton]
  split
  · rfl
  · rw [if_neg (by omega), if_neg (by omega)]

end Window

/-- Text of width `w` with a cursor, behind which the last row is blank. -/
structure ScrollText (α : Type*) (w : ℕ) (blank : α) where
  above : List (Fin w → α)
  current : Fin w → α
  column : Fin w
  blank_from : ∀ x, column ≤ x → current x = blank

namespace ScrollText

variable {α : Type*} {w : ℕ} {blank : α}

/-- All rows. -/
def rows (t : ScrollText α w blank) : List (Fin w → α) := t.above ++ [t.current]

/-- No text. -/
def empty (hw : 0 < w) : ScrollText α w blank := ⟨[], fun _ => blank, ⟨0, hw⟩, fun _ _ => rfl⟩

/-- End the last row with these contents and begin a fresh one. -/
def finishRow (t : ScrollText α w blank) (row : Fin w → α) : ScrollText α w blank where
  above := t.above ++ [row]
  current := fun _ => blank
  column := ⟨0, t.column.pos⟩
  blank_from := fun _ _ => rfl

/-- Begin a fresh row. -/
def newline (t : ScrollText α w blank) : ScrollText α w blank := t.finishRow t.current

/-- Place a character at the cursor. -/
def put (t : ScrollText α w blank) (c : α) : ScrollText α w blank :=
  if h : t.column.val + 1 < w then
    { above := t.above
      current := Function.update t.current t.column c
      column := ⟨t.column.val + 1, h⟩
      blank_from := fun x hx => by
        have hlt : t.column < x := Nat.lt_of_succ_le hx
        rw [Function.update_of_ne (Fin.ne_of_gt hlt)]
        exact t.blank_from x (Fin.le_of_lt hlt) }
  else t.finishRow (Function.update t.current t.column c)

/-- The column before. -/
def before (column : Fin w) : Fin w := ⟨column.val - 1, by omega⟩

/-- Blank the column before the cursor and move there. -/
def backspace (t : ScrollText α w blank) : ScrollText α w blank :=
  if 0 < t.column.val then
    { above := t.above
      current := Function.update t.current (before t.column) blank
      column := before t.column
      blank_from := fun x hx => by
        by_cases hself : x = before t.column
        · rw [hself, Function.update_self]
        · have hbefore : t.column.val - 1 ≤ x.val := hx
          have hval : x.val ≠ t.column.val - 1 := fun heq => hself (Fin.ext heq)
          rw [Function.update_of_ne hself]
          exact t.blank_from x (Fin.le_def.mpr (by omega)) }
  else t

end ScrollText

end ChrisOS.Lib
