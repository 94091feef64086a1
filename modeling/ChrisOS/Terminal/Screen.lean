import ChrisOS.Terminal.Terminal

/-!
# What the terminal's loops do to the screen

The buffer is read as a screen of rows, and each loop that writes to it becomes an operation on
whole rows. Along the way every write is found to be inside the buffer.
-/

namespace ChrisOS.Terminal

open ChrisOS.Lib ChrisOS.Drivers

/-- The entry at a column of a row. -/
def screen (vga : Vga) (y : ℕ) (x : Fin vgaWidth) : BitVec 16 := vga.vgaBuffer (y * vgaWidth + x)

/-- A store into a row of the screen. -/
theorem store_screen (vga : Vga) {y : ℕ} (hy : y < vgaHeight) (x : Fin vgaWidth)
    (entry : BitVec 16) :
    ∃ vga', vga.store (y * vgaWidth + x) entry = some vga' ∧
      screen vga' = Function.update (screen vga) y (Function.update (screen vga y) x entry) := by
  have hindex : y * vgaWidth + x < vgaWidth * vgaHeight := by
    have := x.isLt
    simp only [vgaWidth, vgaHeight] at *
    omega
  refine ⟨_, if_pos hindex, ?_⟩
  funext y' x'
  change Function.update vga.vgaBuffer (y * vgaWidth + x) entry (y' * vgaWidth + x') = _
  by_cases hy' : y' = y
  · subst hy'
    rw [Function.update_self]
    by_cases hx' : x' = x
    · rw [hx', Function.update_self, Function.update_self]
    · rw [Function.update_of_ne hx', Function.update_of_ne fun heq => hx' (Fin.ext (by omega))]
      rfl
  · rw [Function.update_of_ne hy', Function.update_of_ne]
    · rfl
    · have := x.isLt
      have := x'.isLt
      simp only [vgaWidth] at *
      omega

/-- `terminal_putentryat` inside the screen. -/
theorem terminalPutentryat_screen (t : TerminalState) (c color : BitVec 8) (x : Fin vgaWidth) {y : ℕ}
    (hy : y < vgaHeight) :
    ∃ vga', terminalPutentryat t c color x y = some { t with vga := vga' } ∧
      screen vga' = Function.update (screen t.vga) y
        (Function.update (screen t.vga y) x (vgaMakeVgaentry c color)) := by
  obtain ⟨vga', hstore, hscreen⟩ := store_screen t.vga hy x (vgaMakeVgaentry c color)
  refine ⟨vga', ?_, hscreen⟩
  rw [terminalPutentryat, vgaPutChar, hstore]
  rfl

/-- A blank entry in the terminal's color. -/
def blankEntry (t : TerminalState) : BitVec 16 := vgaMakeVgaentry space t.terminalColor

/-- `terminal_clear_line_end` blanks the rest of a row. -/
theorem terminalClearLineEnd_screen (t : TerminalState) {x y : ℕ} (hx : x ≤ vgaWidth)
    (hy : y < vgaHeight) :
    ∃ vga', terminalClearLineEnd t x y = some { t with vga := vga' } ∧
      screen vga' = Function.update (screen t.vga) y
        (filled x vgaWidth (fun _ => blankEntry t) (screen t.vga y)) := by
  let inv : ℕ → TerminalState → Prop := fun k s => ∃ vga', s = { t with vga := vga' } ∧
    screen vga' = Function.update (screen t.vga) y
      (filled x k (fun _ => blankEntry t) (screen t.vga y))
  have hloop : ∃ s, terminalClearLineEnd t x y = some s ∧ inv (x + (vgaWidth - x)) s := by
    apply countedLoop_inv inv
    · refine ⟨t.vga, rfl, ?_⟩
      rw [filled_self, Function.update_eq_self]
    · rintro k s hxk hk ⟨vga', rfl, hscreen⟩
      let column : Fin vgaWidth := ⟨k, by omega⟩
      obtain ⟨vga'', hput, hscreen'⟩ := terminalPutentryat_screen { t with vga := vga' } space
        t.terminalColor column hy
      refine ⟨_, hput, vga'', rfl, ?_⟩
      rw [hscreen', hscreen, Function.update_idem, Function.update_self]
      exact congrArg _ (update_filled column hxk _ _)
  obtain ⟨s, hrun, vga', rfl, hscreen⟩ := hloop
  rw [Nat.add_sub_of_le hx] at hscreen
  exact ⟨vga', hrun, hscreen⟩

/-- `terminal_clear` blanks every row. -/
theorem terminalClear_screen (t : TerminalState) :
    ∃ vga', terminalClear t = some { t with vga := vga' } ∧
      ∀ y < vgaHeight, screen vga' y = fun _ => blankEntry t := by
  let inv : ℕ → TerminalState → Prop := fun k s => ∃ vga', s = { t with vga := vga' } ∧
    ∀ y < k, screen vga' y = fun _ => blankEntry t
  have hloop : ∃ s, terminalClear t = some s ∧ inv (0 + vgaHeight) s := by
    apply countedLoop_inv inv
    · exact ⟨t.vga, rfl, fun y hy => absurd hy (Nat.not_lt_zero y)⟩
    · rintro k s - hk ⟨vga', rfl, hscreen⟩
      obtain ⟨vga'', hclear, hscreen'⟩ := terminalClearLineEnd_screen { t with vga := vga' }
        (Nat.zero_le _) (y := k) (by omega)
      refine ⟨_, hclear, vga'', rfl, fun y hy => ?_⟩
      rw [hscreen']
      by_cases hyk : y = k
      · subst hyk
        rw [Function.update_self, filled_zero]
        rfl
      · rw [Function.update_of_ne hyk]
        exact hscreen y (by omega)
  obtain ⟨s, hrun, vga', rfl, hscreen⟩ := hloop
  rw [Nat.zero_add] at hscreen
  exact ⟨vga', hrun, hscreen⟩

/-- The inner loop of `vga_scroll_row` copies a row into the one above. -/
theorem copyRow_screen (vga : Vga) {y : ℕ} (hy : y + 1 < vgaHeight) :
    ∃ vga', countedLoop (fun x vga => Vga.store vga ((y + 1) * vgaWidth + x - vgaWidth)
        (vga.vgaBuffer ((y + 1) * vgaWidth + x))) 0 vgaWidth vga = some vga' ∧
      screen vga' = Function.update (screen vga) y (screen vga (y + 1)) := by
  let inv : ℕ → Vga → Prop := fun k vga' => screen vga' = Function.update (screen vga) y
    (filled 0 k (screen vga (y + 1)) (screen vga y))
  obtain ⟨vga', hrun, hscreen⟩ : ∃ vga', countedLoop (fun x vga =>
      Vga.store vga ((y + 1) * vgaWidth + x - vgaWidth) (vga.vgaBuffer ((y + 1) * vgaWidth + x)))
      0 vgaWidth vga = some vga' ∧ inv (0 + vgaWidth) vga' := by
    apply countedLoop_inv inv
    · change screen vga = Function.update (screen vga) y (filled 0 0 _ _)
      rw [filled_self, Function.update_eq_self]
    · intro k s _ hk hscreen
      let column : Fin vgaWidth := ⟨k, by omega⟩
      have hindex : (y + 1) * vgaWidth + k - vgaWidth = y * vgaWidth + k := by
        rw [Nat.succ_mul]
        omega
      -- the row that is read is not the one being filled
      have hentry : s.vgaBuffer ((y + 1) * vgaWidth + k) = screen vga (y + 1) column := by
        change screen s (y + 1) column = _
        rw [hscreen, Function.update_of_ne (Nat.succ_ne_self y)]
      obtain ⟨s', hstore, hscreen'⟩ := store_screen s (Nat.lt_of_succ_lt hy) column
        (screen vga (y + 1) column)
      refine ⟨s', ?_, ?_⟩
      · rw [hindex, hentry]
        exact hstore
      · change screen s' = _
        rw [hscreen', hscreen, Function.update_idem, Function.update_self]
        exact congrArg _ (update_filled column (Nat.zero_le _) _ _)
  refine ⟨vga', hrun, ?_⟩
  rw [hscreen, Nat.zero_add, filled_zero]

/-- `vga_scroll_row` moves every row but the first one up, and leaves the last in place. -/
theorem vgaScrollRow_screen (vga : Vga) :
    ∃ vga', vgaScrollRow vga = some vga' ∧
      screen vga' = fun y => if y + 1 < vgaHeight then screen vga (y + 1) else screen vga y := by
  let inv : ℕ → Vga → Prop := fun k vga' =>
    screen vga' = fun y => if y + 1 < k then screen vga (y + 1) else screen vga y
  apply countedLoop_inv inv
  · change screen vga = _
    funext y
    rw [if_neg (by omega)]
  · intro k s hk hkheight hscreen
    obtain ⟨y, rfl⟩ : ∃ y, k = y + 1 := ⟨k - 1, by omega⟩
    have hy : y + 1 < vgaHeight := by
      simp only [vgaHeight] at hkheight ⊢
      omega
    obtain ⟨s', hcopy, hscreen'⟩ := copyRow_screen s hy
    refine ⟨s', hcopy, ?_⟩
    change screen s' = _
    rw [hscreen', hscreen]
    funext y'
    by_cases hy' : y' = y
    · subst hy'
      rw [Function.update_self, if_pos (Nat.lt_succ_self _)]
      exact if_neg (by omega)
    · rw [Function.update_of_ne hy']
      congr 1
      rw [eq_iff_iff]
      omega

end ChrisOS.Terminal
