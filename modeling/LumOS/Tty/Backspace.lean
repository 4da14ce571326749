import LumOS.Tty.Screen

/-!
# Backspace

A backspace moves the cursor to the left and empties the cell there; at the start of a row it stays where it is. So it undoes a
character that was drawn anywhere but in the last column (`Undone`). A character in the last column takes the cursor to the start of
the next row, and stays when a backspace comes after it (`Stays`).
-/

namespace LumOS

/-- The cursor is in one of the columns of the screen, in one of its rows or below the last one. -/
structure InColumns (t : Tty) : Prop where
  row : t.row ≤ 25
  column : t.column < 80

theorem InColumns.settle {t : Tty} (h : InColumns t) : t.settle.row ≤ 24 ∧ t.settle.column < 80 := by
  have hle := h.row
  have hcol := h.column
  unfold Tty.settle
  by_cases hrow : t.row = vgaHeight
  · obtain ⟨hr, hc, _⟩ := terminalScroll_spec hrow
    rw [if_pos hrow, hr, hc]
    exact ⟨Nat.le_refl _, hcol⟩
  · rw [if_neg hrow]
    simp only [vgaHeight] at hrow
    exact ⟨by omega, hcol⟩

namespace Tty

/-- By how many rows the screen scrolls when a character is drawn at the cursor. -/
def scrolls (t : Tty) : Nat := if t.column = 79 ∧ t.row = 24 then 1 else 0

/-- What a cell shows after such a scroll. -/
def scrolled (t : Tty) (i : Nat) : BitVec 16 := if i + 80 * t.scrolls < 2000 then t.buffer (i + 80 * t.scrolls) else t.blank

end Tty

/-! ## A character and a backspace -/

/-- A character has been drawn: the cursor is in the next cell, and the character is in the cell it was in. -/
structure DrawnAtCursor (c : BitVec 8) (t t' : Tty) : Prop where
  row_le : t'.row ≤ 24
  row : t'.row + t.scrolls = t.row + if t.column = 79 then 1 else 0
  column : t'.column = if t.column = 79 then 0 else t.column + 1
  color : t'.color = t.color
  cells : ∀ i < 2000, t'.buffer i =
    if i + 80 * t.scrolls = 80 * t.row + t.column then vgaEntry c (t.color.setWidth 16) else t.scrolled i

section

variable {c : BitVec 8} {t t' : Tty}

/-- The cells after a character has been drawn, before the wrap. -/
theorem draw_cells (hrow : t.row ≤ 24) (hcol : t.column < 80) (i : Nat) :
    (t.draw (ttyIndex t.row t.column) c).right.buffer i =
      if i = 80 * t.row + t.column then vgaEntry c (t.color.setWidth 16) else t.buffer i := by
  rw [← ttyIndex_eq (Nat.le_succ_of_le hrow) (by omega : t.column < 2000)]
  rfl

/-- A character that is drawn without a scroll. -/
theorem drawnAtCursor_of_not_scrolls (hrow : t.row ≤ 24) (hcol : t.column < 80) (hscrolls : t.scrolls = 0) (hle : t'.row ≤ 24)
    (hrow' : t'.row = t.row + if t.column = 79 then 1 else 0) (hcolumn : t'.column = if t.column = 79 then 0 else t.column + 1)
    (hcolor : t'.color = t.color) (hbuf : t'.buffer = (t.draw (ttyIndex t.row t.column) c).right.buffer) :
    DrawnAtCursor c t t' := by
  refine ⟨hle, ?_, hcolumn, hcolor, ?_⟩
  · rw [hscrolls, hrow', Nat.add_zero]
  · intro i hi
    rw [Tty.scrolled, hscrolls, if_pos (by omega : i + 80 * 0 < 2000), hbuf]
    exact draw_cells hrow hcol i

/-- A character that is drawn in the last cell of the screen. -/
theorem drawnAtCursor_scroll (hrow : t.row = 24) (hcol : t.column = 79)
    (hbottom : (t.draw (ttyIndex t.row t.column) c).right.newline.row = vgaHeight) :
    DrawnAtCursor c t (terminalScroll (t.draw (ttyIndex t.row t.column) c).right.newline) := by
  have hscrolls : t.scrolls = 1 := if_pos ⟨hcol, hrow⟩
  have hbuf := draw_cells (c := c) (Nat.le_of_eq hrow) (by omega : t.column < 80)
  obtain ⟨hr, hc, hcolor, _, hcells⟩ := terminalScroll_spec hbottom
  refine ⟨Nat.le_of_eq hr, ?_, ?_, hcolor, ?_⟩
  · rw [hr, hscrolls, hrow, if_pos hcol]
  · rw [hc, if_pos hcol]
    rfl
  · intro i hi
    rw [hcells i hi, Tty.scrolled, hscrolls]
    by_cases hup : i < 1920
    · rw [if_pos hup, if_pos (by omega : i + 80 * 1 < 2000)]
      exact hbuf (i + 80)
    · rw [if_neg hup, if_neg (by omega), if_neg (by omega)]
      rfl

end

/-- Drawing a character at a cursor that is on the screen. -/
theorem drawnAtCursor (c : BitVec 8) {t : Tty} (hrow : t.row ≤ 24) (hcol : t.column < 80) :
    DrawnAtCursor c t (t.draw (ttyIndex t.row t.column) c).right.wrap := by
  have hright : (t.draw (ttyIndex t.row t.column) c).right.column = t.column + 1 :=
    Nat.mod_eq_of_lt (show t.column + 1 < 2 ^ 32 by omega)
  have hdown : (t.draw (ttyIndex t.row t.column) c).right.newline.row = t.row + 1 := Tty.newline_row _ hrow
  unfold Tty.wrap
  rw [hright, hdown]
  by_cases hlast : t.column = 79
  · rw [if_pos (show t.column + 1 ≥ vgaWidth from Nat.le_of_eq (by rw [hlast]; rfl))]
    by_cases hbottom : t.row = 24
    · rw [if_pos (show t.row + 1 ≥ vgaHeight from Nat.le_of_eq (by rw [hbottom]; rfl))]
      exact drawnAtCursor_scroll hbottom hlast (by rw [hdown, hbottom]; rfl)
    · have hno : ¬t.row + 1 ≥ vgaHeight := by
        rw [vgaHeight]
        omega
      have hscrolls : t.scrolls = 0 := if_neg (fun h => hbottom h.2)
      rw [if_neg hno]
      refine drawnAtCursor_of_not_scrolls hrow hcol hscrolls (by omega) ?_ ?_ rfl rfl
      · rw [hdown, if_pos hlast]
      · rw [if_pos hlast]
        rfl
  · have hno : ¬t.column + 1 ≥ vgaWidth := by
      rw [vgaWidth]
      omega
    have hscrolls : t.scrolls = 0 := if_neg (fun h => hlast h.1)
    rw [if_neg hno]
    refine drawnAtCursor_of_not_scrolls hrow hcol hscrolls hrow ?_ ?_ rfl rfl
    · rw [if_neg hlast]
      rfl
    · rw [hright, if_neg hlast]

/-- A backspace empties the cell before the cursor's, or the cursor's own at the start of a row. -/
theorem terminalPutchar_back_cells {t : Tty} (hrow : t.row ≤ 24) (hcol : t.column < 80) :
    (terminalPutchar t 8).row = t.row ∧ (terminalPutchar t 8).column = t.column - 1 ∧
      ∀ i, (terminalPutchar t 8).buffer i = if i = 80 * t.row + (t.column - 1) then t.blank else t.buffer i := by
  have hsettle : t.settle = t := if_neg (by simp only [vgaHeight]; omega)
  have hleft : t.left.column = t.column - 1 := by
    simp only [Tty.left]
    split <;> omega
  have hindex : ttyIndex t.row (t.column - 1) = 80 * t.row + (t.column - 1) :=
    ttyIndex_eq (Nat.le_succ_of_le hrow) (by omega)
  rw [terminalPutchar_back, hsettle, hleft]
  refine ⟨rfl, hleft, ?_⟩
  intro i
  rw [← hindex]
  rfl

/-! ## What the two do together -/

/-- A character has been undone: the cursor is in the cell in which it was drawn, this cell is empty, and all others show what they
showed before, up to the scroll. -/
structure Undone (t t' : Tty) : Prop where
  row : t'.row + t.scrolls = t.row
  column : t'.column = t.column
  cells : ∀ i < 2000, t'.buffer i = if i = 80 * t'.row + t'.column then t.blank else t.scrolled i

/-- A character has stayed: the cursor is at the start of the row after it, the cell there is empty, the one before it shows the
character, and all others show what they showed before, up to the scroll. -/
structure Stays (c : BitVec 8) (t t' : Tty) : Prop where
  row : t'.row + t.scrolls = t.row + 1
  column : t'.column = 0
  cells : ∀ i < 2000, t'.buffer i =
    if i = 80 * t'.row then t.blank
    else if i + 1 = 80 * t'.row then vgaEntry c (t.color.setWidth 16)
    else t.scrolled i

/-- A backspace after a character that was drawn before the last column. -/
theorem DrawnAtCursor.undone {c : BitVec 8} {t t' : Tty} (h : DrawnAtCursor c t t') (hcol : t.column < 79) :
    Undone t (terminalPutchar t' 8) := by
  have hne : t.column ≠ 79 := Nat.ne_of_lt hcol
  have hrow := h.row
  have hcolumn := h.column
  rw [if_neg hne] at hrow hcolumn
  have hscrolls : t.scrolls = 0 := if_neg (fun h => hne h.1)
  obtain ⟨hr, hc, hcells⟩ := terminalPutchar_back_cells h.row_le (by omega)
  refine ⟨by omega, by omega, ?_⟩
  intro i hi
  rw [hcells i, hr, hc, Tty.blank, h.color]
  by_cases hhere : i = 80 * t'.row + (t'.column - 1)
  · rw [if_pos hhere, if_pos hhere]
    rfl
  · rw [if_neg hhere, if_neg hhere, h.cells i hi, if_neg (by omega)]

/-- A backspace after a character that was drawn in the last column. -/
theorem DrawnAtCursor.stays {c : BitVec 8} {t t' : Tty} (h : DrawnAtCursor c t t') (hcol : t.column = 79) :
    Stays c t (terminalPutchar t' 8) := by
  have hrow := h.row
  have hcolumn := h.column
  rw [if_pos hcol] at hrow hcolumn
  obtain ⟨hr, hc, hcells⟩ := terminalPutchar_back_cells h.row_le (by omega)
  rw [hcolumn] at hc hcells
  refine ⟨by omega, hc, ?_⟩
  intro i hi
  rw [hcells i, hr, Tty.blank, h.color]
  by_cases hhere : i = 80 * t'.row
  · rw [if_pos (by omega), if_pos hhere]
    rfl
  · rw [if_neg (by omega), if_neg hhere, h.cells i hi]
    exact if_congr (by omega) rfl rfl

/-! ## Texts without tabs -/

/-- A character that is not a tab keeps the cursor in the columns of the screen. -/
theorem InColumns.putchar {t : Tty} (h : InColumns t) {c : BitVec 8} (htab : c ≠ 0x09) : InColumns (terminalPutchar t c) := by
  obtain ⟨hrow, hcol⟩ := h.settle
  by_cases hnl : c = 0x0A
  · rw [hnl, terminalPutchar_newline]
    refine ⟨?_, Nat.zero_lt_succ 79⟩
    rw [Tty.newline_row _ hrow]
    exact Nat.succ_le_succ hrow
  by_cases hback : c = 8
  · rw [hback, terminalPutchar_back]
    refine ⟨Nat.le_succ_of_le hrow, ?_⟩
    show t.settle.left.column < 80
    simp only [Tty.left]
    split <;> omega
  rw [terminalPutchar_draws t ⟨hnl, htab, hback⟩]
  have hdrawn := drawnAtCursor c hrow hcol
  refine ⟨Nat.le_succ_of_le hdrawn.row_le, ?_⟩
  rw [hdrawn.column]
  split <;> omega

theorem InColumns.write {t : Tty} {s : List (BitVec 8)} (h : InColumns t) (hs : ∀ c ∈ s, c ≠ 0x09) : InColumns (terminalWrite t s) := by
  induction s generalizing t with
  | nil => exact h
  | cons c s ih =>
    obtain ⟨htab, htail⟩ := List.forall_mem_cons.mp hs
    exact ih (h.putchar htab) htail

theorem inColumns_init (memory : Nat → BitVec 16) : InColumns (terminalInit memory) := by
  obtain ⟨hrow, hcol, _⟩ := terminalInit_spec memory
  exact ⟨by omega, by omega⟩

/-- After any text without tabs, a character and a backspace: the backspace undoes the character when that was drawn before the last
column, and the character stays when it was drawn in the last one. -/
theorem backspace_undoes_or_stays (memory : Nat → BitVec 16) (s : List (BitVec 8)) (hs : ∀ x ∈ s, x ≠ 0x09) {c : BitVec 8}
    (hc : Draws c) :
    (terminalWrite (terminalInit memory) s).settle.column < 79 ∧
        Undone (terminalWrite (terminalInit memory) s).settle (terminalWrite (terminalInit memory) (s ++ [c, 8])) ∨
      (terminalWrite (terminalInit memory) s).settle.column = 79 ∧
        Stays c (terminalWrite (terminalInit memory) s).settle (terminalWrite (terminalInit memory) (s ++ [c, 8])) := by
  have hwrite : terminalWrite (terminalInit memory) (s ++ [c, 8]) =
      terminalPutchar (terminalPutchar (terminalWrite (terminalInit memory) s) c) 8 := List.foldl_append ..
  obtain ⟨hrow, hcol⟩ := ((inColumns_init memory).write hs).settle
  have hdrawn := drawnAtCursor c hrow hcol
  rw [hwrite, terminalPutchar_draws _ hc]
  rcases Nat.lt_or_eq_of_le (Nat.le_of_lt_succ hcol) with hlt | hlast
  · exact .inl ⟨hlt, hdrawn.undone hlt⟩
  · exact .inr ⟨hlast, hdrawn.stays hlast⟩

/-- A character after a newline and three others. -/
theorem backspace_undoes_fourth :
    Undone (terminalWrite (terminalInit (fun _ => 0)) [0x0A, 0x61, 0x62, 0x63]).settle
      (terminalWrite (terminalInit (fun _ => 0)) ([0x0A, 0x61, 0x62, 0x63] ++ [0x64, 8])) := by
  have hcases := backspace_undoes_or_stays (fun _ => 0) [0x0A, 0x61, 0x62, 0x63] (by decide) (c := 0x64) (by decide)
  have hcol : (terminalWrite (terminalInit (fun _ => 0)) [0x0A, 0x61, 0x62, 0x63]).settle.column = 3 := by decide +kernel
  rw [hcol] at hcases
  rcases hcases with ⟨_, hundone⟩ | ⟨hlast, _⟩
  · exact hundone
  · exact absurd hlast (by decide)

/-- A full row and a backspace: the last character stays. -/
theorem backspace_keeps_last : ¬Undone (terminalWrite (terminalInit (fun _ => 0)) (List.replicate 79 0x61)).settle
    (terminalWrite (terminalInit (fun _ => 0)) (List.replicate 79 0x61 ++ [0x62, 8])) := by
  intro h
  exact absurd h.column (by decide +kernel)

end LumOS
