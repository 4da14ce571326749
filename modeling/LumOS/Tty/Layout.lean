import LumOS.Tty.Basic

/-!
# The terminal as a window on an unbounded layout

What a terminal is for: text is laid out in reading order on a grid of 80 columns and any number of rows (`Layout`), and the screen
shows the last rows of it. For text without tabs and backspaces the terminal's memory is such a window (`terminal_shows_layout`).
The relation that carries the proof is `Shows t l top`: the screen shows the layout from row `top` on. The cursor is one row below
the screen after a newline on the last row, until the next character scrolls.
-/

namespace LumOS

/-- Text laid out on 80 columns: the characters written, by row and column, and the cursor. -/
structure Layout where
  cell : Nat → Nat → Option (BitVec 8)
  row : Nat
  column : Nat

namespace Layout

/-- Nothing written. -/
def empty : Layout := ⟨fun _ _ => none, 0, 0⟩

/-- The cursor moves to the start of the next row. -/
def newline (l : Layout) : Layout := { l with row := l.row + 1, column := 0 }

/-- A character is written at the cursor, which moves to the right. -/
def write (l : Layout) (c : BitVec 8) : Layout :=
  { l with cell := fun r x => if r = l.row ∧ x = l.column then some c else l.cell r x, column := l.column + 1 }

/-- One character of text; writing the last column moves to the next row. -/
def put (l : Layout) (c : BitVec 8) : Layout :=
  if c = 0x0A then l.newline else if (l.write c).column = 80 then (l.write c).newline else l.write c

/-- The layout of a text. -/
def ofText (s : List (BitVec 8)) : Layout := s.foldl put empty

end Layout

/-- What a cell of the screen holds for a cell of the layout: the character, or a space where nothing is written. -/
def shown (color : BitVec 8) (c : Option (BitVec 8)) : BitVec 16 := vgaEntry (c.getD 0x20) (color.setWidth 16)

/-- The screen shows the layout from row `top` on. -/
structure Shows (t : Tty) (l : Layout) (top : Nat) : Prop where
  row : t.row + top = l.row
  row_le : t.row ≤ 25
  top_eq : t.row < 24 → top = 0
  column : t.column = l.column
  pending : t.row = 25 → l.column = 0
  color : t.color = vgaEntryColor vgaColorGreen vgaColorBlack
  unwritten : ∀ r x, l.row < r ∨ (r = l.row ∧ l.column ≤ x) → l.cell r x = none
  cells : ∀ k < 25, ∀ x < 80, t.buffer (80 * k + x) = shown t.color (l.cell (top + k) x)

section

variable {t : Tty} {l : Layout} {top : Nat}

/-- Scrolling shows the layout one row further down. -/
theorem Shows.scroll (h : Shows t l top) (hrow : t.row = vgaHeight) : Shows (terminalScroll t) l (top + 1) := by
  obtain ⟨hr, hcol, hcolor, _, hbuf⟩ := terminalScroll_spec hrow
  have hlr := h.row
  rw [hrow] at hlr
  simp only [vgaHeight] at hlr
  refine ⟨by rw [hr]; omega, by rw [hr]; omega, fun h => by rw [hr] at h; omega, by rw [hcol, h.column],
    fun h => by rw [hr] at h; omega, hcolor.trans h.color, h.unwritten, fun k hk x hx => ?_⟩
  rw [hbuf _ (by omega), hcolor]
  by_cases hlast : k = 24
  · -- the row that comes up is not written yet
    have hnone : l.cell (top + 1 + k) x = none := by
      refine h.unwritten _ _ (Or.inr ⟨by omega, ?_⟩)
      rw [h.pending hrow]
      exact Nat.zero_le x
    rw [if_neg (by omega), hnone]
    rfl
  · rw [if_pos (by omega)]
    have hcell := h.cells (k + 1) (by omega) x hx
    have hi : 80 * k + x + 80 = 80 * (k + 1) + x := by omega
    have hr : top + 1 + k = top + (k + 1) := by omega
    rw [hi, hr, hcell]

/-- The scroll that is pending after a newline on the last row. -/
theorem Shows.settle (h : Shows t l top) :
    ∃ top, Shows t.settle l top ∧ t.settle.row ≤ 24 := by
  unfold Tty.settle
  by_cases hrow : t.row = vgaHeight
  · rw [if_pos hrow]
    exact ⟨top + 1, h.scroll hrow, Nat.le_of_eq (terminalScroll_spec hrow).1⟩
  · rw [if_neg hrow]
    have hle := h.row_le
    simp only [vgaHeight] at hrow
    exact ⟨top, h, by omega⟩

/-- The cursor moves to the start of the next row, maybe below the screen. -/
theorem Shows.newline (h : Shows t l top) (hrow : t.row ≤ 24) : Shows t.newline l.newline top := by
  have hnext : (t.row + 1) % 2 ^ 32 = t.row + 1 := Nat.mod_eq_of_lt (by omega)
  have hlr := h.row
  rw [Tty.newline, hnext]
  refine ⟨by simp only [Layout.newline]; omega, Nat.succ_le_succ hrow, fun hlt => h.top_eq (by simp only at hlt; omega), rfl,
    fun _ => rfl, h.color, fun r x hrx => ?_, h.cells⟩
  simp only [Layout.newline] at hrx
  exact h.unwritten r x (Or.inl (by omega))

/-- A character is drawn at the cursor. -/
theorem Shows.write (h : Shows t l top) (hrow : t.row ≤ 24) (hcol : l.column < 80) (c : BitVec 8) :
    Shows (t.draw (ttyIndex t.row t.column) c).right (l.write c) top := by
  have hlc := h.column
  have hlr := h.row
  have hnext : (t.column + 1) % 2 ^ 32 = t.column + 1 := Nat.mod_eq_of_lt (by omega)
  rw [Tty.right, Tty.draw_column, hnext, ttyIndex_eq (by simp only [vgaHeight]; omega) (by omega)]
  refine ⟨h.row, h.row_le, h.top_eq, by simp only [Layout.write]; omega, fun h => by simp only [Tty.draw_row] at h; omega,
    h.color, fun r x hrx => ?_, fun k hk x hx => ?_⟩
  · simp only [Layout.write] at hrx ⊢
    rw [if_neg (by omega)]
    exact h.unwritten r x (by omega)
  · simp only [Tty.draw_buffer, Tty.draw_color, Layout.write]
    by_cases hhere : top + k = l.row ∧ x = l.column
    · rw [if_pos (by omega), if_pos hhere]
      rfl
    · rw [if_neg (by omega), if_neg hhere]
      exact h.cells k hk x hx

/-- One character keeps the screen a window on the layout. -/
theorem Shows.putchar (h : Shows t l top) (hcol : l.column < 80) {c : BitVec 8} (htab : c ≠ 0x09) (hback : c ≠ 8) :
    (∃ top, Shows (terminalPutchar t c) (l.put c) top) ∧ (l.put c).column < 80 := by
  obtain ⟨top, h, hrow⟩ := h.settle
  unfold Layout.put
  by_cases hnl : c = 0x0A
  · rw [hnl, terminalPutchar_newline, if_pos rfl]
    exact ⟨⟨top, h.newline hrow⟩, by simp [Layout.newline]⟩
  rw [terminalPutchar_draws t ⟨hnl, htab, hback⟩, if_neg hnl]
  unfold Tty.wrap
  have hw := h.write hrow hcol c
  have hwc := hw.column
  have hwr : (t.settle.draw (ttyIndex t.settle.row t.settle.column) c).right.row = t.settle.row := rfl
  have hwl : (l.write c).column = l.column + 1 := rfl
  generalize (t.settle.draw (ttyIndex t.settle.row t.settle.column) c).right = u at hw hwc hwr
  by_cases hwrap : (l.write c).column = 80
  · have hge : u.column ≥ vgaWidth := Nat.le_of_eq (hwrap.symm.trans hwc.symm)
    rw [if_pos hwrap, if_pos hge]
    have hn := hw.newline (hwr ▸ hrow)
    refine ⟨?_, by simp [Layout.newline]⟩
    by_cases hlast : u.newline.row ≥ vgaHeight
    · rw [if_pos hlast]
      exact ⟨top + 1, hn.scroll (Nat.le_antisymm hn.row_le hlast)⟩
    · rw [if_neg hlast]
      exact ⟨top, hn⟩
  · have hlt : ¬u.column ≥ vgaWidth := by
      rw [hwc, hwl, vgaWidth]
      omega
    rw [if_neg hwrap, if_neg hlt]
    exact ⟨⟨top, hw⟩, by omega⟩

end

/-- After `terminal_init` the screen shows the empty layout. -/
theorem shows_init (memory : Nat → BitVec 16) : Shows (terminalInit memory) .empty 0 := by
  obtain ⟨hrow, hcol, hcolor, _, hbuf⟩ := terminalInit_spec memory
  refine ⟨by rw [hrow]; rfl, by rw [hrow]; omega, fun _ => rfl, hcol, fun h => by rw [hrow] at h; omega, hcolor, fun _ _ _ => rfl,
    fun k hk x hx => ?_⟩
  rw [hbuf _ (by omega)]
  rfl

/-- Text without tabs and backspaces keeps the screen a window on the layout. -/
theorem Shows.write_text {t : Tty} {l : Layout} {top : Nat} {s : List (BitVec 8)} (h : Shows t l top) (hcol : l.column < 80)
    (hs : ∀ c ∈ s, c ≠ 0x09 ∧ c ≠ 8) :
    (∃ top, Shows (terminalWrite t s) (s.foldl Layout.put l) top) ∧ (s.foldl Layout.put l).column < 80 := by
  induction s generalizing t l top with
  | nil => exact ⟨⟨top, h⟩, hcol⟩
  | cons c s ih =>
    obtain ⟨hc1, hc2⟩ := hs c List.mem_cons_self
    obtain ⟨⟨top', h'⟩, hcol'⟩ := h.putchar hcol hc1 hc2
    exact ih h' hcol' (fun d hd => hs d (List.mem_cons_of_mem c hd))

/-- The terminal shows the last rows of the text's layout, with the cursor where the layout has it. -/
theorem terminal_shows_layout (memory : Nat → BitVec 16) (s : List (BitVec 8)) (hs : ∀ c ∈ s, c ≠ 0x09 ∧ c ≠ 8) :
    (terminalWrite (terminalInit memory) s).settle.row = min (Layout.ofText s).row 24 ∧
    (terminalWrite (terminalInit memory) s).settle.column = (Layout.ofText s).column ∧
    ∀ k < 25, ∀ x < 80, (terminalWrite (terminalInit memory) s).settle.buffer (80 * k + x) =
      shown (vgaEntryColor vgaColorGreen vgaColorBlack) ((Layout.ofText s).cell ((Layout.ofText s).row - 24 + k) x) := by
  obtain ⟨⟨top, h⟩, _⟩ := (shows_init memory).write_text (s := s) (by simp [Layout.empty]) hs
  obtain ⟨top, h, hrow⟩ := h.settle
  change Shows _ (Layout.ofText s) top at h
  have hlr := h.row
  have htop := h.top_eq
  refine ⟨by omega, h.column, fun k hk x hx => ?_⟩
  have heq : (Layout.ofText s).row - 24 = top := by omega
  rw [heq, ← h.color]
  exact h.cells k hk x hx

/-- Two characters and a newline. -/
theorem terminal_shows_layout_hi :
    (terminalWrite (terminalInit (fun _ => 0)) [0x48, 0x69, 0x0A]).settle.row = 1 ∧
    (terminalWrite (terminalInit (fun _ => 0)) [0x48, 0x69, 0x0A]).settle.column = 0 ∧
    (terminalWrite (terminalInit (fun _ => 0)) [0x48, 0x69, 0x0A]).settle.buffer (80 * 0 + 1) =
      shown (vgaEntryColor vgaColorGreen vgaColorBlack) (some 0x69) := by
  obtain ⟨hrow, hcol, hcells⟩ := terminal_shows_layout (fun _ => 0) [0x48, 0x69, 0x0A] (by decide)
  have hrow' : min (Layout.ofText [0x48, 0x69, 0x0A]).row 24 = 1 := by decide
  have hcol' : (Layout.ofText [0x48, 0x69, 0x0A]).column = 0 := by decide
  have hcell : (Layout.ofText [0x48, 0x69, 0x0A]).cell ((Layout.ofText [0x48, 0x69, 0x0A]).row - 24 + 0) 1 = some 0x69 := by decide
  refine ⟨hrow.trans hrow', hcol.trans hcol', ?_⟩
  rw [hcells 0 (by decide) 1 (by decide), hcell]

end LumOS
