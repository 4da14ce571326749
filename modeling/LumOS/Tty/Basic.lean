import LumOS.Lib.ForRange

/-!
# The terminal

`arch/i386/tty.c` and `vga.h`, function by function. A `size_t` is a number below `2 ^ 32`, computed with `% 2 ^ 32`. The buffer is
what is in memory from `tty_buffer` on, at any index, and the record notes each index at which the program reads or writes it.
-/

namespace LumOS

/-- `VGA_HEIGHT` -/
def vgaHeight : Nat := 25

/-- `VGA_WIDTH` -/
def vgaWidth : Nat := 80

/-- `VGA_COLOR_BLACK` -/
def vgaColorBlack : BitVec 8 := 0

/-- `VGA_COLOR_GREEN` -/
def vgaColorGreen : BitVec 8 := 2

/-- `vga_entry_color` -/
def vgaEntryColor (fg bg : BitVec 8) : BitVec 8 := fg ||| bg <<< 4

/-- `vga_entry` -/
def vgaEntry (c : BitVec 8) (color : BitVec 16) : BitVec 16 := c.setWidth 16 ||| color <<< 8

/-- The static variables of `tty.c`, the memory from `tty_buffer` on, and the indices used so far, the last one first. -/
structure Tty where
  row : Nat
  column : Nat
  color : BitVec 8
  buffer : Nat → BitVec 16
  accesses : List Nat

/-- `y * VGA_WIDTH + x` -/
def ttyIndex (y x : Nat) : Nat := (y * vgaWidth + x) % 2 ^ 32

namespace Tty

/-- `tty_buffer[i] = v` -/
def write (t : Tty) (i : Nat) (v : BitVec 16) : Tty :=
  { t with buffer := fun j => if j = i then v else t.buffer j, accesses := i :: t.accesses }

/-- `tty_buffer[i] = vga_entry(c, tty_color)` -/
def draw (t : Tty) (i : Nat) (c : BitVec 8) : Tty := t.write i (vgaEntry c (t.color.setWidth 16))

/-- `tty_buffer[dst] = tty_buffer[src]` -/
def copy (t : Tty) (dst src : Nat) : Tty := { t with accesses := src :: t.accesses }.write dst (t.buffer src)

end Tty

/-- `terminal_init`, over whatever the memory holds. -/
def terminalInit (memory : Nat → BitVec 16) : Tty :=
  forRange 0 vgaHeight (fun y => forRange 0 vgaWidth (fun x t => t.draw (ttyIndex y x) 0x20))
    { row := 0, column := 0, color := vgaEntryColor vgaColorGreen vgaColorBlack, buffer := memory, accesses := [] }

/-- `terminal_scroll` -/
def terminalScroll (t : Tty) : Tty :=
  let t := forRange 1 vgaHeight (fun y => forRange 0 vgaWidth (fun x t => t.copy (ttyIndex (y - 1) x) (ttyIndex y x))) t
  let t := { t with row := (t.row + 2 ^ 32 - 1) % 2 ^ 32 }
  forRange 0 vgaWidth (fun x t => t.draw (ttyIndex t.row x) 0x20) t

namespace Tty

/-- `if (tty_row == VGA_HEIGHT) terminal_scroll();` -/
def settle (t : Tty) : Tty := if t.row = vgaHeight then terminalScroll t else t

/-- `tty_column = 0; tty_row++;` -/
def newline (t : Tty) : Tty := { t with column := 0, row := (t.row + 1) % 2 ^ 32 }

/-- `++tty_column` -/
def right (t : Tty) : Tty := { t with column := (t.column + 1) % 2 ^ 32 }

/-- `if (tty_column-- == 0) tty_column = 0;` -/
def left (t : Tty) : Tty := { t with column := if t.column = 0 then 0 else t.column - 1 }

end Tty

/-- `terminal_putchar` -/
def terminalPutchar (t : Tty) (c : BitVec 8) : Tty :=
  let t := t.settle
  if c = 0x0A then t.newline
  else if c = 0x09 then { t with column := (t.column + 4) % 2 ^ 32 }
  else if c = 8 then
    let t := t.left
    t.draw (ttyIndex t.row t.column) 0x20
  else
    let t := (t.draw (ttyIndex t.row t.column) c).right
    if t.column ≥ vgaWidth then
      let t := t.newline
      if t.row ≥ vgaHeight then terminalScroll t else t
    else t

/-- `terminal_write` -/
def terminalWrite (t : Tty) (str : List (BitVec 8)) : Tty := str.foldl terminalPutchar t

/-! ## One character -/

/-- The character is drawn: it is not a newline, a tab or a backspace. -/
def Draws (c : BitVec 8) : Prop := c ≠ 0x0A ∧ c ≠ 0x09 ∧ c ≠ 8

instance (c : BitVec 8) : Decidable (Draws c) := inferInstanceAs (Decidable (_ ∧ _))

/-- What is left of `terminal_putchar` after `++tty_column`. -/
def Tty.wrap (t : Tty) : Tty :=
  if t.column ≥ vgaWidth then
    if t.newline.row ≥ vgaHeight then terminalScroll t.newline else t.newline
  else t

theorem terminalPutchar_newline (t : Tty) : terminalPutchar t 0x0A = t.settle.newline := by
  unfold terminalPutchar
  rw [if_pos rfl]

theorem terminalPutchar_tab (t : Tty) : terminalPutchar t 0x09 = { t.settle with column := (t.settle.column + 4) % 2 ^ 32 } := by
  unfold terminalPutchar
  rw [if_neg (by decide), if_pos rfl]

theorem terminalPutchar_back (t : Tty) :
    terminalPutchar t 8 = t.settle.left.draw (ttyIndex t.settle.left.row t.settle.left.column) 0x20 := by
  unfold terminalPutchar
  rw [if_neg (by decide), if_neg (by decide), if_pos rfl]

theorem terminalPutchar_draws (t : Tty) {c : BitVec 8} (hc : Draws c) :
    terminalPutchar t c = (t.settle.draw (ttyIndex t.settle.row t.settle.column) c).right.wrap := by
  unfold terminalPutchar
  rw [if_neg hc.1, if_neg hc.2.1, if_neg hc.2.2]
  rfl

/-! ## Writing to the buffer -/

namespace Tty

@[simp] theorem draw_row (t : Tty) (i : Nat) (c : BitVec 8) : (t.draw i c).row = t.row := rfl
@[simp] theorem draw_column (t : Tty) (i : Nat) (c : BitVec 8) : (t.draw i c).column = t.column := rfl
@[simp] theorem draw_color (t : Tty) (i : Nat) (c : BitVec 8) : (t.draw i c).color = t.color := rfl
@[simp] theorem draw_accesses (t : Tty) (i : Nat) (c : BitVec 8) : (t.draw i c).accesses = i :: t.accesses := rfl

@[simp] theorem draw_buffer (t : Tty) (i j : Nat) (c : BitVec 8) :
    (t.draw i c).buffer j = if j = i then vgaEntry c (t.color.setWidth 16) else t.buffer j := rfl

@[simp] theorem copy_buffer (t : Tty) (dst src j : Nat) :
    (t.copy dst src).buffer j = if j = dst then t.buffer src else t.buffer j := rfl

/-- The row after one of the screen's. -/
theorem newline_row (t : Tty) (h : t.row ≤ 24) : t.newline.row = t.row + 1 := Nat.mod_eq_of_lt (by omega)

/-- What an empty cell shows. -/
def blank (t : Tty) : BitVec 16 := vgaEntry 0x20 (t.color.setWidth 16)

end Tty

/-- Indices of cells on the screen do not wrap. -/
theorem ttyIndex_eq {y x : Nat} (hy : y ≤ vgaHeight) (hx : x < 2000) : ttyIndex y x = 80 * y + x := by
  simp only [vgaHeight] at hy
  simp only [ttyIndex, vgaWidth]
  omega

/-! ## Clearing and scrolling -/

/-- The state `t'` has the cursor and the colour of `t`, and its accesses are those of `t` and some on the screen. -/
structure SameCursor (t t' : Tty) : Prop where
  row : t'.row = t.row
  column : t'.column = t.column
  color : t'.color = t.color
  accesses : ∀ i ∈ t'.accesses, i ∈ t.accesses ∨ i < 2000
  kept : ∀ i ∈ t.accesses, i ∈ t'.accesses

theorem SameCursor.refl (t : Tty) : SameCursor t t := ⟨rfl, rfl, rfl, fun _ h => Or.inl h, fun _ h => h⟩

theorem SameCursor.trans {t t' t'' : Tty} (h : SameCursor t t') (h' : SameCursor t' t'') : SameCursor t t'' where
  row := h'.row.trans h.row
  column := h'.column.trans h.column
  color := h'.color.trans h.color
  accesses i hi := by
    rcases h'.accesses i hi with hi | hi
    · exact h.accesses i hi
    · exact Or.inr hi
  kept i hi := h'.kept i (h.kept i hi)

theorem SameCursor.draw (t : Tty) {i : Nat} (hi : i < 2000) (c : BitVec 8) : SameCursor t (t.draw i c) where
  row := rfl
  column := rfl
  color := rfl
  accesses j hj := by
    rcases List.mem_cons.mp hj with rfl | hj
    · exact Or.inr hi
    · exact Or.inl hj
  kept _ hj := List.mem_cons_of_mem _ hj

theorem SameCursor.copy (t : Tty) {i j : Nat} (hi : i < 2000) (hj : j < 2000) : SameCursor t (t.copy i j) where
  row := rfl
  column := rfl
  color := rfl
  accesses l hl := by
    rcases List.mem_cons.mp hl with rfl | hl
    · exact Or.inr hi
    rcases List.mem_cons.mp hl with rfl | hl
    · exact Or.inr hj
    · exact Or.inl hl
  kept _ hl := List.mem_cons_of_mem _ (List.mem_cons_of_mem _ hl)

/-- Clearing the cells of one row, which may be given by the cursor's row. -/
theorem clearRow_spec (t : Tty) {y : Nat} (hy : y < vgaHeight) (r : Tty → Nat) (hr : ∀ u : Tty, u.row = t.row → r u = y) :
    SameCursor t (forRange 0 vgaWidth (fun x t => t.draw (ttyIndex (r t) x) 0x20) t) ∧
    ∀ i, (forRange 0 vgaWidth (fun x t => t.draw (ttyIndex (r t) x) 0x20) t).buffer i =
      if 80 * y ≤ i ∧ i < 80 * y + 80 then t.blank else t.buffer i := by
  have hy' := hy
  simp only [vgaHeight] at hy'
  refine forRange_induct (Nat.zero_le _)
    (fun x u => SameCursor t u ∧ ∀ i, u.buffer i = if 80 * y ≤ i ∧ i < 80 * y + x then t.blank else t.buffer i) ?_ ?_
  · exact ⟨.refl t, fun i => by rw [if_neg (by omega)]⟩
  · rintro x u _ hx ⟨hsame, hbuf⟩
    simp only [vgaWidth] at hx
    rw [hr u hsame.row, ttyIndex_eq (Nat.le_of_lt hy) (by omega)]
    refine ⟨hsame.trans (.draw u (by omega) _), fun i => ?_⟩
    rw [Tty.draw_buffer, hsame.color, hbuf i]
    by_cases hi : i = 80 * y + x
    · rw [if_pos hi, if_pos (by omega), Tty.blank]
    · rw [if_neg hi]
      exact if_congr (by omega) rfl rfl

/-- Moving the cells of one row to the row above. -/
theorem copyRow_spec (t : Tty) {y : Nat} (h1 : 1 ≤ y) (hy : y < vgaHeight) :
    SameCursor t (forRange 0 vgaWidth (fun x t => t.copy (ttyIndex (y - 1) x) (ttyIndex y x)) t) ∧
    ∀ i, (forRange 0 vgaWidth (fun x t => t.copy (ttyIndex (y - 1) x) (ttyIndex y x)) t).buffer i =
      if 80 * (y - 1) ≤ i ∧ i < 80 * (y - 1) + 80 then t.buffer (i + 80) else t.buffer i := by
  have hy' := hy
  simp only [vgaHeight] at hy'
  refine forRange_induct (Nat.zero_le _) (fun x u => SameCursor t u ∧
    ∀ i, u.buffer i = if 80 * (y - 1) ≤ i ∧ i < 80 * (y - 1) + x then t.buffer (i + 80) else t.buffer i) ?_ ?_
  · exact ⟨.refl t, fun i => by rw [if_neg (by omega)]⟩
  · rintro x u _ hx ⟨hsame, hbuf⟩
    simp only [vgaWidth] at hx
    rw [ttyIndex_eq (Nat.le_of_lt hy) (by omega), ttyIndex_eq (y := y - 1) (by simp only [vgaHeight]; omega) (by omega)]
    refine ⟨hsame.trans (.copy u (by omega) (by omega)), fun i => ?_⟩
    rw [Tty.copy_buffer]
    by_cases hi : i = 80 * (y - 1) + x
    · rw [if_pos hi, hbuf, if_neg (by omega), if_pos (by omega)]
      congr 1
      omega
    · rw [if_neg hi, hbuf]
      exact if_congr (by omega) rfl rfl

/-- Moving the rows of the screen up by one. They are moved in place: when row `y` is read it still holds what it held. -/
theorem copyRows_spec (t : Tty) :
    SameCursor t (forRange 1 vgaHeight
      (fun y => forRange 0 vgaWidth (fun x t => t.copy (ttyIndex (y - 1) x) (ttyIndex y x))) t) ∧
    ∀ i, (forRange 1 vgaHeight
      (fun y => forRange 0 vgaWidth (fun x t => t.copy (ttyIndex (y - 1) x) (ttyIndex y x))) t).buffer i =
      if i < 1920 then t.buffer (i + 80) else t.buffer i := by
  refine forRange_induct (by decide)
    (fun y u => SameCursor t u ∧ ∀ i, u.buffer i = if i < 80 * (y - 1) then t.buffer (i + 80) else t.buffer i) ?_ ?_
  · exact ⟨.refl t, fun i => by rw [if_neg (by omega)]⟩
  · rintro y u h1 hy ⟨hsame, hbuf⟩
    obtain ⟨hrow, hcells⟩ := copyRow_spec u h1 hy
    refine ⟨hsame.trans hrow, fun i => ?_⟩
    rw [hcells i, hbuf (i + 80), hbuf i]
    by_cases hlt : i < 80 * (y - 1)
    · rw [if_neg (by omega), if_pos hlt, if_pos (by omega)]
    · by_cases hin : i < 80 * (y - 1) + 80
      · rw [if_pos (by omega), if_neg (by omega), if_pos (by omega)]
      · rw [if_neg (by omega), if_neg hlt, if_neg (by omega)]

/-- The terminal after `terminal_init`: the cursor at the top left of an empty screen. -/
theorem terminalInit_spec (memory : Nat → BitVec 16) :
    (terminalInit memory).row = 0 ∧ (terminalInit memory).column = 0 ∧ (terminalInit memory).color = 2 ∧
    (∀ i ∈ (terminalInit memory).accesses, i < 2000) ∧
    ∀ i < 2000, (terminalInit memory).buffer i = (terminalInit memory).blank := by
  let t₀ : Tty :=
    { row := 0, column := 0, color := vgaEntryColor vgaColorGreen vgaColorBlack, buffer := memory, accesses := [] }
  have hloop : SameCursor t₀ (terminalInit memory) ∧ ∀ i < 80 * vgaHeight, (terminalInit memory).buffer i = t₀.blank := by
    refine forRange_induct (Nat.zero_le _) (fun y u => SameCursor t₀ u ∧ ∀ i < 80 * y, u.buffer i = t₀.blank) ?_ ?_
    · exact ⟨.refl t₀, fun i hi => by omega⟩
    · rintro y u _ hy ⟨hsame, hbuf⟩
      obtain ⟨hrow, hcells⟩ := clearRow_spec u hy (fun _ => y) (fun _ _ => rfl)
      refine ⟨hsame.trans hrow, fun i hi => ?_⟩
      rw [hcells i]
      by_cases hlt : i < 80 * y
      · rw [if_neg (by omega), hbuf i hlt]
      · rw [if_pos (by omega), Tty.blank, hsame.color, Tty.blank]
  obtain ⟨hsame, hbuf⟩ := hloop
  refine ⟨hsame.row, hsame.column, hsame.color, fun i hi => ?_, fun i hi => ?_⟩
  · rcases hsame.accesses i hi with hi | hi
    · cases hi
    · exact hi
  · rw [hbuf i hi, Tty.blank, Tty.blank, hsame.color]

/-- `terminal_scroll` with the cursor below the screen: every row moves up by one, the last one is empty. -/
theorem terminalScroll_spec {t : Tty} (h : t.row = vgaHeight) :
    (terminalScroll t).row = 24 ∧ (terminalScroll t).column = t.column ∧ (terminalScroll t).color = t.color ∧
    ((∀ i ∈ (terminalScroll t).accesses, i ∈ t.accesses ∨ i < 2000) ∧ ∀ i ∈ t.accesses, i ∈ (terminalScroll t).accesses) ∧
    ∀ i < 2000, (terminalScroll t).buffer i = if i < 1920 then t.buffer (i + 80) else t.blank := by
  obtain ⟨hsame, hbuf⟩ := copyRows_spec t
  generalize hu : forRange 1 vgaHeight
    (fun y => forRange 0 vgaWidth (fun x t => t.copy (ttyIndex (y - 1) x) (ttyIndex y x))) t = u at hsame hbuf
  have hrow : (u.row + 2 ^ 32 - 1) % 2 ^ 32 = 24 := by
    simp [hsame.row, h, vgaHeight]
  obtain ⟨hclear, hcells⟩ := clearRow_spec { u with row := 24 } (y := 24) (by decide) Tty.row (fun _ h => h)
  have hscroll : terminalScroll t =
      forRange 0 vgaWidth (fun x t => t.draw (ttyIndex t.row x) 0x20) { u with row := 24 } := by
    simp only [terminalScroll, hu, hrow]
  rw [hscroll]
  refine ⟨hclear.row, hclear.column.trans hsame.column, hclear.color.trans hsame.color,
    ⟨fun i hi => ?_, fun i hi => hclear.kept i (hsame.kept i hi)⟩, fun i hi => ?_⟩
  · rcases hclear.accesses i hi with hi | hi
    · exact hsame.accesses i hi
    · exact Or.inr hi
  · rw [hcells i]
    by_cases hlast : i < 1920
    · rw [if_neg (by omega), if_pos hlast]
      show u.buffer i = _
      rw [hbuf i, if_pos hlast]
    · rw [if_pos (by omega), if_neg hlast]
      show vgaEntry 0x20 (u.color.setWidth 16) = _
      rw [hsame.color, Tty.blank]

end LumOS
