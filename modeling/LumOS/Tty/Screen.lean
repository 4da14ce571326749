import LumOS.Tty.Layout

/-!
# Accesses outside the screen

`terminal_putchar` wraps the cursor to the next row when a character reaches column 80 and not when a tab does. So the cursor can
move past the last cell of the screen by tabs only, and the next character is drawn outside of the buffer's 2000 cells. A text in
which every tab has room (`TabsHaveRoom`) keeps all accesses on the screen (`accesses_on_screen`), and a tab without room is one
character away from an access outside of it (`tabsHaveRoom_iff`).
-/

namespace LumOS

/-- The cursor's cell, or the one it will be at after a pending scroll, is on the screen, and so is every access so far. -/
structure OnScreen (t : Tty) : Prop where
  row_le : t.row ≤ 25
  cursor : 80 * min t.row 24 + t.column < 2000
  accesses : ∀ i ∈ t.accesses, i < 2000

/-- A tab moves the cursor to a cell that is on the screen. -/
def TabHasRoom (t : Tty) : Prop := 80 * min t.row 24 + t.column + 4 < 2000

/-- Every tab of a text has room when it is written. -/
def TabsHaveRoom : Tty → List (BitVec 8) → Prop
  | _, [] => True
  | t, c :: s => (c = 0x09 → TabHasRoom t) ∧ TabsHaveRoom (terminalPutchar t c) s

instance (t : Tty) : Decidable (TabHasRoom t) := inferInstanceAs (Decidable (80 * min t.row 24 + t.column + 4 < 2000))

instance decidableTabsHaveRoom : ∀ (t : Tty) (s : List (BitVec 8)), Decidable (TabsHaveRoom t s)
  | _, [] => isTrue trivial
  | t, c :: s =>
    have := decidableTabsHaveRoom (terminalPutchar t c) s
    inferInstanceAs (Decidable ((c = 0x09 → TabHasRoom t) ∧ TabsHaveRoom (terminalPutchar t c) s))

section

variable {t : Tty}

theorem OnScreen.scroll (h : OnScreen t) (hrow : t.row = vgaHeight) : OnScreen (terminalScroll t) := by
  obtain ⟨hr, hcol, _, ⟨hacc, _⟩, _⟩ := terminalScroll_spec hrow
  have hcur := h.cursor
  rw [hrow] at hcur
  simp only [vgaHeight] at hcur
  refine ⟨by rw [hr]; omega, by rw [hr, hcol]; omega, fun i hi => ?_⟩
  rcases hacc i hi with hi | hi
  · exact h.accesses i hi
  · exact hi

/-- After a pending scroll the cursor is on the screen, at the cell where it was or would have been. -/
theorem OnScreen.settle (h : OnScreen t) :
    OnScreen t.settle ∧ t.settle.row = min t.row 24 ∧ t.settle.column = t.column := by
  unfold Tty.settle
  have hle := h.row_le
  by_cases hrow : t.row = vgaHeight
  · obtain ⟨hr, hcol, _⟩ := terminalScroll_spec hrow
    rw [if_pos hrow]
    refine ⟨h.scroll hrow, ?_, hcol⟩
    rw [hr, hrow]
    rfl
  · rw [if_neg hrow]
    simp only [vgaHeight] at hrow
    exact ⟨h, by omega, rfl⟩

theorem OnScreen.newline (h : OnScreen t) (hrow : t.row ≤ 24) : OnScreen t.newline := by
  have hnext := t.newline_row hrow
  refine ⟨?_, ?_, h.accesses⟩
  · rw [hnext]
    exact Nat.succ_le_succ hrow
  · rw [hnext]
    show 80 * min (t.row + 1) 24 + 0 < 2000
    omega

/-- Drawing at the cursor's cell. -/
theorem OnScreen.draw (h : OnScreen t) (hrow : t.row ≤ 24) (c : BitVec 8) : OnScreen (t.draw (ttyIndex t.row t.column) c) := by
  have hcur := h.cursor
  refine ⟨h.row_le, h.cursor, fun i hi => ?_⟩
  rcases List.mem_cons.mp hi with rfl | hi
  · rw [ttyIndex_eq (by simp only [vgaHeight]; omega) (by omega)]
    omega
  · exact h.accesses i hi

theorem OnScreen.left (h : OnScreen t) : OnScreen t.left := by
  have hcur := h.cursor
  refine ⟨h.row_le, ?_, h.accesses⟩
  simp only [Tty.left]
  by_cases h0 : t.column = 0
  · rw [if_pos h0]
    omega
  · rw [if_neg h0]
    omega

/-- The cursor moves to the right and wraps. -/
theorem OnScreen.wrap (h : OnScreen t) (hrow : t.row ≤ 24) : OnScreen t.right.wrap := by
  unfold Tty.wrap
  by_cases hwrap : t.right.column ≥ vgaWidth
  · have hn : OnScreen t.right.newline := h.newline hrow
    rw [if_pos hwrap]
    by_cases hlast : t.right.newline.row ≥ vgaHeight
    · rw [if_pos hlast]
      exact hn.scroll (Nat.le_antisymm hn.row_le hlast)
    · rw [if_neg hlast]
      exact hn
  · have hright : t.right.row = t.row := rfl
    rw [if_neg hwrap]
    simp only [vgaWidth] at hwrap
    exact ⟨h.row_le, by rw [hright]; omega, h.accesses⟩

/-- A character keeps the cursor and the accesses on the screen, when it is not a tab or has room. -/
theorem OnScreen.putchar (h : OnScreen t) {c : BitVec 8} (htab : c = 0x09 → TabHasRoom t) : OnScreen (terminalPutchar t c) := by
  obtain ⟨hs, hrow, hcol⟩ := h.settle
  have hle : t.settle.row ≤ 24 := by omega
  unfold TabHasRoom at htab
  rw [← hrow, ← hcol] at htab
  by_cases hnl : c = 0x0A
  · rw [hnl, terminalPutchar_newline]
    exact hs.newline hle
  by_cases ht : c = 0x09
  · have hroom := htab ht
    have hmod : (t.settle.column + 4) % 2 ^ 32 = t.settle.column + 4 := Nat.mod_eq_of_lt (by omega)
    rw [ht, terminalPutchar_tab, hmod]
    exact ⟨hs.row_le, by simp only; omega, hs.accesses⟩
  by_cases hb : c = 8
  · rw [hb, terminalPutchar_back]
    exact hs.left.draw hle _
  rw [terminalPutchar_draws t ⟨hnl, ht, hb⟩]
  exact (hs.draw hle c).wrap hle

end

theorem onScreen_init (memory : Nat → BitVec 16) : OnScreen (terminalInit memory) := by
  obtain ⟨hrow, hcol, _, hacc, _⟩ := terminalInit_spec memory
  exact ⟨by rw [hrow]; omega, by rw [hrow, hcol]; decide, hacc⟩

/-- A text in which every tab has room keeps the cursor and the accesses on the screen. -/
theorem OnScreen.write {t : Tty} {s : List (BitVec 8)} (h : OnScreen t) (hs : TabsHaveRoom t s) : OnScreen (terminalWrite t s) := by
  induction s generalizing t with
  | nil => exact h
  | cons c s ih => exact ih (h.putchar hs.1) hs.2

/-- Every index at which the buffer is read or written is below 2000, for every text in which every tab has room. -/
theorem accesses_on_screen (memory : Nat → BitVec 16) (s : List (BitVec 8)) (hs : TabsHaveRoom (terminalInit memory) s) :
    ∀ i ∈ (terminalWrite (terminalInit memory) s).accesses, i < 2000 :=
  ((onScreen_init memory).write hs).accesses

/-- Three tabs and a character, which is drawn in column 12. -/
theorem accesses_on_screen_tabs :
    12 ∈ (terminalWrite (terminalInit (fun _ => 0)) [0x09, 0x09, 0x09, 0x61]).accesses ∧ 12 < 2000 := by
  have hmem : 12 ∈ (terminalWrite (terminalInit (fun _ => 0)) [0x09, 0x09, 0x09, 0x61]).accesses := by decide +kernel
  exact ⟨hmem, accesses_on_screen _ _ (by decide +kernel) 12 hmem⟩

/-- 24 newlines, 20 tabs and a character: the character is drawn at index 2000. -/
theorem access_off_screen : ¬∀ i ∈ (terminalWrite (terminalInit (fun _ => 0))
    (List.replicate 24 0x0A ++ List.replicate 20 0x09 ++ [0x61])).accesses, i < 2000 := by
  intro h
  exact absurd (h 2000 (by decide +kernel)) (by decide)

/-! ## A tab without room -/

/-- A character that is drawn is drawn at the cursor's cell, and that access stays. -/
theorem mem_accesses_putchar (t : Tty) {c : BitVec 8} (hc : c ≠ 0x0A ∧ c ≠ 0x09 ∧ c ≠ 8) (hrow : t.row ≤ 24) :
    ttyIndex t.row t.column ∈ (terminalPutchar t c).accesses := by
  have hsettle : t.settle = t := if_neg (by simp only [vgaHeight]; omega)
  have hmem : ttyIndex t.row t.column ∈ (t.draw (ttyIndex t.row t.column) c).accesses := List.mem_cons_self
  have hnext : (t.draw (ttyIndex t.row t.column) c).right.newline.row = t.row + 1 := Tty.newline_row _ hrow
  rw [terminalPutchar_draws t hc, hsettle]
  unfold Tty.wrap
  by_cases hwrap : (t.draw (ttyIndex t.row t.column) c).right.column ≥ vgaWidth
  · rw [if_pos hwrap]
    by_cases hlast : (t.draw (ttyIndex t.row t.column) c).right.newline.row ≥ vgaHeight
    · have h25 : (t.draw (ttyIndex t.row t.column) c).right.newline.row = vgaHeight := by
        rw [hnext] at hlast ⊢
        exact Nat.le_antisymm (Nat.succ_le_succ hrow) hlast
      rw [if_pos hlast]
      exact (terminalScroll_spec h25).2.2.2.1.2 _ hmem
    · rw [if_neg hlast]
      exact hmem
  · rw [if_neg hwrap]
    exact hmem

/-- A character after a tab without room is drawn outside of the screen. -/
theorem OnScreen.off_screen {t : Tty} (h : OnScreen t) (hno : ¬TabHasRoom t) :
    ∃ i ∈ (terminalWrite t [0x09, 0x61]).accesses, 2000 ≤ i := by
  obtain ⟨_, hrow, hcol⟩ := h.settle
  have hcur := h.cursor
  have hmod : (t.column + 4) % 2 ^ 32 = t.column + 4 := Nat.mod_eq_of_lt (by omega)
  unfold TabHasRoom at hno
  have hmem := mem_accesses_putchar (terminalPutchar t 0x09) (c := 0x61) (by decide)
    (by rw [terminalPutchar_tab]; simp only; omega)
  refine ⟨_, hmem, ?_⟩
  rw [terminalPutchar_tab, hcol, hmod, ttyIndex, vgaWidth]
  simp only
  omega

/-- Every prefix of a text, with any one character after it, keeps its accesses on the screen exactly when every tab of the text
has room. -/
theorem tabsHaveRoom_iff {t : Tty} (h : OnScreen t) (s : List (BitVec 8)) :
    TabsHaveRoom t s ↔ ∀ p c, p <+: s → ∀ i ∈ (terminalWrite t (p ++ [c])).accesses, i < 2000 := by
  constructor
  · intro hs p c hp
    obtain ⟨s', rfl⟩ := hp
    have hon : OnScreen (terminalWrite t p) := by
      refine h.write ?_
      clear h
      induction p generalizing t with
      | nil => trivial
      | cons d p ih => exact ⟨hs.1, ih hs.2⟩
    rw [terminalWrite, List.foldl_append]
    by_cases hc : c = 0x09
    · subst hc
      show ∀ i ∈ (terminalPutchar (terminalWrite t p) 0x09).accesses, i < 2000
      rw [terminalPutchar_tab]
      exact hon.settle.1.accesses
    · exact (hon.putchar (fun h => absurd h hc)).accesses
  · intro hs
    induction s generalizing t with
    | nil => trivial
    | cons d s ih =>
      have hroom : d = 0x09 → TabHasRoom t := by
        rintro rfl
        by_contra hno
        obtain ⟨i, hi, hge⟩ := h.off_screen hno
        have hlt := hs [0x09] 0x61 (List.cons_prefix_cons.mpr ⟨rfl, List.nil_prefix⟩) i hi
        omega
      exact ⟨hroom, ih (h.putchar hroom) (fun p c hp => hs (d :: p) c (List.cons_prefix_cons.mpr ⟨rfl, hp⟩))⟩

end LumOS
