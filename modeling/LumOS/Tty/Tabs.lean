import LumOS.Tty.Basic
import Mathlib.Data.List.Chain

/-!
# Text over text

A tab does not wrap, so tabs can take the cursor past the right margin. A character that is drawn there is drawn in one of the rows
below, and the cursor goes on from the start of the row after the one it was in. `Gap` is what a text has between two characters that
are drawn, and `Gap.InOrder` says of it that the second one comes after the first one in the buffer.
-/

namespace LumOS

/-- `terminal_putchar` calls `terminal_scroll`. -/
def Scrolls (t : Tty) (c : BitVec 8) : Prop :=
  t.row = vgaHeight ∨ Draws c ∧ t.settle.right.column ≥ vgaWidth ∧ t.settle.newline.row ≥ vgaHeight

/-- No character of a text calls `terminal_scroll`. -/
def NeverScrolls : Tty → List (BitVec 8) → Prop
  | _, [] => True
  | t, c :: s => ¬Scrolls t c ∧ NeverScrolls (terminalPutchar t c) s

instance (t : Tty) (c : BitVec 8) : Decidable (Scrolls t c) := inferInstanceAs (Decidable (_ ∨ _))

instance decidableNeverScrolls : ∀ (t : Tty) (s : List (BitVec 8)), Decidable (NeverScrolls t s)
  | _, [] => isTrue trivial
  | t, c :: s =>
    have := decidableNeverScrolls (terminalPutchar t c) s
    inferInstanceAs (Decidable (¬Scrolls t c ∧ NeverScrolls (terminalPutchar t c) s))

/-- The indices at which the characters of a text are drawn, one after the other. -/
def drawnAt : Tty → List (BitVec 8) → List Nat
  | _, [] => []
  | t, c :: s =>
    if Draws c then ttyIndex t.settle.row t.settle.column :: drawnAt (terminalPutchar t c) s
    else drawnAt (terminalPutchar t c) s

/-! ## What stands between two characters that are drawn -/

/-- A character has been drawn in a row and column, and after it have come newlines and then tabs. -/
structure Gap where
  row : Nat
  column : Nat
  newlines : Nat
  tabs : Nat

namespace Gap

/-- The character was drawn in the last column, or past it. -/
def Ends (g : Gap) : Prop := vgaWidth ≤ (g.column + 1) % 2 ^ 32

instance (g : Gap) : Decidable g.Ends := inferInstanceAs (Decidable (_ ≤ _))

/-- The row in which the next character is drawn. -/
def nextRow (g : Gap) : Nat := g.row + g.newlines + if g.Ends then 1 else 0

/-- The column in which the next character is drawn. -/
def nextColumn (g : Gap) : Nat := ((if g.newlines = 0 ∧ ¬g.Ends then g.column + 1 else 0) + 4 * g.tabs) % 2 ^ 32

/-- The index at which the character was drawn. -/
def index (g : Gap) : Nat := ttyIndex g.row g.column

/-- After a newline. -/
def newline (g : Gap) : Gap := { g with newlines := g.newlines + 1, tabs := 0 }

/-- After a tab. -/
def tab (g : Gap) : Gap := { g with tabs := g.tabs + 1 }

/-- The next character is drawn after the last one: always when that one is not past the margin, and otherwise when the newlines and
the tabs make up for how far past it is. Where the numbers are so large that they wrap, the indices say it. -/
def InOrder (g : Gap) : Prop :=
  (g.column + 4 * g.tabs + 2000 < 2 ^ 32 → 80 ≤ g.column → g.column < 80 * (g.newlines + 1) + 4 * g.tabs) ∧
    (2 ^ 32 ≤ g.column + 4 * g.tabs + 2000 → g.index < ttyIndex g.nextRow g.nextColumn)

theorem inOrder_iff {g : Gap} (hrow : g.nextRow ≤ 24) :
    g.InOrder ↔ g.index < ttyIndex g.nextRow g.nextColumn := by
  unfold InOrder
  by_cases hsmall : g.column + 4 * g.tabs + 2000 < 2 ^ 32
  · rw [and_iff_left (fun h => absurd hsmall (Nat.not_lt.mpr h)), imp_iff_right hsmall]
    have hends : g.Ends ↔ 79 ≤ g.column := by
      unfold Ends
      rw [Nat.mod_eq_of_lt (by omega), vgaWidth]
      omega
    unfold nextRow at hrow ⊢
    unfold nextColumn index ttyIndex
    simp only [vgaWidth, hends] at hrow ⊢
    have hhere : (g.row * 80 + g.column) % 2 ^ 32 = g.row * 80 + g.column := Nat.mod_eq_of_lt (by omega)
    rw [hhere]
    by_cases hlast : 79 ≤ g.column
    · rw [if_pos hlast] at hrow ⊢
      rw [if_neg (fun h => h.2 hlast), Nat.zero_add, Nat.mod_eq_of_lt (by omega : 4 * g.tabs < 2 ^ 32), Nat.mod_eq_of_lt (by omega)]
      omega
    · rw [if_neg hlast] at hrow ⊢
      by_cases hn : g.newlines = 0
      · rw [if_pos ⟨hn, hlast⟩, Nat.mod_eq_of_lt (by omega : g.column + 1 + 4 * g.tabs < 2 ^ 32), Nat.mod_eq_of_lt (by omega)]
        omega
      · rw [if_neg (fun h => hn h.1), Nat.zero_add, Nat.mod_eq_of_lt (by omega : 4 * g.tabs < 2 ^ 32), Nat.mod_eq_of_lt (by omega)]
        omega
  · rw [and_iff_right (fun h => absurd h hsmall), imp_iff_right (Nat.not_lt.mp hsmall)]

end Gap

/-- A character drawn in a row and column, and nothing after it yet. -/
def Gap.start (row column : Nat) : Gap := { row := row, column := column, newlines := 0, tabs := 0 }

/-- In a text, every character that is drawn comes after the one drawn before it. `row` and `column` are where the text has got to,
counted on the text, and `gap` is what has come since the last character that is drawn. -/
def InOrderFrom (row column : Nat) (gap : Option Gap) : List (BitVec 8) → Prop
  | [] => True
  | c :: s =>
    if c = 0x0A then InOrderFrom (row + 1) 0 (gap.map Gap.newline) s
    else if c = 0x09 then InOrderFrom row ((column + 4) % 2 ^ 32) (gap.map Gap.tab) s
    else (∀ g ∈ gap, g.InOrder) ∧
      InOrderFrom (Gap.start row column).nextRow (Gap.start row column).nextColumn (some (Gap.start row column)) s

/-- In a text, written from the first cell on, every character that is drawn comes after the one drawn before it. -/
def InOrder (s : List (BitVec 8)) : Prop := InOrderFrom 0 0 none s

/-! ## The cursor between two characters -/

section

variable {t : Tty} {c : BitVec 8}

/-- The gap ends at the cursor. -/
def Gap.Meets (g : Gap) (t : Tty) : Prop := g.nextRow = t.row ∧ g.nextColumn = t.column

theorem Scrolls.settle (h : ¬Scrolls t c) : t.settle = t := if_neg (fun hrow => h (.inl hrow))

theorem Gap.Meets.newline {g : Gap} (h : g.Meets t) (hrow : t.row ≤ 24) : g.newline.Meets t.newline := by
  have hnext := t.newline_row hrow
  refine ⟨?_, ?_⟩
  · rw [hnext, ← h.1]
    show g.row + (g.newlines + 1) + (if g.Ends then 1 else 0) = g.row + g.newlines + (if g.Ends then 1 else 0) + 1
    omega
  · show ((if g.newlines + 1 = 0 ∧ ¬g.Ends then g.column + 1 else 0) + 4 * 0) % 2 ^ 32 = 0
    rw [if_neg (fun hn => Nat.succ_ne_zero _ hn.1)]
    rfl

theorem Gap.Meets.tab {g : Gap} (h : g.Meets t) : g.tab.Meets { t with column := (t.column + 4) % 2 ^ 32 } := by
  refine ⟨h.1, ?_⟩
  show ((if g.newlines = 0 ∧ ¬g.Ends then g.column + 1 else 0) + 4 * (g.tabs + 1)) % 2 ^ 32 = (t.column + 4) % 2 ^ 32
  rw [← h.2, Gap.nextColumn, Nat.mod_add_mod, Nat.mul_add, Nat.add_assoc]

/-- A character that is drawn without a scroll moves the cursor to the right, or to the start of the next row. -/
theorem terminalPutchar_of_not_scrolls (hc : Draws c) (hscroll : ¬Scrolls t c) :
    terminalPutchar t c =
      if (Gap.start t.row t.column).Ends then (t.draw (ttyIndex t.row t.column) c).right.newline
      else (t.draw (ttyIndex t.row t.column) c).right := by
  have hsettle := Scrolls.settle hscroll
  rw [terminalPutchar_draws t hc, hsettle, Tty.wrap]
  by_cases hends : (Gap.start t.row t.column).Ends
  · have hge : (t.draw (ttyIndex t.row t.column) c).right.column ≥ vgaWidth := hends
    have hlast : ¬(t.draw (ttyIndex t.row t.column) c).right.newline.row ≥ vgaHeight := by
      intro hlast
      refine hscroll (.inr ⟨hc, ?_, ?_⟩)
      · rw [hsettle]
        exact hge
      · rw [hsettle]
        exact hlast
    rw [if_pos hge, if_neg hlast, if_pos hends]
  · have hlt : ¬(t.draw (ttyIndex t.row t.column) c).right.column ≥ vgaWidth := hends
    rw [if_neg hlt, if_neg hends]

/-- Where the cursor is after a character that is drawn. -/
theorem Gap.Meets.draws (hc : Draws c) (hscroll : ¬Scrolls t c) (hrow : t.row ≤ 24) :
    (Gap.start t.row t.column).Meets (terminalPutchar t c) := by
  rw [terminalPutchar_of_not_scrolls hc hscroll]
  by_cases hends : (Gap.start t.row t.column).Ends
  · rw [if_pos hends]
    refine ⟨?_, ?_⟩
    · rw [Gap.nextRow, if_pos hends]
      exact (t.newline_row hrow).symm
    · rw [Gap.nextColumn, if_neg (fun h => h.2 hends)]
      rfl
  · rw [if_neg hends]
    refine ⟨?_, ?_⟩
    · rw [Gap.nextRow, if_neg hends]
      rfl
    · rw [Gap.nextColumn, if_pos ⟨rfl, hends⟩]
      rfl

theorem Gap.nextRow_start_le (row column : Nat) : (Gap.start row column).nextRow ≤ row + 1 := by
  show row + 0 + (if _ then 1 else 0) ≤ row + 1
  split <;> omega

/-- A gap, if there is one, that is carried along with the cursor. -/
theorem meets_map {u : Tty} {f : Gap → Gap} {gap : Option Gap} (hf : ∀ g : Gap, g.Meets t → (f g).Meets u)
    (hgap : ∀ g ∈ gap, g.Meets t) : ∀ g ∈ gap.map f, g.Meets u := by
  intro g hg
  obtain ⟨g, hg', rfl⟩ := Option.map_eq_some_iff.mp hg
  exact hf g (hgap g hg')

/-- An index put in front of a chain. -/
theorem isChain_gap_iff {gap : Option Gap} {i : Nat} {l : List Nat} :
    ((gap.map Gap.index).toList ++ i :: l).IsChain (· < ·) ↔ (∀ g ∈ gap, g.index < i) ∧ (i :: l).IsChain (· < ·) := by
  cases gap with
  | none => exact (and_iff_right (fun g hg => absurd hg (Option.not_mem_none g))).symm
  | some g =>
    show List.IsChain _ (g.index :: i :: l) ↔ _
    rw [List.isChain_cons_cons]
    refine and_congr ?_ Iff.rfl
    simp only [Option.mem_some, forall_eq']

end

/-- The indices of a text, after that of the character drawn before it, are in order exactly when the text is. -/
theorem inOrderFrom_iff {t : Tty} {gap : Option Gap} {s : List (BitVec 8)} (hrow : t.row ≤ 25) (hgap : ∀ g ∈ gap, g.Meets t)
    (hs : ∀ c ∈ s, c ≠ 8) (hscroll : NeverScrolls t s) :
    ((gap.map Gap.index).toList ++ drawnAt t s).IsChain (· < ·) ↔ InOrderFrom t.row t.column gap s := by
  induction s generalizing t gap with
  | nil =>
    refine iff_of_true ?_ trivial
    cases gap with
    | none => exact .nil
    | some g => exact .singleton g.index
  | cons c s ih =>
    obtain ⟨hfirst, hrest⟩ := hscroll
    obtain ⟨hback, htail⟩ := List.forall_mem_cons.mp hs
    have hsettle := Scrolls.settle hfirst
    have hle : t.row ≤ 24 := by
      have hne : t.row ≠ 25 := fun h => hfirst (.inl h)
      omega
    have hnext := t.newline_row hle
    unfold InOrderFrom
    by_cases hnl : c = 0x0A
    · subst hnl
      have hput := terminalPutchar_newline t
      rw [hsettle] at hput
      rw [hput] at hrest
      rw [if_pos rfl, drawnAt, if_neg (fun h => h.1 rfl), hput, ← hnext]
      have hmap : (gap.map Gap.newline).map Gap.index = gap.map Gap.index := Option.map_map _ _ _
      rw [← hmap]
      exact ih (by omega) (meets_map (fun g hg => hg.newline hle) hgap) htail hrest
    by_cases htab : c = 0x09
    · subst htab
      have hput := terminalPutchar_tab t
      rw [hsettle] at hput
      rw [hput] at hrest
      rw [if_neg hnl, if_pos rfl, drawnAt, if_neg (fun h => h.2.1 rfl), hput]
      have hmap : (gap.map Gap.tab).map Gap.index = gap.map Gap.index := Option.map_map _ _ _
      rw [← hmap]
      exact ih hrow (meets_map (fun g hg => hg.tab) hgap) htail hrest
    have hc : Draws c := ⟨hnl, htab, hback⟩
    have hmeets := Gap.Meets.draws hc hfirst hle
    have hrow' : (terminalPutchar t c).row ≤ 25 := by
      have hstart := Gap.nextRow_start_le t.row t.column
      rw [hmeets.1] at hstart
      omega
    have hgap' : ∀ g ∈ some (Gap.start t.row t.column), g.Meets (terminalPutchar t c) := by
      intro g hg
      rw [← Option.mem_some.mp hg]
      exact hmeets
    have hih := ih hrow' hgap' htail hrest
    rw [if_neg hnl, if_neg htab, drawnAt, if_pos hc, hsettle, hmeets.1, hmeets.2, ← hih, isChain_gap_iff]
    refine and_congr (forall₂_congr ?_) Iff.rfl
    intro g hg
    have horder := Gap.inOrder_iff (g := g) (by rw [(hgap g hg).1]; exact hle)
    rw [(hgap g hg).1, (hgap g hg).2] at horder
    exact horder.symm

/-- A character that is drawn without a scroll accesses one cell. -/
theorem accesses_draws {t : Tty} {c : BitVec 8} (hc : Draws c) (hscroll : ¬Scrolls t c) :
    (terminalPutchar t c).accesses = ttyIndex t.row t.column :: t.accesses := by
  rw [terminalPutchar_of_not_scrolls hc hscroll]
  split <;> rfl

/-- The cells that a text without backspaces accesses, while the terminal does not scroll, are those its characters are drawn in. -/
theorem accesses_write {t : Tty} {s : List (BitVec 8)} (hs : ∀ c ∈ s, c ≠ 8) (hscroll : NeverScrolls t s) :
    (terminalWrite t s).accesses = (drawnAt t s).reverse ++ t.accesses := by
  induction s generalizing t with
  | nil => rfl
  | cons c s ih =>
    obtain ⟨hfirst, hrest⟩ := hscroll
    obtain ⟨hback, htail⟩ := List.forall_mem_cons.mp hs
    have hsettle := Scrolls.settle hfirst
    show (terminalWrite (terminalPutchar t c) s).accesses = _
    rw [ih htail hrest]
    by_cases hc : Draws c
    · rw [drawnAt, if_pos hc, accesses_draws hc hfirst, hsettle, List.reverse_cons, List.append_assoc, List.singleton_append]
    · rw [drawnAt, if_neg hc]
      by_cases hnl : c = 0x0A
      · rw [hnl, terminalPutchar_newline, hsettle]
        rfl
      · have htab : c = 0x09 := by
          by_contra htab
          exact hc ⟨hnl, htab, hback⟩
        rw [htab, terminalPutchar_tab, hsettle]

/-- The indices at which the characters of a text are drawn after `terminal_init`, when the text has no backspace and the terminal does
not scroll, are strictly increasing exactly when the text is in order. -/
theorem drawnAt_increasing_iff (memory : Nat → BitVec 16) (s : List (BitVec 8)) (hs : ∀ c ∈ s, c ≠ 8)
    (hscroll : NeverScrolls (terminalInit memory) s) :
    (drawnAt (terminalInit memory) s).Pairwise (· < ·) ↔ InOrder s := by
  obtain ⟨hrow, hcol, _⟩ := terminalInit_spec memory
  have hnone : ∀ g ∈ none, Gap.Meets g (terminalInit memory) := fun g hg => absurd hg (Option.not_mem_none g)
  have hiff := inOrderFrom_iff (by omega) hnone hs hscroll
  rw [hrow, hcol] at hiff
  rw [← List.isChain_iff_pairwise]
  exact hiff

/-- A line with three tabs, and one below it. -/
theorem drawnAt_increasing_lines :
    (drawnAt (terminalInit (fun _ => 0)) [0x61, 0x09, 0x09, 0x09, 0x62, 0x0A, 0x63]).Pairwise (· < ·) ↔
      InOrder [0x61, 0x09, 0x09, 0x09, 0x62, 0x0A, 0x63] :=
  drawnAt_increasing_iff (fun _ => 0) _ (by decide) (by decide +kernel)

/-- Twenty tabs and two characters: the second one is drawn over the first one. -/
theorem drawnAt_overwrites :
    NeverScrolls (terminalInit (fun _ => 0)) (List.replicate 20 0x09 ++ [0x61, 0x62]) ∧
    drawnAt (terminalInit (fun _ => 0)) (List.replicate 20 0x09 ++ [0x61, 0x62]) = [80, 80] ∧
    ¬(drawnAt (terminalInit (fun _ => 0)) (List.replicate 20 0x09 ++ [0x61, 0x62])).Pairwise (· < ·) :=
  ⟨by decide +kernel, by decide +kernel, by decide +kernel⟩

end LumOS
