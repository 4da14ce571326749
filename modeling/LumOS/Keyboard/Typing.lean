import LumOS.Keyboard.Modifiers

/-!
# Typing

A text is typed on a US keyboard by pressing and releasing one key after another, with left shift held around a key for its shifted
symbol (`typing`). `usLayout` is the layout that is printed on the keys; the handler has its own, in two tables. The two agree on every
key but 6 and 7 with shift (`layout_kbdusShift`): the shifted row has `%` twice, and so the symbols of these two keys are one place too
far to the right. What is printed is the text with these two symbols misprinted (`after_typing`).
-/

namespace LumOS

open Comp

/-! ## The layout -/

/-- A key that types something: the character on it, and the one it types with shift. -/
structure LayoutKey where
  key : BitVec 7
  plain : BitVec 8
  shifted : BitVec 8

/-- The keys of a US keyboard that type a printable character or a newline, by their make codes in scancode set 1. Enter and the space
bar type the same with shift. -/
def usLayout : List LayoutKey :=
  [⟨0x02, chr '1', chr '!'⟩, ⟨0x03, chr '2', chr '@'⟩, ⟨0x04, chr '3', chr '#'⟩, ⟨0x05, chr '4', chr '$'⟩,
    ⟨0x06, chr '5', chr '%'⟩, ⟨0x07, chr '6', chr '^'⟩, ⟨0x08, chr '7', chr '&'⟩, ⟨0x09, chr '8', chr '*'⟩,
    ⟨0x0A, chr '9', chr '('⟩, ⟨0x0B, chr '0', chr ')'⟩, ⟨0x0C, chr '-', chr '_'⟩, ⟨0x0D, chr '=', chr '+'⟩,
    ⟨0x10, chr 'q', chr 'Q'⟩, ⟨0x11, chr 'w', chr 'W'⟩, ⟨0x12, chr 'e', chr 'E'⟩, ⟨0x13, chr 'r', chr 'R'⟩,
    ⟨0x14, chr 't', chr 'T'⟩, ⟨0x15, chr 'y', chr 'Y'⟩, ⟨0x16, chr 'u', chr 'U'⟩, ⟨0x17, chr 'i', chr 'I'⟩,
    ⟨0x18, chr 'o', chr 'O'⟩, ⟨0x19, chr 'p', chr 'P'⟩, ⟨0x1A, chr '[', chr '{'⟩, ⟨0x1B, chr ']', chr '}'⟩,
    ⟨0x1C, chr '\n', chr '\n'⟩,
    ⟨0x1E, chr 'a', chr 'A'⟩, ⟨0x1F, chr 's', chr 'S'⟩, ⟨0x20, chr 'd', chr 'D'⟩, ⟨0x21, chr 'f', chr 'F'⟩,
    ⟨0x22, chr 'g', chr 'G'⟩, ⟨0x23, chr 'h', chr 'H'⟩, ⟨0x24, chr 'j', chr 'J'⟩, ⟨0x25, chr 'k', chr 'K'⟩,
    ⟨0x26, chr 'l', chr 'L'⟩, ⟨0x27, chr ';', chr ':'⟩, ⟨0x28, 0x27, 0x22⟩, ⟨0x29, 0x60, chr '~'⟩,
    ⟨0x2B, 0x5C, chr '|'⟩,
    ⟨0x2C, chr 'z', chr 'Z'⟩, ⟨0x2D, chr 'x', chr 'X'⟩, ⟨0x2E, chr 'c', chr 'C'⟩, ⟨0x2F, chr 'v', chr 'V'⟩,
    ⟨0x30, chr 'b', chr 'B'⟩, ⟨0x31, chr 'n', chr 'N'⟩, ⟨0x32, chr 'm', chr 'M'⟩, ⟨0x33, chr ',', chr '<'⟩,
    ⟨0x34, chr '.', chr '>'⟩, ⟨0x35, chr '/', chr '?'⟩, ⟨0x39, chr ' ', chr ' '⟩]

/-- The printable characters and the newline. -/
def Typable (c : BitVec 8) : Prop := 0x20 ≤ c ∧ c ≤ 0x7E ∨ c = 0x0A

instance (c : BitVec 8) : Decidable (Typable c) := inferInstanceAs (Decidable (_ ∨ _))

/-- What is done to type a character: the key that has it on it is pressed and released, or left shift is held around the key that
has it as its shifted symbol. -/
def strokes (c : BitVec 8) : List KeyEvent :=
  match usLayout.find? (fun k => k.plain = c) with
  | some k => [.make k.key, .release k.key]
  | none =>
    match usLayout.find? (fun k => k.shifted = c) with
    | some k => [.make leftShift, .make k.key, .release k.key, .release leftShift]
    | none => []

/-- What is done to type a text. -/
def typing (text : List (BitVec 8)) : List KeyEvent := text.flatMap strokes

/-- Every printable character and the newline are on the keyboard. -/
theorem typable_on_layout {c : BitVec 8} (h : Typable c) : ∃ k ∈ usLayout, k.plain = c ∨ k.shifted = c := by
  suffices ∀ c : BitVec 8, Typable c → ∃ k ∈ usLayout, k.plain = c ∨ k.shifted = c from this c h
  decide

/-! ## The handler's tables -/

/-- The symbol that `kbdus_shift` has in the place of a shifted symbol. -/
def misprint (c : BitVec 8) : BitVec 8 := if c = chr '^' then chr '%' else if c = chr '&' then chr '^' else c

theorem misprint_eq_self_iff (c : BitVec 8) : misprint c = c ↔ c ≠ chr '^' ∧ c ≠ chr '&' := by
  unfold misprint
  by_cases h1 : c = chr '^'
  · subst h1
    decide
  by_cases h2 : c = chr '&'
  · subst h2
    decide
  · simp [h1, h2]

theorem layout_kbdus : ∀ k ∈ usLayout, kbdus (KeyEvent.make k.key).scancode = k.plain := by
  decide

theorem layout_kbdusShift : ∀ k ∈ usLayout, kbdusShift (KeyEvent.make k.key).scancode = misprint k.shifted := by
  decide

/-- Neither of the misprinted symbols is on a key without shift. -/
theorem layout_plain : ∀ k ∈ usLayout, misprint k.plain = k.plain := by
  decide

theorem layout_ne_zero : ∀ k ∈ usLayout, k.plain ≠ 0 ∧ misprint k.shifted ≠ 0 := by
  decide

theorem layout_make : ∀ k ∈ usLayout, (KeyEvent.make k.key).scancode &&& 0x80 = 0 := by
  decide

theorem layout_release : ∀ k ∈ usLayout, (KeyEvent.release k.key).scancode &&& 0x80 ≠ 0 ∧
    keySwitch (KeyEvent.release k.key).scancode = .keep := by
  decide

/-! ## What is printed -/

section

variable {kb : Keyboard} {k : LayoutKey}

/-- A make code that has a character in the table in use prints it, when caps lock is off. -/
theorem after_make (hk : k ∈ usLayout) (hcaps : kb.status &&& capsLock = 0)
    (htemp : keyTemp kb.status (KeyEvent.make k.key).scancode ≠ 0) :
    (kb.after (KeyEvent.make k.key).scancode).out = kb.out ++ [keyTemp kb.status (KeyEvent.make k.key).scancode] ∧
      (kb.after (KeyEvent.make k.key).scancode).status = kb.status := by
  have hp : Prints kb.status (KeyEvent.make k.key).scancode := ⟨layout_make k hk, htemp⟩
  simp only [Keyboard.after, nextStatus, if_pos hp]
  refine ⟨?_, trivial⟩
  rw [keyChar, if_neg (fun h => h.1 hcaps)]

/-- The break code of a key that types something does nothing. -/
theorem after_release (kb : Keyboard) (hk : k ∈ usLayout) :
    (kb.after (KeyEvent.release k.key).scancode).out = kb.out ∧
      (kb.after (KeyEvent.release k.key).scancode).status = kb.status := by
  obtain ⟨hbreak, hkeep⟩ := layout_release k hk
  have hp : ¬Prints kb.status (KeyEvent.release k.key).scancode := fun h => hbreak h.1
  simp only [Keyboard.after, nextStatus, if_neg hp, hkeep, Effect.apply, true_and]

/-- A key that prints nothing changes the status only. -/
theorem after_silent (kb : Keyboard) {data : BitVec 8} (h : Silent data) :
    (kb.after data).out = kb.out ∧ (kb.after data).status = (keySwitch data).apply kb.status := by
  refine ⟨?_, nextStatus_of_silent h kb.status⟩
  rw [Keyboard.after, if_neg (h.not_prints kb.status)]

/-- A key pressed and released without shift prints the character on it. -/
theorem after_plain (hk : k ∈ usLayout) (h0 : kb.status = 0) :
    (([KeyEvent.make k.key, .release k.key].map KeyEvent.scancode).foldl Keyboard.after kb).out = kb.out ++ [k.plain] ∧
      (([KeyEvent.make k.key, .release k.key].map KeyEvent.scancode).foldl Keyboard.after kb).status = 0 := by
  have htemp : keyTemp kb.status (KeyEvent.make k.key).scancode = k.plain := by
    rw [keyTemp, h0, if_pos (by decide), layout_kbdus k hk]
  obtain ⟨hout, hstatus⟩ := after_make hk (by rw [h0]; decide) (by rw [htemp]; exact (layout_ne_zero k hk).1)
  obtain ⟨hout', hstatus'⟩ := after_release (kb.after (KeyEvent.make k.key).scancode) hk
  simp only [List.map_cons, List.map_nil, List.foldl_cons, List.foldl_nil]
  rw [hout', hstatus', hout, hstatus, htemp, h0]
  exact ⟨rfl, rfl⟩

/-- A key pressed and released while left shift is held prints what `kbdus_shift` has for it. -/
theorem after_shifted (hk : k ∈ usLayout) (h0 : kb.status = 0) :
    (([KeyEvent.make leftShift, .make k.key, .release k.key, .release leftShift].map KeyEvent.scancode).foldl
        Keyboard.after kb).out = kb.out ++ [misprint k.shifted] ∧
      (([KeyEvent.make leftShift, .make k.key, .release k.key, .release leftShift].map KeyEvent.scancode).foldl
        Keyboard.after kb).status = 0 := by
  have hset := shift_latches.make leftShift (by decide)
  have hclear := shift_latches.release leftShift (by decide)
  have hsilent := shift_latches.silent leftShift (by decide)
  simp only [List.map_cons, List.map_nil, List.foldl_cons, List.foldl_nil]
  obtain ⟨hout₁, hstatus₁⟩ := after_silent kb hsilent.1
  rw [hset, h0] at hstatus₁
  generalize kb.after (KeyEvent.make leftShift).scancode = kb₁ at hout₁ hstatus₁ ⊢
  have hshift : kb₁.status = shift := hstatus₁
  have htemp : keyTemp kb₁.status (KeyEvent.make k.key).scancode = misprint k.shifted := by
    rw [keyTemp, hshift, if_neg (by decide), layout_kbdusShift k hk]
  obtain ⟨hout₂, hstatus₂⟩ := after_make hk (by rw [hshift]; decide) (by rw [htemp]; exact (layout_ne_zero k hk).2)
  obtain ⟨hout₃, hstatus₃⟩ := after_release (kb₁.after (KeyEvent.make k.key).scancode) hk
  generalize (kb₁.after (KeyEvent.make k.key).scancode).after (KeyEvent.release k.key).scancode = kb₃ at hout₃ hstatus₃ ⊢
  obtain ⟨hout₄, hstatus₄⟩ := after_silent kb₃ hsilent.2
  rw [hout₄, hstatus₄, hclear, hout₃, hstatus₃, hout₂, hstatus₂, htemp, hshift, hout₁]
  exact ⟨rfl, by decide⟩

end

/-- The strokes of a character print it, or what it is misprinted as. -/
theorem after_strokes {kb : Keyboard} {c : BitVec 8} (hc : Typable c) (h0 : kb.status = 0) :
    (((strokes c).map KeyEvent.scancode).foldl Keyboard.after kb).out = kb.out ++ [misprint c] ∧
      (((strokes c).map KeyEvent.scancode).foldl Keyboard.after kb).status = 0 := by
  unfold strokes
  split
  · rename_i k hfind
    obtain rfl : k.plain = c := by simpa using List.find?_some hfind
    have hk := List.mem_of_find?_eq_some hfind
    rw [layout_plain k hk]
    exact after_plain hk h0
  · rename_i hplain
    split
    · rename_i k hfind
      obtain rfl : k.shifted = c := by simpa using List.find?_some hfind
      exact after_shifted (List.mem_of_find?_eq_some hfind) h0
    · -- a character that is on no key is not a printable one
      rename_i hshifted
      obtain ⟨k, hk, hp | hs⟩ := typable_on_layout hc
      · exact absurd (decide_eq_true hp) (List.find?_eq_none.mp hplain k hk)
      · exact absurd (decide_eq_true hs) (List.find?_eq_none.mp hshifted k hk)

/-- A text that is typed is printed with two of its symbols misprinted, and leaves `status` zero. -/
theorem after_typing {text : List (BitVec 8)} (ht : ∀ c ∈ text, Typable c) : ∀ {kb : Keyboard}, kb.status = 0 →
    (((typing text).map KeyEvent.scancode).foldl Keyboard.after kb).out = kb.out ++ text.map misprint ∧
      (((typing text).map KeyEvent.scancode).foldl Keyboard.after kb).status = 0 := by
  induction text with
  | nil =>
    intro kb h0
    exact ⟨(List.append_nil kb.out).symm, h0⟩
  | cons c text ih =>
    intro kb h0
    have hsplit : (typing (c :: text)).map KeyEvent.scancode =
        (strokes c).map KeyEvent.scancode ++ (typing text).map KeyEvent.scancode := by
      rw [typing, List.flatMap_cons, List.map_append, ← typing]
    obtain ⟨hout, hstatus⟩ := after_strokes (ht c List.mem_cons_self) h0
    obtain ⟨hout', hstatus'⟩ := ih (fun d hd => ht d (List.mem_cons_of_mem c hd)) hstatus
    rw [hsplit, List.foldl_append, hout', hout, List.append_assoc]
    exact ⟨rfl, hstatus'⟩

/-- From `status` zero on, typing a text prints the text and leaves `status` zero exactly when neither `^` nor `&` is in it. -/
theorem typing_reproduces_iff (stack : CharPtr) (kb : Keyboard) {text : List (BitVec 8)} (ht : ∀ c ∈ text, Typable c) :
    Ensures (deliver stack (initKeyboard kb) ((typing text).map KeyEvent.scancode))
      (fun kb' => kb'.out = kb.out ++ text ∧ kb'.status = 0) ↔ ∀ c ∈ text, c ≠ chr '^' ∧ c ≠ chr '&' := by
  have hzero : (initKeyboard kb).status = 0 := rfl
  obtain ⟨hout, hstatus⟩ := after_typing ht hzero
  rw [(deliver_returns stack (initKeyboard kb) _).ensures_iff, hout, and_iff_left hstatus]
  have hself : text.map misprint = text ↔ ∀ c ∈ text, misprint c = c := by
    conv_lhs => rw [← List.map_id text, List.map_map]
    exact List.map_eq_map_iff
  simp only [← misprint_eq_self_iff, ← hself]
  exact List.append_right_inj kb.out

/-- `a`, `B` and a newline are printed as they are typed. -/
theorem typing_reproduces_lines : Ensures (deliver (fun _ => 0)
    (initKeyboard { scancode := 0, lastScancode := 0, status := 0, out := [] })
    ((typing [chr 'a', chr 'B', chr '\n']).map KeyEvent.scancode))
    (fun kb' => kb'.out = [] ++ [chr 'a', chr 'B', chr '\n'] ∧ kb'.status = 0) :=
  (typing_reproduces_iff (fun _ => 0) { scancode := 0, lastScancode := 0, status := 0, out := [] } (by decide)).mpr (by decide)

/-- Typing `^` prints `%`. -/
theorem typing_caret : Typable (chr '^') ∧ typing [chr '^'] = [.make leftShift, .make 0x07, .release 0x07, .release leftShift] ∧
    ∃ kb, Returns (deliver (fun _ => 0) (initKeyboard { scancode := 0, lastScancode := 0, status := 0, out := [] })
      ((typing [chr '^']).map KeyEvent.scancode)) kb ∧ kb.out = [chr '%'] ∧ kb.out ≠ [chr '^'] :=
  ⟨by decide, by decide, _, deliver_returns _ _ _, by decide, by decide⟩

end LumOS
