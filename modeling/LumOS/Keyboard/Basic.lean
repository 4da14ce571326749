import LumOS.Libc.Printf

/-!
# The keyboard

`keyboard.c`: the two tables, `keyboard_handler` and `init_keyboard`. The handler prints with `printf`; `keyboardHandler_returns` says
what one call does, without a computation.
-/

namespace LumOS

open Comp

/-- `CTRL` -/
def ctrl : BitVec 8 := 0x01

/-- `SHIFT` -/
def shift : BitVec 8 := 0x02

/-- `CAPS_LOCK` -/
def capsLock : BitVec 8 := 0x04

/-- `NUM_LOCK` -/
def numLock : BitVec 8 := 0x08

/-- `SCROLL_LOCK` -/
def scrollLock : BitVec 8 := 0x10

/-- `ALT` -/
def alt : BitVec 8 := 0x20

/-- The entries of `kbdus` up to the last one written out. -/
def kbdusEntries : List (BitVec 8) :=
  [0, 0,
    chr '1', chr '2', chr '3', chr '4', chr '5', chr '6', chr '7', chr '8', chr '9', chr '0', chr '-', chr '=', 8,
    chr '\t', chr 'q', chr 'w', chr 'e', chr 'r', chr 't', chr 'y', chr 'u', chr 'i', chr 'o', chr 'p', chr '[', chr ']',
    chr '\n', 0,
    chr 'a', chr 's', chr 'd', chr 'f', chr 'g', chr 'h', chr 'j', chr 'k', chr 'l', chr ';', 0x27, 0x60, 0,
    0x5C, chr 'z', chr 'x', chr 'c', chr 'v', chr 'b', chr 'n', chr 'm', chr ',', chr '.', chr '/', 0,
    chr '*', 0, chr ' ', 0,
    0, 0, 0, 0, 0, 0, 0, 0, 0, 0, 0, 0,
    0, 0, 0, chr '-', 0, 0, 0, chr '+',
    0, 0, 0, 0, 0, 0, 0, 0, 0, 0, 0]

/-- The entries of `kbdus_shift` up to the last one written out. -/
def kbdusShiftEntries : List (BitVec 8) :=
  [0, 0,
    chr '!', chr '@', chr '#', chr '$', chr '%', chr '%', chr '^', chr '*', chr '(', chr ')', chr '_', chr '+', 8,
    chr '\t', chr 'Q', chr 'W', chr 'E', chr 'R', chr 'T', chr 'Y', chr 'U', chr 'I', chr 'O', chr 'P', chr '{', chr '}',
    chr '\n', 0,
    chr 'A', chr 'S', chr 'D', chr 'F', chr 'G', chr 'H', chr 'J', chr 'K', chr 'L', chr ':', 0x22, chr '~', 0,
    chr '|', chr 'Z', chr 'X', chr 'C', chr 'V', chr 'B', chr 'N', chr 'M', chr '<', chr '>', chr '?', 0,
    chr '*', 0, chr ' ', 0,
    0, 0, 0, 0, 0, 0, 0, 0, 0, 0, 0, 0,
    0, 0, 0, chr '-', 0, 0, 0, chr '+',
    0, 0, 0, 0, 0, 0, 0, 0, 0, 0, 0]

/-- `kbdus[scancode]`. The rest of the table is zero; a break code reads past it, and the handler makes no use of what it reads. -/
def kbdus (scancode : BitVec 8) : BitVec 8 := kbdusEntries.getD scancode.toNat 0

/-- `kbdus_shift[scancode]` -/
def kbdusShift (scancode : BitVec 8) : BitVec 8 := kbdusShiftEntries.getD scancode.toNat 0

/-- The variables of `keyboard.c`, and what has been printed. -/
structure Keyboard where
  scancode : BitVec 8
  lastScancode : BitVec 8
  status : BitVec 8
  out : List (BitVec 8)

/-- The format `"%c"`. -/
def formatChar : CString := CString.ofChars [chr '%', chr 'c'] (by decide)

/-- `printf("%c", c)` -/
def printChar (stack : CharPtr) (c : BitVec 8) (kb : Keyboard) : Comp Keyboard := do
  match ← printf stack formatChar.ptr [.word (c.setWidth 32)] with
  | .returned _ chars => pure { kb with out := kb.out ++ chars }
  | .undefined => Comp.diverge

/-- `(65 <= c && c <= 90) || (97 <= c && c <= 122)` -/
def IsLetter (c : BitVec 8) : Prop := 65 ≤ c ∧ c ≤ 90 ∨ 97 ≤ c ∧ c ≤ 122

instance (c : BitVec 8) : Decidable (IsLetter c) := inferInstanceAs (Decidable (_ ∨ _))

/-- What a case of the `switch` does to `status`: `|=`, `&= ~`, `^=`, or nothing. -/
inductive Effect where
  | set (mask : BitVec 8)
  | clear (mask : BitVec 8)
  | toggle (mask : BitVec 8)
  | keep
  deriving DecidableEq

/-- `status` after a case of the `switch`. -/
def Effect.apply (status : BitVec 8) : Effect → BitVec 8
  | .set mask => status ||| mask
  | .clear mask => status &&& ~~~mask
  | .toggle mask => status ^^^ mask
  | .keep => status

/-- The `switch` over the scancode. The cases of the function keys do nothing, like the default. -/
def keySwitch (scancode : BitVec 8) : Effect :=
  if scancode = 0x1D then .set ctrl
  else if scancode = 0x9D then .clear ctrl
  else if scancode = 0x2A then .set shift
  else if scancode = 0xAA then .clear shift
  else if scancode = 0x36 then .set shift
  else if scancode = 0xB6 then .clear shift
  else if scancode = 0x38 then .set alt
  else if scancode = 0xB8 then .clear alt
  else if scancode = 0x3A then .toggle capsLock
  else if scancode = 0x45 then .toggle numLock
  else if scancode = 0x46 then .toggle scrollLock
  else .keep

/-- `((status & SHIFT) == 0) ? kbdus[scancode] : kbdus_shift[scancode]` -/
def keyTemp (status scancode : BitVec 8) : BitVec 8 :=
  if status &&& shift = 0 then kbdus scancode else kbdusShift scancode

/-- The `if` in `keyboard_handler`: a key that prints is printed, and any other scancode goes to the `switch`. -/
def keyAction (stack : CharPtr) (kb : Keyboard) : Comp Keyboard :=
  let temp := keyTemp kb.status kb.scancode
  if kb.scancode &&& 0x80 = 0 ∧ temp ≠ 0 then
    if kb.status &&& capsLock ≠ 0 ∧ IsLetter temp then
      if kb.status &&& shift = 0 then printChar stack (kbdusShift kb.scancode) kb
      else printChar stack (kbdus kb.scancode) kb
    else printChar stack temp kb
  else pure { kb with status := (keySwitch kb.scancode).apply kb.status }

/-- `keyboard_handler`, when the data port gives `data` -/
def keyboardHandler (stack : CharPtr) (kb : Keyboard) (data : BitVec 8) : Comp Keyboard := do
  let kb ← keyAction stack { kb with scancode := data }
  pure { kb with lastScancode := kb.scancode }

/-- `init_keyboard`: what the controller still holds is read and dropped, and then `status` is zero. -/
def initKeyboard (kb : Keyboard) : Keyboard := { kb with status := 0 }

/-- The handler is called for one scancode after another. -/
def deliver (stack : CharPtr) (kb : Keyboard) : List (BitVec 8) → Comp Keyboard
  | [] => pure kb
  | data :: rest => do
    let kb ← keyboardHandler stack kb data
    deliver stack kb rest

/-! ## What the handler does -/

/-- The scancode is that of a key that prints. -/
def Prints (status scancode : BitVec 8) : Prop := scancode &&& 0x80 = 0 ∧ keyTemp status scancode ≠ 0

instance (status scancode : BitVec 8) : Decidable (Prints status scancode) := inferInstanceAs (Decidable (_ ∧ _))

/-- The character that a key prints. -/
def keyChar (status scancode : BitVec 8) : BitVec 8 :=
  if status &&& capsLock ≠ 0 ∧ IsLetter (keyTemp status scancode) then
    if status &&& shift = 0 then kbdusShift scancode else kbdus scancode
  else keyTemp status scancode

/-- The `status` after a call of the handler. -/
def nextStatus (status scancode : BitVec 8) : BitVec 8 :=
  if Prints status scancode then status else (keySwitch scancode).apply status

/-- The state after a call of the handler. -/
def Keyboard.after (kb : Keyboard) (data : BitVec 8) : Keyboard where
  scancode := data
  lastScancode := data
  status := nextStatus kb.status data
  out := if Prints kb.status data then kb.out ++ [keyChar kb.status data] else kb.out

/-- `printf("%c", c)` prints `c`. -/
theorem printChar_returns (stack : CharPtr) (c : BitVec 8) (kb : Keyboard) :
    Returns (printChar stack c kb) { kb with out := kb.out ++ [c] } := by
  have hsegs : segments [] (parse formatChar.chars) [.word (c.setWidth 32)] = some [[c]] := by
    have hparse : parse formatChar.chars = [.convert .c] := rfl
    simp [hparse, segments, Conversion.text, flush]
  have hfinish : finish 0 [] [[c]] = .returned 1 [c] := rfl
  have hprintf := printf_finish stack formatChar hsegs
  rw [hfinish] at hprintf
  exact returns_bind.mpr ⟨_, hprintf, returns_pure.mpr rfl⟩

theorem keyAction_prints (stack : CharPtr) (kb : Keyboard) (h : Prints kb.status kb.scancode) :
    Returns (keyAction stack kb) { kb with out := kb.out ++ [keyChar kb.status kb.scancode] } := by
  have hif : kb.scancode &&& 0x80 = 0 ∧ keyTemp kb.status kb.scancode ≠ 0 := h
  simp only [keyAction, if_pos hif, keyChar]
  split
  · split
    · exact printChar_returns _ _ _
    · exact printChar_returns _ _ _
  · exact printChar_returns _ _ _

theorem keyAction_switch (stack : CharPtr) (kb : Keyboard) (h : ¬Prints kb.status kb.scancode) :
    Returns (keyAction stack kb) { kb with status := (keySwitch kb.scancode).apply kb.status } := by
  have hif : ¬(kb.scancode &&& 0x80 = 0 ∧ keyTemp kb.status kb.scancode ≠ 0) := h
  simp only [keyAction, if_neg hif]
  exact returns_pure.mpr rfl

/-- A call of the handler returns. -/
theorem keyboardHandler_returns (stack : CharPtr) (kb : Keyboard) (data : BitVec 8) :
    Returns (keyboardHandler stack kb data) (kb.after data) := by
  refine returns_bind.mpr ?_
  by_cases h : Prints kb.status data
  · refine ⟨_, keyAction_prints stack { kb with scancode := data } h, ?_⟩
    simp only [Keyboard.after, nextStatus, if_pos h]
    exact returns_pure.mpr rfl
  · refine ⟨_, keyAction_switch stack { kb with scancode := data } h, ?_⟩
    simp only [Keyboard.after, nextStatus, if_neg h]
    exact returns_pure.mpr rfl

/-- Any number of calls of the handler return. -/
theorem deliver_returns (stack : CharPtr) (kb : Keyboard) (codes : List (BitVec 8)) :
    Returns (deliver stack kb codes) (codes.foldl Keyboard.after kb) := by
  induction codes generalizing kb with
  | nil => exact returns_pure.mpr rfl
  | cons data codes ih => exact returns_bind.mpr ⟨_, keyboardHandler_returns stack kb data, ih _⟩

end LumOS
