import LumOS.Libc.Buffers
import LumOS.Pmm.FirstFit

/-!
# What the PMM logs of its zones

`printZones`, with which `init_pmm` ends, and `printZone` and `printBitmap`. On any memory `printZones` returns exactly when the list of
zones ends, and what it logs is the text of each zone's fields in the order of the list, with the first six words of each bitmap
(`printZones_reports`).
-/

namespace LumOS

open Comp

/-! ## Calls of `logf` -/

/-- A call of `logf`. -/
abbrev LogCall := CString × List Arg

/-- A call of `logf`, with what has been logged. The stack may have other contents at each call. -/
def logTo (stack : List (BitVec 8) → CharPtr) (call : LogCall) (out : List (BitVec 8)) : Comp (List (BitVec 8)) := do
  match ← logf (stack out) call.1.ptr call.2 with
  | .returned _ chars => pure (out ++ chars)
  | .undefined => Comp.diverge

/-- Calls of `logf` one after the other. -/
def logAll (stack : List (BitVec 8) → CharPtr) : List LogCall → List (BitVec 8) → Comp (List (BitVec 8))
  | [], out => pure out
  | call :: calls, out => do
    let out ← logTo stack call out
    logAll stack calls out

/-- The call logs the text. -/
def Logs (call : LogCall) (text : List (BitVec 8)) : Prop :=
  render (parse call.1.chars) call.2 = some text ∧ text.length ≤ intMax

theorem Logs.logTo {call : LogCall} {text : List (BitVec 8)} (h : Logs call text) (stack : List (BitVec 8) → CharPtr)
    (out : List (BitVec 8)) : Returns (logTo stack call out) (out ++ text) := by
  have hflat := map_flatten_segments [] (parse call.1.chars) call.2
  rw [h.1, Option.map_some, List.nil_append] at hflat
  obtain ⟨segs, hsegs, rfl⟩ := Option.map_eq_some_iff.mp hflat
  have hfinish := finish_eq (Nat.zero_le intMax) [] segs
  rw [Nat.zero_add, List.nil_append, if_pos h.2] at hfinish
  have hlogf := printf_finish (stack out) call.1 hsegs
  rw [hfinish, ← logf_eq] at hlogf
  exact returns_bind.mpr ⟨_, hlogf, returns_pure.mpr rfl⟩

/-- A call of `logf` in front of what comes after it. -/
theorem Logs.returns_bind {β : Type} {call : LogCall} {text : List (BitVec 8)} (h : Logs call text) {stack : List (BitVec 8) → CharPtr}
    {out : List (BitVec 8)} {f : List (BitVec 8) → Comp β} {b : β} :
    Returns (LumOS.logTo stack call out >>= f) b ↔ Returns (f (out ++ text)) b := by
  rw [Comp.returns_bind]
  constructor
  · rintro ⟨a, ha, hb⟩
    rwa [ha.unique (h.logTo stack out)] at hb
  · intro hb
    exact ⟨_, h.logTo stack out, hb⟩

theorem logAll_returns (stack : List (BitVec 8) → CharPtr) {calls : List LogCall} {texts : List (List (BitVec 8))}
    (h : List.Forall₂ Logs calls texts) (out : List (BitVec 8)) : Returns (logAll stack calls out) (out ++ texts.flatten) := by
  induction h generalizing out with
  | nil => exact returns_pure.mpr (by simp)
  | cons hcall _ ih =>
    refine returns_bind.mpr ⟨_, hcall.logTo stack out, ?_⟩
    rw [List.flatten_cons, ← List.append_assoc]
    exact ih _

/-! ## Formats -/

/-- The format writes the text for the arguments. -/
def Renders (fmt : List (BitVec 8)) (params : List Arg) (text : List (BitVec 8)) : Prop := render (parse fmt) params = some text

section

variable {pre rest text : List (BitVec 8)} {params : List Arg}

theorem renders_nil : Renders [] [] [] := rfl

/-- Ordinary characters stand for themselves. -/
theorem Renders.append (h : Renders rest params text) (hpre : ∀ c ∈ pre, c ≠ chr '%') : Renders (pre ++ rest) params (pre ++ text) := by
  induction pre with
  | nil => exact h
  | cons c pre ih =>
    rw [List.forall_mem_cons] at hpre
    rw [Renders, List.cons_append, parse_ordinary hpre.1, render, ih hpre.2]
    rfl

/-- A format without conversions. -/
theorem renders_plain (hpre : ∀ c ∈ pre, c ≠ chr '%') : Renders pre [] pre := by
  have hrenders := renders_nil.append hpre
  rwa [List.append_nil] at hrenders

/-- `%x` after ordinary characters. -/
theorem Renders.hex (h : Renders rest params text) (hpre : ∀ c ∈ pre, c ≠ chr '%') (w : BitVec 32) :
    Renders (pre ++ chr '%' :: chr 'x' :: rest) (.word w :: params) (pre ++ (numeral 16 w.toNat ++ text)) := by
  refine Renders.append ?_ hpre
  have hx : Conversion.ofChar (chr 'x') = some .x := rfl
  rw [Renders, parse_convert hx, render, show render (parse rest) params = some text from h]
  rfl

/-- `%d` after ordinary characters. -/
theorem Renders.dec (h : Renders rest params text) (hpre : ∀ c ∈ pre, c ≠ chr '%') (w : BitVec 32) :
    Renders (pre ++ chr '%' :: chr 'd' :: rest) (.word w :: params) (pre ++ (signedDecimal w.toInt ++ text)) := by
  refine Renders.append ?_ hpre
  have hd : Conversion.ofChar (chr 'd') = some .d := rfl
  rw [Renders, parse_convert hd, render, show render (parse rest) params = some text from h]
  rfl

end

/-- A call of `logf` with such a format. -/
theorem Renders.logs {fmt : CString} {chars text : List (BitVec 8)} {params : List Arg} (h : Renders chars params text)
    (hfmt : fmt.chars = chars) (hlen : text.length ≤ 200) : Logs (fmt, params) text := by
  refine ⟨?_, hlen.trans (by decide)⟩
  show render (parse fmt.chars) params = some text
  rw [hfmt]
  exact h

/-- A format without conversions. -/
theorem logs_plain {fmt : CString} (h : ∀ c ∈ fmt.chars, c ≠ chr '%') (hlen : fmt.chars.length ≤ 100) : Logs (fmt, []) fmt.chars :=
  (renders_plain h).logs rfl (hlen.trans (by decide))

theorem logs_hexadecimal {fmt : CString} {pre post : List (BitVec 8)} (w : BitVec 32)
    (hfmt : fmt.chars = pre ++ chr '%' :: chr 'x' :: post) (hpre : ∀ c ∈ pre, c ≠ chr '%') (hpost : ∀ c ∈ post, c ≠ chr '%')
    (hlen : pre.length + post.length ≤ 50) : Logs (fmt, [.word w]) (pre ++ numeral 16 w.toNat ++ post) := by
  have hdigits := length_hexadecimal_le w
  rw [List.append_assoc]
  refine ((renders_plain hpost).hex hpre w).logs hfmt ?_
  rw [List.length_append, List.length_append]
  omega

theorem logs_decimal {fmt : CString} {pre post : List (BitVec 8)} (w : BitVec 32)
    (hfmt : fmt.chars = pre ++ chr '%' :: chr 'd' :: post) (hpre : ∀ c ∈ pre, c ≠ chr '%') (hpost : ∀ c ∈ post, c ≠ chr '%')
    (hlen : pre.length + post.length ≤ 50) : Logs (fmt, [.word w]) (pre ++ signedDecimal w.toInt ++ post) := by
  have hdigits := length_signedDecimal_le w
  rw [List.append_assoc]
  refine ((renders_plain hpost).dec hpre w).logs hfmt ?_
  rw [List.length_append, List.length_append]
  omega

/-! ## `printBitmap` -/

/-- The format `" %x "`. -/
def formatWord : CString := CString.ofChars (literal " %x ") (by simp [literal, chr])

/-- The format `"..."`. -/
def formatDots : CString := CString.ofChars (literal "...") (by simp [literal, chr])

/-- The variables of `printBitmap`, with what has been logged. -/
structure PrintBitmap where
  i : BitVec 32
  left : Bool
  out : List (BitVec 8)

/-- A turn of the loop of `printBitmap`. -/
def printBitmapTurn (stack : List (BitVec 8) → CharPtr) (m : Mem) (mapstart : BitVec 32) (s : PrintBitmap) : Comp PrintBitmap := do
  let out ← logTo stack (formatWord, [.word (m.load (mapstart + 4 * s.i))]) s.out
  if 5 ≤ s.i then
    let out ← logTo stack (formatDots, []) out
    return { s with left := true, out := out }
  else
    return { s with i := s.i + 1, out := out }

/-- `printBitmap` -/
def printBitmap (stack : List (BitVec 8) → CharPtr) (m : Mem) (mapstart mapWords : BitVec 32) (out : List (BitVec 8)) :
    Comp (List (BitVec 8)) := do
  let s ← loop (fun s : PrintBitmap => !s.left && decide (s.i < mapWords)) (printBitmapTurn stack m mapstart)
    { i := 0, left := false, out := out }
  return s.out

/-- A word of a bitmap. -/
def wordText (w : BitVec 32) : List (BitVec 8) := literal " " ++ numeral 16 w.toNat ++ literal " "

/-- The first words of a bitmap, each between blanks. -/
def wordsText (m : Mem) (mapstart : BitVec 32) (n : Nat) : List (BitVec 8) :=
  (List.range n).flatMap (fun i => wordText (m.load (Mem.cell mapstart i)))

/-- What is to be logged of a bitmap: six words at most, and dots after the sixth. -/
def bitmapText (m : Mem) (mapstart mapWords : BitVec 32) : List (BitVec 8) :=
  wordsText m mapstart (min mapWords.toNat 6) ++ if 6 ≤ mapWords.toNat then literal "..." else []

theorem wordsText_succ (m : Mem) (mapstart : BitVec 32) (n : Nat) :
    wordsText m mapstart (n + 1) = wordsText m mapstart n ++ wordText (m.load (Mem.cell mapstart n)) := by
  simp [wordsText, List.range_succ]

theorem logs_word (w : BitVec 32) : Logs (formatWord, [.word w]) (wordText w) :=
  logs_hexadecimal w (by simp [formatWord, CString.ofChars, literal]) (by simp [literal, chr]) (by simp [literal, chr]) (by simp [literal])

theorem logs_dots : Logs (formatDots, []) (literal "...") :=
  logs_plain (by simp [formatDots, CString.ofChars, literal, chr]) (by simp [formatDots, CString.ofChars, literal])

/-- The words below `i` are logged, or the first six and the dots. -/
def PrintBitmap.Inv (m : Mem) (mapstart mapWords : BitVec 32) (out : List (BitVec 8)) (s : PrintBitmap) : Prop :=
  if s.left then 6 ≤ mapWords.toNat ∧ s.out = out ++ (wordsText m mapstart 6 ++ literal "...")
  else s.i.toNat ≤ 5 ∧ s.i.toNat ≤ mapWords.toNat ∧ s.out = out ++ wordsText m mapstart s.i.toNat

/-- How many turns there still are at most. -/
def PrintBitmap.rest (s : PrintBitmap) : Nat := if s.left then 0 else 6 - s.i.toNat

section

variable {stack : List (BitVec 8) → CharPtr} {m : Mem} {mapstart mapWords : BitVec 32} {out : List (BitVec 8)} {s : PrintBitmap}

theorem PrintBitmap.Inv.words (h : s.Inv m mapstart mapWords out) (hleft : s.left = false) :
    s.i.toNat ≤ 5 ∧ s.i.toNat ≤ mapWords.toNat ∧ s.out = out ++ wordsText m mapstart s.i.toNat := by
  rwa [PrintBitmap.Inv, hleft, if_neg Bool.false_ne_true] at h

/-- A turn logs one word more, and after the sixth the dots. -/
theorem printBitmapTurn_ensures (hs : s.Inv m mapstart mapWords out) (hleft : s.left = false) (hlt : s.i.toNat < mapWords.toNat) :
    Ensures (printBitmapTurn stack m mapstart s) (fun t => t.Inv m mapstart mapWords out ∧ t.rest < s.rest) := by
  obtain ⟨hle, -, hout⟩ := hs.words hleft
  have hrest : s.rest = 6 - s.i.toNat := by rw [PrintBitmap.rest, hleft, if_neg Bool.false_ne_true]
  have hword := (logs_word (m.load (mapstart + 4 * s.i))).logTo stack s.out
  have hcell : mapstart + 4 * s.i = Mem.cell mapstart s.i.toNat := by
    rw [Mem.cell, BitVec.ofNat_mul, BitVec.ofNat_toNat, BitVec.setWidth_eq]
    rfl
  rw [hout, List.append_assoc, hcell, ← wordsText_succ, ← hcell, ← hout] at hword
  refine Ensures.bind ⟨_, hword, rfl⟩ ?_
  rintro _ rfl
  have hfive : (5 : BitVec 32).toNat = 5 := rfl
  by_cases hsix : (5 : BitVec 32) ≤ s.i
  · rw [if_pos hsix]
    rw [BitVec.le_def, hfive] at hsix
    have hlast : s.i.toNat = 5 := Nat.le_antisymm hle hsix
    refine Ensures.bind ⟨_, logs_dots.logTo stack _, rfl⟩ ?_
    rintro _ rfl
    refine ensures_pure ⟨?_, ?_⟩
    · rw [PrintBitmap.Inv, if_pos rfl, hlast, List.append_assoc]
      exact ⟨by omega, rfl⟩
    · rw [PrintBitmap.rest, if_pos rfl, hrest, hlast]
      decide
  · rw [if_neg hsix]
    rw [BitVec.le_def, hfive] at hsix
    have hnext : (s.i + 1).toNat = s.i.toNat + 1 := by
      have hone : (1 : BitVec 32).toNat = 1 := rfl
      rw [BitVec.toNat_add]
      omega
    refine ensures_pure ⟨?_, ?_⟩
    · rw [PrintBitmap.Inv, hleft, if_neg Bool.false_ne_true, hnext]
      exact ⟨by omega, hlt, rfl⟩
    · rw [PrintBitmap.rest, hleft, if_neg Bool.false_ne_true, hrest, hnext]
      omega

end

theorem printBitmap_returns (stack : List (BitVec 8) → CharPtr) (m : Mem) (mapstart mapWords : BitVec 32) (out : List (BitVec 8)) :
    Returns (printBitmap stack m mapstart mapWords out) (out ++ bitmapText m mapstart mapWords) := by
  have hbody : ∀ s : PrintBitmap, s.Inv m mapstart mapWords out → (!s.left && decide (s.i < mapWords)) = true →
      Ensures (printBitmapTurn stack m mapstart s) (fun t => t.Inv m mapstart mapWords out ∧ t.rest < s.rest) := by
    intro s hs hgo
    rw [Bool.and_eq_true, Bool.not_eq_true', decide_eq_true_eq, BitVec.lt_def] at hgo
    exact printBitmapTurn_ensures hs hgo.1 hgo.2
  obtain ⟨s, hloop, hs, hend⟩ := ensures_loop _ _ hbody (s := { i := 0, left := false, out := out })
    ⟨Nat.zero_le _, Nat.zero_le _, (List.append_nil out).symm⟩
  refine returns_bind.mpr ⟨s, hloop, returns_pure.mpr ?_⟩
  rw [Bool.and_eq_false_iff, Bool.not_eq_false', decide_eq_false_iff_not, BitVec.lt_def] at hend
  cases hleft : s.left with
  | true =>
    rw [PrintBitmap.Inv, if_pos hleft] at hs
    rw [hs.2, bitmapText, Nat.min_eq_right hs.1, if_pos hs.1]
  | false =>
    obtain ⟨hle, hle', hout⟩ := hs.words hleft
    have hall : s.i.toNat = mapWords.toNat := Nat.le_antisymm hle' (Nat.le_of_not_lt (hend.resolve_left (by simp [hleft])))
    rw [hout, bitmapText, Nat.min_eq_left (by omega), if_neg (by omega), List.append_nil, hall]

/-! ## `printZone` -/

/-- The format `"Zone info @ %x: \n"`. -/
def formatInfo : CString := CString.ofChars (literal "Zone info @ %x: \n") (by simp [literal, chr])

/-- The format `"zone start: %x\n"`. -/
def formatStart : CString := CString.ofChars (literal "zone start: %x\n") (by simp [literal, chr])

/-- The format `"zone end: %x\n"`. -/
def formatEnd : CString := CString.ofChars (literal "zone end: %x\n") (by simp [literal, chr])

/-- The format `"zone free: %d blocks\n"`. -/
def formatFree : CString := CString.ofChars (literal "zone free: %d blocks\n") (by simp [literal, chr])

/-- The format `"zone length: %d\n"`. -/
def formatLength : CString := CString.ofChars (literal "zone length: %d\n") (by simp [literal, chr])

/-- The format `"zone bitmap words: %d words : %d bytes\n"`. -/
def formatWords : CString := CString.ofChars (literal "zone bitmap words: %d words : %d bytes\n") (by simp [literal, chr])

/-- The format `"bitmap location: %x\n"`. -/
def formatLocation : CString := CString.ofChars (literal "bitmap location: %x\n") (by simp [literal, chr])

/-- The format `"bitmap contents : "`. -/
def formatContents : CString := CString.ofChars (literal "bitmap contents : ") (by simp [literal, chr])

/-- The format `"\n"`. -/
def formatNewline : CString := CString.ofChars (literal "\n") (by simp [literal, chr])

/-- The calls of `printZone` before that of `printBitmap`. -/
def zoneCalls (m : Mem) (zone : BitVec 32) : List LogCall :=
  [(formatInfo, [.word zone]),
    (formatStart, [.word (zoneField m zone .start)]),
    (formatEnd, [.word (zoneField m zone .end_)]),
    (formatFree, [.word (zoneField m zone .free)]),
    (formatLength, [.word (zoneField m zone .length)]),
    (formatWords, [.word (zoneField m zone .bitmapWords), .word (zoneField m zone .bitmapWords * 4)]),
    (formatLocation, [.word (zoneField m zone .bitmap)]),
    (formatContents, [])]

/-- `printZone` -/
def printZone (stack : List (BitVec 8) → CharPtr) (m : Mem) (zone : BitVec 32) (out : List (BitVec 8)) : Comp (List (BitVec 8)) := do
  let out ← logAll stack (zoneCalls m zone) out
  let out ← printBitmap stack m (zoneField m zone .bitmap) (zoneField m zone .bitmapWords) out
  logTo stack (formatNewline, []) out

/-- What is to be logged of the fields of a zone. -/
def fieldTexts (m : Mem) (zone : BitVec 32) : List (List (BitVec 8)) :=
  [literal "Zone info @ " ++ numeral 16 zone.toNat ++ literal ": \n",
    literal "zone start: " ++ numeral 16 (zoneField m zone .start).toNat ++ literal "\n",
    literal "zone end: " ++ numeral 16 (zoneField m zone .end_).toNat ++ literal "\n",
    literal "zone free: " ++ signedDecimal (zoneField m zone .free).toInt ++ literal " blocks\n",
    literal "zone length: " ++ signedDecimal (zoneField m zone .length).toInt ++ literal "\n",
    literal "zone bitmap words: " ++ signedDecimal (zoneField m zone .bitmapWords).toInt ++ literal " words : " ++
      signedDecimal (zoneField m zone .bitmapWords * 4).toInt ++ literal " bytes\n",
    literal "bitmap location: " ++ numeral 16 (zoneField m zone .bitmap).toNat ++ literal "\n",
    literal "bitmap contents : "]

/-- What is to be logged of a zone. -/
def zoneText (m : Mem) (zone : BitVec 32) : List (BitVec 8) :=
  (fieldTexts m zone).flatten ++ bitmapText m (zoneField m zone .bitmap) (zoneField m zone .bitmapWords) ++ literal "\n"

theorem logs_info (w : BitVec 32) : Logs (formatInfo, [.word w]) (literal "Zone info @ " ++ numeral 16 w.toNat ++ literal ": \n") :=
  logs_hexadecimal w (by simp [formatInfo, CString.ofChars, literal]) (by simp [literal, chr]) (by simp [literal, chr]) (by simp [literal])

theorem logs_start (w : BitVec 32) : Logs (formatStart, [.word w]) (literal "zone start: " ++ numeral 16 w.toNat ++ literal "\n") :=
  logs_hexadecimal w (by simp [formatStart, CString.ofChars, literal]) (by simp [literal, chr]) (by simp [literal, chr]) (by simp [literal])

theorem logs_end (w : BitVec 32) : Logs (formatEnd, [.word w]) (literal "zone end: " ++ numeral 16 w.toNat ++ literal "\n") :=
  logs_hexadecimal w (by simp [formatEnd, CString.ofChars, literal]) (by simp [literal, chr]) (by simp [literal, chr]) (by simp [literal])

theorem logs_free (w : BitVec 32) : Logs (formatFree, [.word w])
    (literal "zone free: " ++ signedDecimal w.toInt ++ literal " blocks\n") :=
  logs_decimal w (by simp [formatFree, CString.ofChars, literal]) (by simp [literal, chr]) (by simp [literal, chr]) (by simp [literal])

theorem logs_length (w : BitVec 32) : Logs (formatLength, [.word w])
    (literal "zone length: " ++ signedDecimal w.toInt ++ literal "\n") :=
  logs_decimal w (by simp [formatLength, CString.ofChars, literal]) (by simp [literal, chr]) (by simp [literal, chr]) (by simp [literal])

theorem logs_location (w : BitVec 32) : Logs (formatLocation, [.word w])
    (literal "bitmap location: " ++ numeral 16 w.toNat ++ literal "\n") :=
  logs_hexadecimal w (by simp [formatLocation, CString.ofChars, literal]) (by simp [literal, chr]) (by simp [literal, chr])
    (by simp [literal])

theorem logs_words (v w : BitVec 32) : Logs (formatWords, [.word v, .word w]) (literal "zone bitmap words: " ++ signedDecimal v.toInt ++
    literal " words : " ++ signedDecimal w.toInt ++ literal " bytes\n") := by
  have hwords := length_signedDecimal_le v
  have hbytes := length_signedDecimal_le w
  have hall : Renders (literal "zone bitmap words: " ++ chr '%' :: chr 'd' :: (literal " words : " ++ chr '%' :: chr 'd' ::
      literal " bytes\n")) [.word v, .word w] _ :=
    ((renders_plain (by simp [literal, chr])).dec (by simp [literal, chr]) w).dec (by simp [literal, chr]) v
  simp only [List.append_assoc]
  refine hall.logs (by simp [formatWords, CString.ofChars, literal]) ?_
  simp [literal]
  omega

theorem logs_contents : Logs (formatContents, []) (literal "bitmap contents : ") :=
  logs_plain (by simp [formatContents, CString.ofChars, literal, chr])
    (by simp [formatContents, CString.ofChars, literal])

theorem logs_newline : Logs (formatNewline, []) (literal "\n") :=
  logs_plain (by simp [formatNewline, CString.ofChars, literal, chr])
    (by simp [formatNewline, CString.ofChars, literal])

theorem zone_logs (m : Mem) (zone : BitVec 32) : List.Forall₂ Logs (zoneCalls m zone) (fieldTexts m zone) :=
  .cons (logs_info _) (.cons (logs_start _) (.cons (logs_end _) (.cons (logs_free _) (.cons (logs_length _) (.cons (logs_words _ _)
    (.cons (logs_location _) (.cons logs_contents .nil)))))))

theorem printZone_returns (stack : List (BitVec 8) → CharPtr) (m : Mem) (zone : BitVec 32) (out : List (BitVec 8)) :
    Returns (printZone stack m zone out) (out ++ zoneText m zone) := by
  refine returns_bind.mpr ⟨_, logAll_returns stack (zone_logs m zone) out, ?_⟩
  refine returns_bind.mpr ⟨_, printBitmap_returns stack m _ _ _, ?_⟩
  rw [zoneText, ← List.append_assoc, ← List.append_assoc]
  exact logs_newline.logTo stack _

/-! ## `printZones` -/

/-- The format `"\nPhysical Memory Manger Zones\n------------------------------------\n"`. -/
def formatTitle : CString :=
  CString.ofChars (literal "\nPhysical Memory Manger Zones\n------------------------------------\n") (by simp [literal, chr])

/-- The format `"------------------------------------\n"`. -/
def formatRule : CString := CString.ofChars (literal "------------------------------------\n") (by simp [literal, chr])

/-- A turn of the loop of `printZones`. -/
def printZonesTurn (stack : List (BitVec 8) → CharPtr) (m : Mem) (s : BitVec 32 × List (BitVec 8)) :
    Comp (BitVec 32 × List (BitVec 8)) := do
  let out ← printZone stack m s.1 s.2
  let out ← logTo stack (formatNewline, []) out
  return (zoneField m s.1 .nextZone, out)

/-- `printZones`, with what it logs. -/
def printZonesLogged (stack : List (BitVec 8) → CharPtr) (m : Mem) (zone : BitVec 32) (out : List (BitVec 8)) :
    Comp (List (BitVec 8)) := do
  let out ← logTo stack (formatTitle, []) out
  let (_, out) ← loop (fun s => s.1 != 0) (printZonesTurn stack m) (zone, out)
  logTo stack (formatRule, []) out

/-- What is to be logged of a list of zones. -/
def zonesText (m : Mem) (qs : List (BitVec 32)) : List (BitVec 8) :=
  literal "\nPhysical Memory Manger Zones\n------------------------------------\n" ++
    qs.flatMap (fun q => zoneText m q ++ literal "\n") ++ literal "------------------------------------\n"

theorem logs_title : Logs (formatTitle, []) (literal "\nPhysical Memory Manger Zones\n------------------------------------\n") :=
  logs_plain (by simp [formatTitle, CString.ofChars, literal, chr])
    (by simp [formatTitle, CString.ofChars, literal])

theorem logs_rule : Logs (formatRule, []) (literal "------------------------------------\n") :=
  logs_plain (by simp [formatRule, CString.ofChars, literal, chr])
    (by simp [formatRule, CString.ofChars, literal])

section

variable {stack : List (BitVec 8) → CharPtr} {m : Mem} {zone : BitVec 32} {out text : List (BitVec 8)}

theorem printZonesTurn_returns (s : BitVec 32 × List (BitVec 8)) :
    Returns (printZonesTurn stack m s) (zoneField m s.1 .nextZone, s.2 ++ (zoneText m s.1 ++ literal "\n")) := by
  refine returns_bind.mpr ⟨_, printZone_returns stack m s.1 s.2, returns_bind.mpr ⟨_, logs_newline.logTo stack _, ?_⟩⟩
  exact returns_pure.mpr (by rw [List.append_assoc])

/-- The loop along a list that ends. -/
theorem ZoneChain.prints {qs : List (BitVec 32)} (h : ZoneChain m zone qs) (out : List (BitVec 8)) :
    Returns (loop (fun s => s.1 != 0) (printZonesTurn stack m) (zone, out))
      (0, out ++ qs.flatMap (fun q => zoneText m q ++ literal "\n")) := by
  induction h generalizing out with
  | nil =>
    rw [List.flatMap_nil, List.append_nil]
    exact returns_loop_exit rfl
  | @cons zone qs hne rest ih =>
    refine returns_loop_turn (bne_iff_ne.mpr hne) (printZonesTurn_returns (zone, out)) ?_
    have hrest := ih (out ++ (zoneText m zone ++ literal "\n"))
    rwa [List.append_assoc, ← List.flatMap_cons (f := fun q => zoneText m q ++ literal "\n")] at hrest

/-- A loop that returns has come to the end of the list. -/
theorem exists_zoneChain {s t : BitVec 32 × List (BitVec 8)} (h : Returns (loop (fun s => s.1 != 0) (printZonesTurn stack m) s) t) :
    ∃ qs, ZoneChain m s.1 qs := by
  refine h.loop_induct (P := fun s _ => ∃ qs, ZoneChain m s.1 qs) ?_ ?_
  · intro s hs
    rw [bne_eq_false_iff_eq] at hs
    exact ⟨[], hs ▸ .nil⟩
  · rintro s u t hs hu ⟨qs, hqs⟩
    obtain rfl := (printZonesTurn_returns s).unique hu
    exact ⟨s.1 :: qs, .cons (bne_iff_ne.mp hs) hqs⟩

theorem ZoneChain.logged {qs : List (BitVec 32)} (h : ZoneChain m zone qs) (out : List (BitVec 8)) :
    Returns (printZonesLogged stack m zone out) (out ++ zonesText m qs) := by
  refine returns_bind.mpr ⟨_, logs_title.logTo stack out, returns_bind.mpr ⟨_, h.prints _, ?_⟩⟩
  rw [zonesText, ← List.append_assoc, ← List.append_assoc]
  exact logs_rule.logTo stack _

theorem exists_zoneChain_of_logged (h : Returns (printZonesLogged stack m zone out) text) : ∃ qs, ZoneChain m zone qs := by
  obtain ⟨_, _, hrest⟩ := returns_bind.mp h
  obtain ⟨_, hloop, -⟩ := returns_bind.mp hrest
  exact exists_zoneChain hloop

/-- In `init_pmm` only the walk along the list matters: it returns when `printZones` does. -/
theorem returns_printZones_iff : Returns (printZones m zone) () ↔ ∃ text, Returns (printZonesLogged stack m zone out) text := by
  constructor
  · intro h
    obtain ⟨t, hloop, -⟩ := returns_bind.mp h
    have hchain : ∃ qs, ZoneChain m zone qs := by
      refine hloop.loop_induct (P := fun zone _ => ∃ qs, ZoneChain m zone qs) ?_ ?_
      · intro q hq
        rw [decide_eq_false_iff_not, not_not] at hq
        exact ⟨[], hq ▸ .nil⟩
      · rintro q _ _ hq hnext ⟨qs, hqs⟩
        obtain rfl := returns_pure.mp hnext
        exact ⟨q :: qs, .cons (of_decide_eq_true hq) hqs⟩
    obtain ⟨qs, hqs⟩ := hchain
    exact ⟨_, hqs.logged out⟩
  · rintro ⟨text, htext⟩
    obtain ⟨qs, hqs⟩ := exists_zoneChain_of_logged htext
    refine returns_bind.mpr ⟨0, ?_, returns_pure.mpr rfl⟩
    clear htext
    induction hqs with
    | nil => exact returns_loop_exit rfl
    | cons hne _ ih => exact returns_loop_turn (decide_eq_true hne) (returns_pure.mpr rfl) ih

/-- On any memory `printZones` returns when, and only when, the list of zones ends, and then the zones are logged in its order. -/
theorem printZones_reports (stack : List (BitVec 8) → CharPtr) (m : Mem) (zone : BitVec 32) (out text : List (BitVec 8)) :
    Returns (printZonesLogged stack m zone out) text ↔ ∃ qs, ZoneChain m zone qs ∧ text = out ++ zonesText m qs := by
  constructor
  · intro h
    obtain ⟨qs, hqs⟩ := exists_zoneChain_of_logged h
    exact ⟨qs, hqs, h.unique (hqs.logged out)⟩
  · rintro ⟨qs, hqs, rfl⟩
    exact hqs.logged out

end

end LumOS
