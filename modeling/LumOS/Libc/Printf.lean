import LumOS.Libc.Format
import Mathlib.Data.List.TakeWhile

/-!
# `printf`

`printf` passes on the text of its format (`printf_renders`). A turn of its loop passes on the next piece, or stops when there is no
room for it (`printfTurn_advances`); so the loop passes on the pieces that fit, one after another (`scan_returns`).
-/

namespace LumOS

open Comp

/-! ## `strlen` and `print` -/

theorem returns_strlen {p : CharPtr} {s : List (BitVec 8)} (h : Spells p s) : Returns (strlen p) s.length := by
  have hall : s.takeWhile (· != 0) = s := by
    rw [List.takeWhile_eq_self_iff]
    intro c hc
    simpa using h.ne_nul c hc
  have hwalk : Returns (strlen p) (0 + (s.takeWhile (· != 0)).length) := Spells.returns_walk (· != 0) rfl (by rwa [CharPtr.add_zero])
  rwa [hall, Nat.zero_add] at hwalk

/-- `putchar` never returns an `EOF`. -/
theorem putchar_ne_eof (ch : BitVec 32) (out : List (BitVec 8)) : (putchar ch out).1 ≠ eof := by
  intro h
  have hlt : ((ch.setWidth 8).setWidth 32 : BitVec 32).toNat < 2 ^ 8 := by
    rw [BitVec.toNat_setWidth_of_le (by decide)]
    exact (ch.setWidth 8).isLt
  have heof : ((ch.setWidth 8).setWidth 32 : BitVec 32) = eof := h
  rw [heof] at hlt
  exact absurd hlt (by decide)

/-- So `print` passes every character on. -/
theorem print_eq (data : CharPtr) (length : Nat) (out : List (BitVec 8)) :
    print data length out = (true, out ++ data.read length) := by
  induction length generalizing data out with
  | zero => simp [print]
  | succ n ih =>
    have hput : (putchar ((data 0).setWidth 32) out).2 = out ++ [data 0] := by
      simp [putchar]
    rw [print]
    simp only [if_neg (putchar_ne_eof _ _), hput]
    rw [ih, CharPtr.read_succ, List.append_assoc, List.singleton_append]

/-- What ends a branch of `printf`, without the checks for an `EOF`. -/
theorem printSegment_eq (s : Scan) (data : CharPtr) (len n : Nat) :
    printSegment s data len n = if intMax - s.bytesWritten < len then .stop (.returned (-1) s.out)
      else .next { s.skip n with bytesWritten := s.bytesWritten + len, out := s.out ++ data.read len } := by
  simp only [printSegment, print_eq]
  rfl

/-! ## Turns -/

/-- A turn from a state with `written` characters in `out`, the format `fmt` and the pieces `segs`: it passes on the first piece and
leaves a shorter format with the others, or it stops because there is no room for the first. -/
def Advances (written : Nat) (out fmt : List (BitVec 8)) (segs : List (List (BitVec 8))) (f : Flow) : Prop :=
  ∃ seg rest fmt' s', segs = seg :: rest ∧
    f = (if intMax - written < seg.length then .stop (.returned (-1) out) else .next s') ∧
    Spells s'.formatStr fmt' ∧ fmt'.length < fmt.length ∧ segments [] (parse fmt') s'.params = some rest ∧
    s'.bytesWritten = written + seg.length ∧ s'.out = out ++ seg

theorem Advances.longer {written : Nat} {out fmt fmt' : List (BitVec 8)} {segs : List (List (BitVec 8))} {f : Flow}
    (h : Advances written out fmt segs f) (hle : fmt.length ≤ fmt'.length) : Advances written out fmt' segs f := by
  obtain ⟨seg, rest, left, s', hsegs, hf, hspells, hlt, hrest⟩ := h
  exact ⟨seg, rest, left, s', hsegs, hf, hspells, Nat.lt_of_lt_of_le hlt hle, hrest⟩

/-- The end of a branch that has found the first piece. -/
theorem printSegment_advances {s : Scan} {data : CharPtr} {len n : Nat} {fmt fmt' seg : List (BitVec 8)}
    {rest : List (List (BitVec 8))} (hlen : seg.length = len) (hread : data.read len = seg) (hfmt : Spells (s.formatStr.add n) fmt')
    (hlt : fmt'.length < fmt.length) (hsegs : segments [] (parse fmt') s.params = some rest) :
    Advances s.bytesWritten s.out fmt (seg :: rest) (printSegment s data len n) := by
  refine ⟨seg, rest, fmt', { s.skip n with bytesWritten := s.bytesWritten + len, out := s.out ++ data.read len }, rfl, ?_, hfmt, hlt,
    hsegs, ?_, ?_⟩
  · rw [printSegment_eq, hlen]
  · rw [hlen]
  · rw [hread]

/-- The length of a run: its first character and those up to the next `'%'`. -/
theorem returns_subLength {p : CharPtr} {c : BitVec 8} {fmt : List (BitVec 8)} (h : Spells p (c :: fmt)) :
    Returns (subLength p) (c :: fmt.takeWhile (· != chr '%')).length := by
  have hwalk := Spells.returns_walk (fun c => c != 0 && c != chr '%') rfl h.2.2
  rw [h.2.2.takeWhile, Nat.add_comm] at hwalk
  exact hwalk

/-- A turn that takes a run: `c` is its first character. -/
theorem run_advances {s : Scan} {c : BitVec 8} {fmt : List (BitVec 8)} {segs : List (List (BitVec 8))}
    (hs : Spells s.formatStr (c :: fmt)) (hsegs : segments [c] (parse fmt) s.params = some segs) :
    Ensures (do let len ← subLength s.formatStr; pure (printSegment s s.formatStr len len))
      (Advances s.bytesWritten s.out (c :: fmt) segs) := by
  rw [segments_run (List.cons_ne_nil _ _)] at hsegs
  obtain ⟨rest, hrest, rfl⟩ := Option.map_eq_some_iff.mp hsegs
  have hsplit : c :: fmt = (c :: fmt.takeWhile (· != chr '%')) ++ fmt.dropWhile (· != chr '%') := by
    rw [List.cons_append, List.takeWhile_append_dropWhile]
  have hle : (c :: fmt.takeWhile (· != chr '%')).length ≤ (c :: fmt).length := by
    conv_rhs => rw [hsplit]
    rw [List.length_append]
    exact Nat.le_add_right _ _
  refine ⟨_, returns_bind.mpr ⟨_, returns_subLength hs, returns_pure.mpr rfl⟩, ?_⟩
  refine printSegment_advances rfl ?_ ?_ ?_ hrest
  · rw [hs.read_take hle, hsplit, List.take_left, List.singleton_append]
  · have hdrop := hs.drop hle
    conv at hdrop => enter [2]; rw [hsplit, List.drop_left]
    exact hdrop
  · rw [hsplit, List.length_append, List.length_cons]
    omega

/-- A turn that takes a conversion of a number. -/
theorem itoa_advances {s : Scan} {num radix : BitVec 32} {fmt fmt' : List (BitVec 8)} {rest : List (List (BitVec 8))}
    (stack : CharPtr) (h2 : 2 ≤ radix.toNat) (h36 : radix.toNat ≤ 36) (hfmt : Spells (s.formatStr.add 1) fmt')
    (hlt : fmt'.length < fmt.length) (hsegs : segments [] (parse fmt') s.params = some rest) :
    Ensures (do
        let str ← itoa num { chars := stack, writes := [] } radix
        let len ← strlen str.chars
        pure (printSegment s str.chars len 1))
      (Advances s.bytesWritten s.out fmt (itoaText radix.toNat num :: rest)) := by
  refine (itoa_spec num { chars := stack, writes := [] } h2 h36).bind ?_
  rintro str ⟨hstr, _⟩
  refine ⟨_, returns_bind.mpr ⟨_, returns_strlen hstr, returns_pure.mpr rfl⟩, ?_⟩
  exact printSegment_advances rfl hstr.read hfmt hlt hsegs

/-- The numeral that `%d` asks for. -/
theorem itoaText_ten (num : BitVec 32) : itoaText 10 num = signedDecimal num.toInt := by
  unfold itoaText signedDecimal
  by_cases hneg : num.toInt < 0
  · rw [if_pos ⟨rfl, hneg⟩, if_pos hneg]
  · have habs : num.toNat = num.toInt.natAbs := by
      rw [BitVec.toInt_eq_toNat_cond] at hneg ⊢
      split at hneg <;> split <;> omega
    rw [if_neg (fun h => hneg h.2), if_neg hneg, habs]

/-- The numerals that `%x` and `%o` ask for. -/
theorem itoaText_ne_ten {radix : Nat} (h : radix ≠ 10) (num : BitVec 32) : itoaText radix num = numeral radix num.toNat := by
  rw [itoaText, if_neg (fun hr => h hr.1)]

/-- A turn that takes a conversion. -/
theorem convert_advances {s : Scan} {conv : Conversion} {fmt text : List (BitVec 8)} {arg : Arg} {params : List Arg}
    {rest : List (List (BitVec 8))} (stack : CharPtr) (hs : Spells s.formatStr (chr '%' :: conv.char :: fmt))
    (hparams : s.params = arg :: params) (htext : conv.text arg = some text)
    (hsegs : segments [] (parse fmt) params = some rest) :
    Ensures (printfTurn stack s) (Advances s.bytesWritten s.out (chr '%' :: conv.char :: fmt) (text :: rest)) := by
  obtain ⟨h0, _, h1, _, hfmt⟩ := hs
  rw [CharPtr.add_apply, Nat.add_zero] at h1
  have hlt : fmt.length < (chr '%' :: conv.char :: fmt).length := by
    simp only [List.length_cons]
    omega
  have hturn : ¬(s.formatStr 0 ≠ chr '%' ∨ s.formatStr 1 = chr '%') := by
    rw [h0, h1]
    cases conv <;> decide
  have hskip : (s.skip 1).formatStr 0 = conv.char := h1
  have hva : (s.skip 1).params = arg :: params := hparams
  rw [printfTurn, if_neg hturn]
  simp only [hskip, hva]
  cases conv with
  | c =>
    cases arg with
    | str str => cases htext
    | word w =>
      cases htext
      rw [Conversion.char, if_pos rfl]
      exact ensures_pure (printSegment_advances (s := { s.skip 1 with params := params }) rfl rfl hfmt hlt hsegs)
  | s =>
    cases arg with
    | word w => cases htext
    | str str =>
      cases htext
      rw [Conversion.char, if_neg (by decide), if_pos rfl]
      refine ⟨_, returns_bind.mpr ⟨_, returns_strlen str.spells, returns_pure.mpr rfl⟩, ?_⟩
      exact printSegment_advances (s := { s.skip 1 with params := params }) rfl str.spells.read hfmt hlt hsegs
  | d =>
    cases arg with
    | str str => cases htext
    | word num =>
      cases htext
      rw [Conversion.char, if_neg (by decide), if_neg (by decide), if_pos rfl, ← itoaText_ten]
      exact itoa_advances (s := { s.skip 1 with params := params }) stack (by decide) (by decide) hfmt hlt hsegs
  | x =>
    cases arg with
    | str str => cases htext
    | word num =>
      cases htext
      rw [Conversion.char, if_neg (by decide), if_neg (by decide), if_neg (by decide), if_pos rfl,
        ← itoaText_ne_ten (by decide)]
      exact itoa_advances (s := { s.skip 1 with params := params }) stack (by decide) (by decide) hfmt hlt hsegs
  | o =>
    cases arg with
    | str str => cases htext
    | word num =>
      cases htext
      rw [Conversion.char, if_neg (by decide), if_neg (by decide), if_neg (by decide), if_neg (by decide), if_pos rfl,
        ← itoaText_ne_ten (by decide)]
      exact itoa_advances (s := { s.skip 1 with params := params }) stack (by decide) (by decide) hfmt hlt hsegs

/-- A turn that takes the rest of the format. -/
theorem stray_advances {s : Scan} {fmt : List (BitVec 8)} (stack : CharPtr) (hs : Spells s.formatStr (chr '%' :: fmt))
    (hne : s.formatStr 1 ≠ chr '%') (hk : Conversion.ofChar (s.formatStr 1) = none) :
    Ensures (printfTurn stack s) (Advances s.bytesWritten s.out (chr '%' :: fmt) [fmt]) := by
  obtain ⟨h0, _, hfmt⟩ := hs
  have hturn : ¬(s.formatStr 0 ≠ chr '%' ∨ s.formatStr 1 = chr '%') := by
    rw [h0]
    simpa using hne
  have hconv : ∀ conv : Conversion, (s.skip 1).formatStr 0 ≠ conv.char := by
    intro conv h
    have hchar : s.formatStr 1 = conv.char := h
    rw [hchar, Conversion.ofChar_char] at hk
    cases hk
  have hc : (s.skip 1).formatStr 0 ≠ chr 'c' := hconv .c
  have hs : (s.skip 1).formatStr 0 ≠ chr 's' := hconv .s
  have hd : (s.skip 1).formatStr 0 ≠ chr 'd' := hconv .d
  have hx : (s.skip 1).formatStr 0 ≠ chr 'x' := hconv .x
  have ho : (s.skip 1).formatStr 0 ≠ chr 'o' := hconv .o
  have hlen := returns_strlen hfmt
  rw [printfTurn, if_neg hturn]
  simp only
  rw [if_neg hc, if_neg hs, if_neg hd, if_neg hx, if_neg ho]
  refine ⟨_, returns_bind.mpr ⟨_, hlen, returns_pure.mpr rfl⟩, ?_⟩
  have hend : Spells (((s.skip 1).formatStr).add fmt.length) [] := by
    have hdrop := hfmt.drop (Nat.le_refl fmt.length)
    rwa [List.drop_length] at hdrop
  exact printSegment_advances (s := s.skip 1) rfl hfmt.read hend (Nat.succ_pos _) rfl

/-- A turn passes on the first piece of the format, when there is room for it. -/
theorem printfTurn_advances {s : Scan} {c : BitVec 8} {fmt : List (BitVec 8)} {segs : List (List (BitVec 8))} (stack : CharPtr)
    (hs : Spells s.formatStr (c :: fmt)) (hsegs : segments [] (parse (c :: fmt)) s.params = some segs) :
    Ensures (printfTurn stack s) (Advances s.bytesWritten s.out (c :: fmt) segs) := by
  by_cases hc : c = chr '%'
  · subst hc
    cases fmt with
    | nil =>
      have h1 : s.formatStr 1 = 0 := hs.2.2
      rw [parse_lone] at hsegs
      cases hsegs
      exact stray_advances stack hs (by rw [h1]; decide) (by rw [h1]; rfl)
    | cons k fmt =>
      have h1 : s.formatStr 1 = k := hs.2.2.1
      by_cases hk : k = chr '%'
      · subst hk
        rw [parse_percent, segments] at hsegs
        have hflush : flush [] = id := rfl
        rw [hflush, Option.map_id] at hsegs
        have h0 : s.formatStr 0 = chr '%' := hs.1
        rw [printfTurn, if_pos (Or.inr h1)]
        simp only [if_pos h0]
        exact (run_advances (s := s.skip 1) hs.2.2 hsegs).imp (fun f hf => hf.longer (Nat.le_succ _))
      · cases hconv : Conversion.ofChar k with
        | none =>
          rw [parse_stray hk hconv] at hsegs
          cases hsegs
          exact stray_advances stack hs (by rw [h1]; exact hk) (by rw [h1]; exact hconv)
        | some conv =>
          obtain rfl := Conversion.eq_char hconv
          rw [parse_convert hconv] at hsegs
          cases hparams : s.params with
          | nil =>
            rw [hparams] at hsegs
            cases hsegs
          | cons arg params =>
            rw [hparams, segments] at hsegs
            obtain ⟨text, htext, hsegs⟩ := Option.bind_eq_some_iff.mp hsegs
            obtain ⟨rest, hrest, rfl⟩ := Option.map_eq_some_iff.mp hsegs
            exact convert_advances stack hs hparams htext hrest
  · rw [parse_ordinary hc, segments] at hsegs
    have h0 : s.formatStr 0 = c := hs.1
    rw [printfTurn, if_pos (Or.inl (by rw [h0]; exact hc))]
    simp only [if_neg (show s.formatStr 0 ≠ chr '%' by rw [h0]; exact hc)]
    exact run_advances hs hsegs

/-! ## The loop -/

/-- What a formatter that passes on `segs` one after another returns, with `written` characters in `out`. -/
def finish (written : Nat) (out : List (BitVec 8)) : List (List (BitVec 8)) → Outcome
  | [] => .returned written out
  | seg :: segs =>
    if intMax - written < seg.length then .returned (-1) out else finish (written + seg.length) (out ++ seg) segs

/-- With room for all of it the text is passed on, else the pieces before the first that there is no room for. -/
theorem finish_eq {written : Nat} (hw : written ≤ intMax) (out : List (BitVec 8)) (segs : List (List (BitVec 8))) :
    finish written out segs =
      if written + segs.flatten.length ≤ intMax then .returned (written + segs.flatten.length : Nat) (out ++ segs.flatten)
      else .returned (-1) (out ++ (fitting (intMax - written) segs).flatten) := by
  induction segs generalizing written out with
  | nil => simp [finish, hw]
  | cons seg segs ih =>
    rw [finish, fitting, List.flatten_cons, List.length_append]
    by_cases hlt : intMax - written < seg.length
    · rw [if_pos hlt, if_neg (by omega), if_neg (by omega), List.flatten_nil, List.append_nil]
    · have hfit : seg.length ≤ intMax - written := Nat.le_of_not_lt hlt
      have hroom : intMax - (written + seg.length) = intMax - written - seg.length := Nat.sub_add_eq ..
      rw [if_neg hlt, if_pos hfit, ih (by omega), Nat.add_assoc, List.append_assoc, List.append_assoc, List.flatten_cons, hroom]

theorem finish_returned (written : Nat) (out : List (BitVec 8)) (segs : List (List (BitVec 8))) :
    ∃ value chars, finish written out segs = .returned value chars := by
  induction segs generalizing written out with
  | nil => exact ⟨_, _, rfl⟩
  | cons seg segs ih =>
    rw [finish]
    split
    · exact ⟨_, _, rfl⟩
    · exact ih _ _

theorem scan_exit {turn : Scan → Comp Flow} {s : Scan} (h0 : s.formatStr 0 = 0) :
    Returns (scan turn s) (.returned s.bytesWritten s.out) := by
  refine returns_bind.mpr ⟨.next s, returns_loop_exit ?_, returns_pure.mpr rfl⟩
  simp [Flow.goesOn, h0]

theorem scan_stop {turn : Scan → Comp Flow} {s : Scan} {o : Outcome} (h0 : s.formatStr 0 ≠ 0)
    (hturn : Returns (turn s) (.stop o)) : Returns (scan turn s) o := by
  refine returns_bind.mpr ⟨.stop o, returns_loop_turn ?_ hturn (returns_loop_exit rfl), returns_pure.mpr rfl⟩
  exact bne_iff_ne.mpr h0

theorem scan_next {turn : Scan → Comp Flow} {s s' : Scan} {o : Outcome} (h0 : s.formatStr 0 ≠ 0)
    (hturn : Returns (turn s) (.next s')) (hscan : Returns (scan turn s') o) : Returns (scan turn s) o := by
  obtain ⟨f, hf, ho⟩ := returns_bind.mp hscan
  refine returns_bind.mpr ⟨f, returns_loop_turn ?_ hturn hf, ho⟩
  exact bne_iff_ne.mpr h0

/-- The loop passes on the pieces of the format that there is room for: by induction on the format that is left. -/
theorem scan_returns (stack : CharPtr) {s : Scan} {fmt : List (BitVec 8)} {segs : List (List (BitVec 8))}
    (hs : Spells s.formatStr fmt) (hsegs : segments [] (parse fmt) s.params = some segs) :
    Returns (scan (printfTurn stack) s) (finish s.bytesWritten s.out segs) := by
  induction hn : fmt.length using Nat.strongRecOn generalizing fmt s segs with
  | _ n ih =>
    cases fmt with
    | nil =>
      cases hsegs
      exact scan_exit hs
    | cons c fmt =>
      have h0 : s.formatStr 0 ≠ 0 := by
        rw [hs.1]
        exact hs.2.1
      obtain ⟨f, hturn, seg, rest, fmt', s', rfl, hf, hs', hlt, hrest, hwritten, hout⟩ := printfTurn_advances stack hs hsegs
      rw [finish]
      by_cases hroom : intMax - s.bytesWritten < seg.length
      · rw [if_pos hroom] at hf ⊢
        rw [hf] at hturn
        exact scan_stop h0 hturn
      · rw [if_neg hroom] at hf ⊢
        rw [hf] at hturn
        rw [← hwritten, ← hout]
        exact scan_next h0 hturn (ih _ (hn ▸ hlt) hs' hrest rfl)

/-- `printf` returns what passing on the pieces of its format does. -/
theorem printf_finish (stack : CharPtr) (fmt : CString) {args : List Arg} {segs : List (List (BitVec 8))}
    (h : segments [] (parse fmt.chars) args = some segs) : Returns (printf stack fmt.ptr args) (finish 0 [] segs) :=
  scan_returns stack (s := Scan.start fmt.ptr args) fmt.spells h

/-- `printf` passes on the text of its format and returns how long it is. When the text is longer than `INT_MAX`, it passes on the
pieces before the first that would make it so, and returns -1. -/
theorem printf_renders (stack : CharPtr) (fmt : CString) (args : List Arg) (h : Matches (parse fmt.chars) args) :
    ∃ text segs, render (parse fmt.chars) args = some text ∧ segments [] (parse fmt.chars) args = some segs ∧
      segs.flatten = text ∧ Returns (printf stack fmt.ptr args) (if text.length ≤ intMax then .returned text.length text
        else .returned (-1) (fitting intMax segs).flatten) := by
  obtain ⟨segs, hsegs, htext⟩ := h.segments
  refine ⟨segs.flatten, segs, htext, hsegs, rfl, ?_⟩
  have hfinish := finish_eq (Nat.zero_le intMax) [] segs
  rw [Nat.zero_add, List.nil_append, List.nil_append, Nat.sub_zero] at hfinish
  rw [← hfinish]
  exact printf_finish stack fmt hsegs

/-- `printf("%d%%", -7)` -/
theorem printf_renders_minus_seven :
    Returns (printf (fun _ => 0) (CString.ofChars [chr '%', chr 'd', chr '%', chr '%'] (by decide)).ptr [.word (-7)])
      (.returned 3 [chr '-', chr '7', chr '%']) := by
  have hparse : parse [chr '%', chr 'd', chr '%', chr '%'] = [.convert .d, .percent] := rfl
  have htext : signedDecimal (BitVec.toInt (-7 : BitVec 32)) = [chr '-', chr '7'] := by
    have hint : BitVec.toInt (-7 : BitVec 32) = -7 := by decide
    rw [hint]
    simp [signedDecimal, numeral, digitChar, chr]
  obtain ⟨text, segs, hrender, -, -, hreturns⟩ :=
    printf_renders (fun _ => 0) (CString.ofChars [chr '%', chr 'd', chr '%', chr '%'] (by decide)) [.word (-7)]
      ⟨rfl, trivial⟩
  have hchars : (CString.ofChars [chr '%', chr 'd', chr '%', chr '%'] (by decide)).chars = [chr '%', chr 'd', chr '%', chr '%'] :=
    rfl
  rw [hchars, hparse] at hrender
  simp only [render, Conversion.text, htext, Option.bind_some, Option.map_some, Option.some.injEq] at hrender
  subst hrender
  exact hreturns

end LumOS
