import LumOS.Libc.Itoa

/-!
# Formats

What a format and its arguments stand for, without a program. `parse` reads a format a character at a time. `render` gives the text
that it stands for, and `segments` gives the same text in the pieces that are passed on as one (`map_flatten_segments`), which are a
run of ordinary characters up to the next `'%'` (a `"%%"` begins a run at its second `'%'`), what a conversion stands for, and the
rest of the format after any other `'%'`.
-/

namespace LumOS

/-- A conversion. -/
inductive Conversion where
  | c | s | d | x | o
  deriving DecidableEq, Repr

/-- The conversion that a character after `'%'` asks for. -/
def Conversion.ofChar (k : BitVec 8) : Option Conversion :=
  if k = chr 'c' then some .c
  else if k = chr 's' then some .s
  else if k = chr 'd' then some .d
  else if k = chr 'x' then some .x
  else if k = chr 'o' then some .o
  else none

/-- The character that asks for a conversion. -/
def Conversion.char : Conversion → BitVec 8
  | .c => chr 'c'
  | .s => chr 's'
  | .d => chr 'd'
  | .x => chr 'x'
  | .o => chr 'o'

/-- The decimal numeral of a signed number. -/
def signedDecimal (n : Int) : List (BitVec 8) :=
  if n < 0 then chr '-' :: numeral 10 n.natAbs else numeral 10 n.natAbs

/-- What a conversion of an argument stands for: nothing, when the argument is not of its type. -/
def Conversion.text : Conversion → Arg → Option (List (BitVec 8))
  | .c, .word w => some [w.setWidth 8]
  | .s, .str str => some str.chars
  | .d, .word w => some (signedDecimal w.toInt)
  | .x, .word w => some (numeral 16 w.toNat)
  | .o, .word w => some (numeral 8 w.toNat)
  | _, _ => none

/-- What a format consists of. -/
inductive Directive where
  | ordinary (c : BitVec 8)
  | percent
  | convert (conv : Conversion)
  | stray (rest : List (BitVec 8))

/-- Read a format: the first `'%'` that begins neither a conversion nor a `"%%"` is dropped, and what comes after it is not read. -/
def parse : List (BitVec 8) → List Directive
  | [] => []
  | c :: fmt =>
    if c ≠ chr '%' then .ordinary c :: parse fmt
    else match fmt with
      | [] => [.stray []]
      | k :: rest =>
        if k = chr '%' then .percent :: parse rest
        else match Conversion.ofChar k with
          | none => [.stray (k :: rest)]
          | some conv => .convert conv :: parse rest

/-- The arguments match the directives: each conversion has its own, of its type. Further arguments do no harm. -/
def Matches : List Directive → List Arg → Prop
  | [], _ => True
  | .convert _ :: _, [] => False
  | .convert conv :: ds, arg :: args => (conv.text arg).isSome ∧ Matches ds args
  | .ordinary _ :: ds, args => Matches ds args
  | .percent :: ds, args => Matches ds args
  | .stray _ :: _, _ => True

/-- The text that directives and arguments stand for: nothing, when an argument is missing or of another type. -/
def render : List Directive → List Arg → Option (List (BitVec 8))
  | [], _ => some []
  | .ordinary c :: ds, args => (render ds args).map (c :: ·)
  | .percent :: ds, args => (render ds args).map (chr '%' :: ·)
  | .convert _ :: _, [] => none
  | .convert conv :: ds, arg :: args => (conv.text arg).bind (fun text => (render ds args).map (text ++ ·))
  | .stray rest :: _, _ => some rest

/-- The pieces, when the characters `run` are still waiting for the rest of their run. -/
def flush (run : List (BitVec 8)) (segs : List (List (BitVec 8))) : List (List (BitVec 8)) :=
  if run = [] then segs else run :: segs

/-- The pieces that are passed on as one, when the characters `run` have begun a run. -/
def segments (run : List (BitVec 8)) : List Directive → List Arg → Option (List (List (BitVec 8)))
  | [], _ => some (flush run [])
  | .ordinary c :: ds, args => segments (run ++ [c]) ds args
  | .percent :: ds, args => (segments [chr '%'] ds args).map (flush run)
  | .convert _ :: _, [] => none
  | .convert conv :: ds, arg :: args =>
    (conv.text arg).bind (fun text => (segments [] ds args).map (fun segs => flush run (text :: segs)))
  | .stray rest :: _, _ => some (flush run [rest])

/-- The pieces before the first one that there is no room for. -/
def fitting : Nat → List (List (BitVec 8)) → List (List (BitVec 8))
  | _, [] => []
  | room, seg :: segs => if seg.length ≤ room then seg :: fitting (room - seg.length) segs else []

/-! ## The pieces make up the text -/

/-- Arguments that match give a text. -/
theorem Matches.render {ds : List Directive} {args : List Arg} (h : Matches ds args) : ∃ text, render ds args = some text := by
  induction ds, args using Matches.induct with
  | case1 => exact ⟨[], rfl⟩
  | case2 => exact h.elim
  | case3 conv ds arg args ih =>
    obtain ⟨t, ht⟩ := Option.isSome_iff_exists.mp h.1
    obtain ⟨text, htext⟩ := ih h.2
    exact ⟨t ++ text, by simp [LumOS.render, ht, htext]⟩
  | case4 c ds args ih =>
    obtain ⟨text, htext⟩ := ih h
    exact ⟨c :: text, by simp [LumOS.render, htext]⟩
  | case5 ds args ih =>
    obtain ⟨text, htext⟩ := ih h
    exact ⟨chr '%' :: text, by simp [LumOS.render, htext]⟩
  | case6 rest => exact ⟨rest, rfl⟩

theorem flatten_flush (run : List (BitVec 8)) (segs : List (List (BitVec 8))) :
    (flush run segs).flatten = run ++ segs.flatten := by
  unfold flush
  split
  · rename_i h
    rw [h, List.nil_append]
  · rfl

/-- The pieces, put together, are the run and then the text. -/
theorem map_flatten_segments (run : List (BitVec 8)) (ds : List Directive) (args : List Arg) :
    (segments run ds args).map List.flatten = (render ds args).map (run ++ ·) := by
  induction run, ds, args using segments.induct with
  | case1 run args => simp [segments, render, flatten_flush]
  | case2 run c ds args ih => simp [segments, render, ih, Function.comp_def]
  | case3 run ds args ih =>
    have hflush : List.flatten ∘ flush run = (run ++ ·) ∘ List.flatten := by
      funext segs
      exact flatten_flush run segs
    rw [segments, render, Option.map_map, hflush, ← Option.map_map, ih, Option.map_map, Option.map_map]
    rfl
  | case4 run conv ds => simp [segments, render]
  | case5 run conv ds arg args ih =>
    cases ht : conv.text arg with
    | none => simp [segments, render, ht]
    | some text =>
      have hflush : List.flatten ∘ (fun segs => flush run (text :: segs)) = (fun rest => run ++ (text ++ rest)) ∘ List.flatten := by
        funext segs
        simp [flatten_flush]
      simp only [segments, render, ht, Option.bind_some, Option.map_map]
      rw [hflush, ← Option.map_map, ih, Option.map_map]
      rfl
  | case6 run rest => simp [segments, render, flatten_flush]

/-- Arguments that match give pieces, which make up the text. -/
theorem Matches.segments {ds : List Directive} {args : List Arg} (h : Matches ds args) :
    ∃ segs, segments [] ds args = some segs ∧ LumOS.render ds args = some segs.flatten := by
  obtain ⟨text, htext⟩ := h.render
  have hsplit := map_flatten_segments [] ds args
  rw [htext] at hsplit
  obtain ⟨segs, hsegs, hflat⟩ := Option.map_eq_some_iff.mp hsplit
  exact ⟨segs, hsegs, htext.trans (congrArg some hflat.symm)⟩

/-! ## Reading a format -/

theorem Conversion.eq_char {k : BitVec 8} {conv : Conversion} (h : Conversion.ofChar k = some conv) : k = conv.char := by
  unfold Conversion.ofChar at h
  split_ifs at h with hc hs hd hx ho
  all_goals cases h
  exacts [hc, hs, hd, hx, ho]

theorem Conversion.ofChar_char (conv : Conversion) : Conversion.ofChar conv.char = some conv := by
  cases conv <;> rfl

theorem parse_ordinary {c : BitVec 8} (hc : c ≠ chr '%') (fmt : List (BitVec 8)) : parse (c :: fmt) = .ordinary c :: parse fmt := by
  rw [parse.eq_def]
  simp only [if_pos hc]

theorem parse_percent (fmt : List (BitVec 8)) : parse (chr '%' :: chr '%' :: fmt) = .percent :: parse fmt := by
  rw [parse.eq_def]
  simp

theorem parse_lone : parse [chr '%'] = [.stray []] := by
  rw [parse.eq_def]
  simp

theorem parse_convert {k : BitVec 8} {conv : Conversion} (hk : Conversion.ofChar k = some conv) (fmt : List (BitVec 8)) :
    parse (chr '%' :: k :: fmt) = .convert conv :: parse fmt := by
  have hne : k ≠ chr '%' := by
    rintro rfl
    cases hk
  rw [parse.eq_def]
  simp [hne, hk]

theorem parse_stray {k : BitVec 8} (hne : k ≠ chr '%') (hk : Conversion.ofChar k = none) (fmt : List (BitVec 8)) :
    parse (chr '%' :: k :: fmt) = [.stray (k :: fmt)] := by
  rw [parse.eq_def]
  simp [hne, hk]

/-- A run ends where a `'%'` stands. -/
theorem segments_percent (run fmt : List (BitVec 8)) (args : List Arg) :
    segments run (parse (chr '%' :: fmt)) args = (segments [] (parse (chr '%' :: fmt)) args).map (flush run) := by
  cases fmt with
  | nil => simp [parse_lone, segments, flush]
  | cons k fmt =>
    by_cases hne : k = chr '%'
    · have hflush : flush run ∘ flush [] = flush run := rfl
      rw [hne, parse_percent, segments, segments, Option.map_map, hflush]
    · cases hk : Conversion.ofChar k with
      | none => simp [parse_stray hne hk, segments, flush]
      | some conv =>
        rw [parse_convert hk]
        cases args with
        | nil => rfl
        | cons arg args =>
          cases ht : conv.text arg with
          | none => simp [segments, ht]
          | some text =>
            have hflush : flush run ∘ (fun segs => flush [] (text :: segs)) = (fun segs => flush run (text :: segs)) := rfl
            simp only [segments, ht, Option.bind_some, Option.map_map]
            rw [hflush]

/-- A run goes up to the next `'%'`, or to the end of the format. -/
theorem segments_run {run : List (BitVec 8)} (hrun : run ≠ []) (fmt : List (BitVec 8)) (args : List Arg) :
    segments run (parse fmt) args =
      (segments [] (parse (fmt.dropWhile (· != chr '%'))) args).map ((run ++ fmt.takeWhile (· != chr '%')) :: ·) := by
  induction fmt generalizing run with
  | nil => simp [parse, segments, flush, hrun]
  | cons c fmt ih =>
    by_cases hc : c = chr '%'
    · have hflush : flush run = (run :: ·) := by
        funext segs
        rw [flush, if_neg hrun]
      rw [List.takeWhile_cons_of_neg (by simp [hc]), List.dropWhile_cons_of_neg (by simp [hc]), List.append_nil, hc,
        segments_percent, hflush]
    · rw [List.takeWhile_cons_of_pos (by simp [hc]), List.dropWhile_cons_of_pos (by simp [hc]), parse_ordinary hc, segments,
        ih (by simp), List.append_assoc, List.singleton_append]

end LumOS
