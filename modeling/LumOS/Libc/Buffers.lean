import LumOS.Libc.Logf
import Mathlib.Data.Nat.Digits.Lemmas

/-!
# The arrays of the conversions

`printf` and `logf` give `itoa` an array of 12 characters. A numeral is as long as its number has digits, so the powers of the radix
bound it (`length_numeral_le`): a numeral of 32 bits in radix 8 has up to 11 digits, and a signed one in radix 10 has up to 10 and a
sign. With the NUL that fills the array.
-/

namespace LumOS

open Comp

/-- The radix in which a conversion of a number has `itoa` write it. -/
def Conversion.radix : Conversion → Option (BitVec 32)
  | .c => none
  | .s => none
  | .d => some 10
  | .x => some 16
  | .o => some 8

/-- The numeral of a number below a power of the radix. -/
theorem length_numeral_le {radix n k : Nat} (h2 : 2 ≤ radix) (hk : 1 ≤ k) (hn : n < radix ^ k) : (numeral radix n).length ≤ k := by
  unfold numeral
  split
  · exact hk
  · rw [List.length_reverse, List.length_map]
    exact (Nat.digits_length_le_iff h2 n).mpr hn

/-- What `itoa` writes for a conversion, without the NUL. -/
theorem length_itoaText_le {conv : Conversion} {radix : BitVec 32} (hradix : conv.radix = some radix) (num : BitVec 32) :
    (itoaText radix.toNat num).length ≤ 11 := by
  have hnum := num.isLt
  cases conv with
  | c => cases hradix
  | s => cases hradix
  | d =>
    cases hradix
    show (itoaText 10 num).length ≤ 11
    have habs : num.toInt.natAbs < 10 ^ 10 := by
      rw [BitVec.toInt_eq_toNat_cond]
      split <;> omega
    rw [itoaText_ten, signedDecimal]
    split
    · rw [List.length_cons]
      exact Nat.succ_le_succ (length_numeral_le (by decide) (by decide) habs)
    · exact Nat.le_succ_of_le (length_numeral_le (by decide) (by decide) habs)
  | x =>
    cases hradix
    show (itoaText 16 num).length ≤ 11
    rw [itoaText_ne_ten (by decide)]
    exact length_numeral_le (by decide) (by decide) (by omega)
  | o =>
    cases hradix
    show (itoaText 8 num).length ≤ 11
    rw [itoaText_ne_ten (by decide)]
    exact length_numeral_le (by decide) (by decide) (by omega)

theorem length_signedDecimal_le (w : BitVec 32) : (signedDecimal w.toInt).length ≤ 11 := by
  rw [← itoaText_ten]
  exact length_itoaText_le (show Conversion.d.radix = some 10 from rfl) w

theorem length_hexadecimal_le (w : BitVec 32) : (numeral 16 w.toNat).length ≤ 8 :=
  length_numeral_le (by decide) (by decide) w.isLt

/-- `itoa` returns, and writes no more than 12 characters of the array. -/
theorem itoa_fits {conv : Conversion} {radix : BitVec 32} (hradix : conv.radix = some radix) (num : BitVec 32) (stack : CharPtr) :
    Ensures (itoa num { chars := stack, writes := [] } radix) (fun str => ∀ i ∈ str.writes, i ≤ 11) := by
  have hbound : 2 ≤ radix.toNat ∧ radix.toNat ≤ 36 := by
    cases conv <;> cases hradix <;> decide
  refine (itoa_spec num { chars := stack, writes := [] } hbound.1 hbound.2).imp ?_
  rintro str ⟨-, hwrites⟩ i hi
  rcases hwrites i hi with hstart | hle
  · cases hstart
  · exact hle.trans (length_itoaText_le hradix num)

/-- What a formatter does with a number: `segment` is how its branches end. -/
def convertNumber (segment : Scan → CharPtr → Nat → Nat → Flow) (stack : CharPtr) (s : Scan) (num radix : BitVec 32) : Comp Flow := do
  let str ← itoa num { chars := stack, writes := [] } radix
  let len ← strlen str.chars
  pure (segment s str.chars len 1)

/-- A turn of `printf` that finds a conversion of a number. -/
theorem printfTurn_number (stack : CharPtr) {s : Scan} {conv : Conversion} {radix num : BitVec 32} {params : List Arg}
    (hradix : conv.radix = some radix) (h0 : s.formatStr 0 = chr '%') (h1 : s.formatStr 1 = conv.char)
    (hparams : s.params = .word num :: params) :
    printfTurn stack s = convertNumber printSegment stack { s.skip 1 with params := params } num radix := by
  have hturn : ¬(s.formatStr 0 ≠ chr '%' ∨ s.formatStr 1 = chr '%') := by
    rw [h0, h1]
    cases conv <;> decide
  have hskip : (s.skip 1).formatStr 0 = conv.char := h1
  have hva : (s.skip 1).params = .word num :: params := hparams
  rw [printfTurn, if_neg hturn]
  simp only [hskip, hva]
  cases conv <;> cases hradix <;> rfl

/-- Whenever `printf` or `logf` comes to a `%d`, a `%x` or an `%o` with its argument, it has `itoa` write that in the array: both
loops of `itoa` end, and no index is above 11. -/
theorem convert_fits (stack : CharPtr) {s : Scan} {conv : Conversion} {radix num : BitVec 32} {params : List Arg}
    (hradix : conv.radix = some radix) (h0 : s.formatStr 0 = chr '%') (h1 : s.formatStr 1 = conv.char)
    (hparams : s.params = .word num :: params) :
    printfTurn stack s = convertNumber printSegment stack { s.skip 1 with params := params } num radix ∧
    logfTurn stack s = convertNumber logSegment stack { s.skip 1 with params := params } num radix ∧
    Ensures (itoa num { chars := stack, writes := [] } radix) (fun str => ∀ i ∈ str.writes, i ≤ 11) := by
  have hturn := printfTurn_number stack hradix h0 h1 hparams
  refine ⟨hturn, ?_, itoa_fits hradix num stack⟩
  have hsegment : logSegment = printSegment := by
    funext s data len n
    exact logSegment_eq s data len n
  rw [logfTurn_eq, hturn, hsegment]

/-- `"%o"` with its longest numeral. -/
theorem convert_fits_octal :
    Ensures (itoa 0xFFFFFFFF { chars := fun _ => 0, writes := [] } 8) (fun str => ∀ i ∈ str.writes, i ≤ 11) :=
  (@convert_fits (fun _ => 0) (Scan.start (fun i => [chr '%', chr 'o', 0].getD i 0) [.word 0xFFFFFFFF]) .o 8 0xFFFFFFFF [] rfl
    rfl rfl rfl).2.2

example : (itoaText 8 0xFFFFFFFF).length = 11 ∧ (itoaText 10 0x80000000).length = 11 := by decide

end LumOS
