import LumOS.Libc.Itoa
import Mathlib.Data.Nat.Digits.Lemmas

/-!
# Reading a numeral back

What `itoa` writes, read as a reader of numerals reads it: `digitOf` and `readDigits` are that reader, and `Canonical` says of a text
that it is the one way to write a number. The reader knows nothing about how the text was made.
-/

namespace LumOS

open Comp

/-- The digit that a character stands for: 0-9, and A-Z from ten on. -/
def digitOf (c : BitVec 8) : Option Nat :=
  if chr '0' ≤ c ∧ c ≤ chr '9' then some (c.toNat - (chr '0').toNat)
  else if chr 'A' ≤ c ∧ c ≤ chr 'Z' then some (c.toNat - (chr 'A').toNat + 10)
  else none

/-- The number that characters are read as, the most significant digit first, after the digits of `n`. -/
def readDigits (radix : Nat) : Nat → List (BitVec 8) → Option Nat
  | n, [] => some n
  | n, c :: s => (digitOf c).bind (fun d => readDigits radix (n * radix + d) s)

/-- A text without its sign. -/
def unsigned (s : List (BitVec 8)) : List (BitVec 8) := if s.head? = some (chr '-') then s.tail else s

/-- The number that `itoa` is asked to write: a signed one in radix ten, an unsigned one in any other. -/
def itoaValue (radix : Nat) (num : BitVec 32) : Int := if radix = 10 then num.toInt else num.toNat

/-- The text is how a number is written in a radix: it reads as the number, with a sign exactly for a negative one, every digit is
below the radix, and the first one is a zero for no other number than zero. -/
structure Canonical (radix : Nat) (value : Int) (s : List (BitVec 8)) : Prop where
  reads : readDigits radix 0 (unsigned s) = some value.natAbs
  sign : s.head? = some (chr '-') ↔ value < 0
  nonempty : unsigned s ≠ []
  digits : ∀ c ∈ unsigned s, ∃ d, digitOf c = some d ∧ d < radix
  leading : (unsigned s).head? = some (chr '0') → value = 0 ∧ s = [chr '0']

/-! ## The characters of digits -/

theorem digitOf_digitChar : ∀ d < 36, digitOf (digitChar d) = some d := by
  decide

theorem digitChar_ne_minus : ∀ d < 36, digitChar d ≠ chr '-' := by
  decide

theorem digitChar_eq_zero : ∀ d < 36, digitChar d = chr '0' → d = 0 := by
  decide

/-- Digits, read back. -/
theorem readDigits_map (radix : Nat) {ds : List Nat} (h : ∀ d ∈ ds, d < 36) (n : Nat) :
    readDigits radix n (ds.map digitChar) = some (ds.foldl (fun n d => n * radix + d) n) := by
  induction ds generalizing n with
  | nil => rfl
  | cons d ds ih =>
    obtain ⟨hd, hds⟩ := List.forall_mem_cons.mp h
    rw [List.map_cons, readDigits, digitOf_digitChar d hd, Option.bind_some, ih hds, List.foldl_cons]

/-! ## Numerals -/

section

variable {radix n : Nat}

/-- The digits of a numeral, the most significant one first. -/
def digitsDown (radix n : Nat) : List Nat := if n = 0 then [0] else (Nat.digits radix n).reverse

theorem numeral_eq_map (radix n : Nat) : numeral radix n = (digitsDown radix n).map digitChar := by
  unfold numeral digitsDown
  split
  · rfl
  · rw [List.map_reverse]

theorem digitsDown_lt (h2 : 2 ≤ radix) : ∀ d ∈ digitsDown radix n, d < radix := by
  intro d hd
  unfold digitsDown at hd
  split at hd
  · rw [List.mem_singleton.mp hd]
    omega
  · exact Nat.digits_lt_base h2 (List.mem_reverse.mp hd)

/-- The digits make up the number. -/
theorem foldl_digitsDown (radix n : Nat) : (digitsDown radix n).foldl (fun n d => n * radix + d) 0 = n := by
  unfold digitsDown
  split
  · rename_i hn
    simp [hn]
  · rw [List.foldl_reverse]
    have hfold := Nat.ofDigits_digits radix n
    rw [Nat.ofDigits_eq_foldr] at hfold
    refine Eq.trans ?_ hfold
    congr 1
    funext d m
    rw [Nat.cast_id, Nat.add_comm, Nat.mul_comm]

/-- The first digit is a zero for zero only. -/
theorem digitsDown_head (h : (digitsDown radix n).head? = some 0) : n = 0 := by
  unfold digitsDown at h
  split at h
  · assumption
  · rename_i hn
    rw [List.head?_reverse, List.getLast?_eq_some_getLast (Nat.digits_ne_nil_iff_ne_zero.mpr hn)] at h
    exact absurd (Option.some.inj h) (Nat.getLast_digit_ne_zero radix hn)

theorem digitsDown_ne_nil (radix n : Nat) : digitsDown radix n ≠ [] := by
  unfold digitsDown
  split
  · exact List.cons_ne_nil _ _
  · rename_i hn
    exact mt List.reverse_eq_nil_iff.mp (Nat.digits_ne_nil_iff_ne_zero.mpr hn)

theorem numeral_ne_nil (radix n : Nat) : numeral radix n ≠ [] := by
  rw [numeral_eq_map]
  exact mt List.map_eq_nil_iff.mp (digitsDown_ne_nil radix n)

theorem readDigits_numeral (h2 : 2 ≤ radix) (h36 : radix ≤ 36) : readDigits radix 0 (numeral radix n) = some n := by
  rw [numeral_eq_map, readDigits_map radix, foldl_digitsDown]
  intro d hd
  exact Nat.lt_of_lt_of_le (digitsDown_lt h2 d hd) h36

theorem digits_numeral (h2 : 2 ≤ radix) (h36 : radix ≤ 36) : ∀ c ∈ numeral radix n, ∃ d, digitOf c = some d ∧ d < radix := by
  intro c hc
  rw [numeral_eq_map] at hc
  obtain ⟨d, hd, rfl⟩ := List.mem_map.mp hc
  have hlt := digitsDown_lt h2 d hd
  exact ⟨d, digitOf_digitChar d (Nat.lt_of_lt_of_le hlt h36), hlt⟩

/-- The first character of a numeral is that of its first digit. -/
theorem head_numeral (h2 : 2 ≤ radix) (h36 : radix ≤ 36) {c : BitVec 8} (hc : (numeral radix n).head? = some c) :
    ∃ d < 36, (digitsDown radix n).head? = some d ∧ c = digitChar d := by
  rw [numeral_eq_map, List.head?_map] at hc
  obtain ⟨d, hd, rfl⟩ := Option.map_eq_some_iff.mp hc
  exact ⟨d, Nat.lt_of_lt_of_le (digitsDown_lt h2 d (List.mem_of_head? hd)) h36, hd, rfl⟩

theorem head_numeral_ne_minus (h2 : 2 ≤ radix) (h36 : radix ≤ 36) : (numeral radix n).head? ≠ some (chr '-') := by
  intro h
  obtain ⟨d, hd, _, hc⟩ := head_numeral h2 h36 h
  exact digitChar_ne_minus d hd hc.symm

theorem head_numeral_zero (h2 : 2 ≤ radix) (h36 : radix ≤ 36) (h : (numeral radix n).head? = some (chr '0')) : n = 0 := by
  obtain ⟨d, hd, hhead, hc⟩ := head_numeral h2 h36 h
  rw [digitChar_eq_zero d hd hc.symm] at hhead
  exact digitsDown_head hhead

/-- A numeral without a sign. -/
theorem canonical_numeral (h2 : 2 ≤ radix) (h36 : radix ≤ 36) {value : Int} (hvalue : value = n) :
    Canonical radix value (numeral radix n) := by
  have hunsigned : unsigned (numeral radix n) = numeral radix n := if_neg (head_numeral_ne_minus h2 h36)
  subst hvalue
  refine ⟨?_, ?_, ?_, ?_, ?_⟩
  · rw [hunsigned, readDigits_numeral h2 h36, Int.natAbs_natCast]
  · exact iff_of_false (head_numeral_ne_minus h2 h36) (by omega)
  · rw [hunsigned]
    exact numeral_ne_nil radix n
  · rw [hunsigned]
    exact digits_numeral h2 h36
  · rw [hunsigned]
    intro h
    rw [head_numeral_zero h2 h36 h]
    exact ⟨rfl, rfl⟩

/-- A numeral with a sign before it. -/
theorem canonical_minus (h2 : 2 ≤ radix) (h36 : radix ≤ 36) {value : Int} (hneg : value < 0) (hvalue : value.natAbs = n) :
    Canonical radix value (chr '-' :: numeral radix n) := by
  have hunsigned : unsigned (chr '-' :: numeral radix n) = numeral radix n := if_pos rfl
  refine ⟨?_, ?_, ?_, ?_, ?_⟩
  · rw [hunsigned, readDigits_numeral h2 h36, hvalue]
  · exact iff_of_true rfl hneg
  · rw [hunsigned]
    exact numeral_ne_nil radix n
  · rw [hunsigned]
    exact digits_numeral h2 h36
  · rw [hunsigned]
    intro h
    have hzero := head_numeral_zero h2 h36 h
    omega

end

theorem canonical_itoaText (num : BitVec 32) {radix : Nat} (h2 : 2 ≤ radix) (h36 : radix ≤ 36) :
    Canonical radix (itoaValue radix num) (itoaText radix num) := by
  unfold itoaText
  split
  · rename_i h
    rw [itoaValue, if_pos h.1]
    exact canonical_minus h2 h36 h.2 rfl
  · rename_i h
    refine canonical_numeral h2 h36 ?_
    unfold itoaValue
    split
    · rename_i hradix
      have hnonneg : 0 ≤ num.toInt := Int.not_lt.mp (fun hneg => h ⟨hradix, hneg⟩)
      rw [BitVec.toInt_eq_toNat_cond] at hnonneg ⊢
      split at hnonneg
      · rename_i hsmall
        exact if_pos hsmall
      · omega
    · rfl

/-- `itoa` returns, in every radix from 2 to 36, with a text and a NUL after it in the array, written no further than the NUL, and the
text is how the number is written. -/
theorem itoa_canonical (num : BitVec 32) (buf : CharBuf) {radix : BitVec 32} (h2 : 2 ≤ radix.toNat) (h36 : radix.toNat ≤ 36) :
    Ensures (itoa num buf radix) (fun b => ∃ s, Spells b.chars s ∧ Canonical radix.toNat (itoaValue radix.toNat num) s ∧
      ∀ k ∈ b.writes, k ∈ buf.writes ∨ k ≤ s.length) := by
  refine (itoa_spec num buf h2 h36).imp ?_
  rintro b ⟨hspells, hwrites⟩
  exact ⟨_, hspells, canonical_itoaText num h2 h36, hwrites⟩

/-- The lowest number in radix ten. -/
theorem itoa_canonical_lowest : Ensures (itoa 0x80000000 { chars := fun _ => 0, writes := [] } 10) (fun b =>
    ∃ s, Spells b.chars s ∧ Canonical 10 (-2147483648) s ∧ ∀ k ∈ b.writes, k ∈ [] ∨ k ≤ s.length) :=
  itoa_canonical 0x80000000 { chars := fun _ => 0, writes := [] } (by decide) (by decide)

end LumOS
