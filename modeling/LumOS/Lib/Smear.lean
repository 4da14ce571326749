import Mathlib.Algebra.Group.Int.Defs
import Mathlib.Algebra.Group.Nat.Defs
import Mathlib.Data.Nat.Size
import Mathlib.Tactic.Common

/-!
# Smearing the set bits downwards

`y ||| y >>> d` puts a copy of each set bit `d` places lower. Doubling `d` at every step fills everything below the top bit of a word
in logarithmically many steps: `Smeared d x y` is what holds after them, `Smeared.double` one step, and a word smeared over its whole
width is one less than a power of two (`Smeared.toNat_add_one`).
-/

section

variable {w d : Nat} {x y : BitVec w}

/-- The set bits of `y` are those of `x` and the `d - 1` places below each of them. -/
def Smeared (d : Nat) (x y : BitVec w) : Prop :=
  ∀ i, y.getLsbD i = true ↔ ∃ j < d, x.getLsbD (i + j) = true

theorem smeared_one (x : BitVec w) : Smeared 1 x x := by
  intro i
  constructor
  · intro h
    exact ⟨0, Nat.one_pos, h⟩
  · rintro ⟨j, hj, h⟩
    obtain rfl : j = 0 := Nat.lt_one_iff.mp hj
    exact h

theorem Smeared.double (h : Smeared d x y) : Smeared (d + d) x (y ||| y >>> d) := by
  intro i
  rw [BitVec.getLsbD_or, BitVec.getLsbD_ushiftRight, Bool.or_eq_true, h i, h (d + i)]
  constructor
  · rintro (⟨j, hj, hbit⟩ | ⟨j, hj, hbit⟩)
    · exact ⟨j, by omega, hbit⟩
    · refine ⟨d + j, by omega, ?_⟩
      rwa [show i + (d + j) = d + i + j by omega]
  · rintro ⟨j, hj, hbit⟩
    rcases Nat.lt_or_ge j d with hlt | hge
    · exact Or.inl ⟨j, hlt, hbit⟩
    · refine Or.inr ⟨j - d, by omega, ?_⟩
      rwa [show d + i + (j - d) = i + j by omega]

/-- Once `d` reaches the width, the set bits are those below the size of the number. -/
theorem Smeared.getLsbD_iff (h : Smeared d x y) (hd : w ≤ d) (i : Nat) : y.getLsbD i = true ↔ i < Nat.size x.toNat := by
  rw [h i, Nat.lt_size]
  constructor
  · rintro ⟨j, _, hbit⟩
    have hge := Nat.ge_two_pow_of_testBit hbit
    exact Nat.le_trans (Nat.pow_le_pow_right Nat.two_pos (Nat.le_add_right i j)) hge
  · intro hle
    obtain ⟨n, hn, hbit⟩ := Nat.exists_ge_and_testBit_of_ge_two_pow hle
    have hw : n < w := BitVec.lt_of_getLsbD hbit
    refine ⟨n - i, by omega, ?_⟩
    rwa [show i + (n - i) = n by omega]

theorem Smeared.toNat_add_one (h : Smeared d x y) (hd : w ≤ d) : y.toNat + 1 = 2 ^ Nat.size x.toNat := by
  have hones : y.toNat = 2 ^ Nat.size x.toNat - 1 := by
    apply Nat.eq_of_testBit_eq
    intro i
    rw [Nat.testBit_two_pow_sub_one, Bool.eq_iff_iff, decide_eq_true_iff]
    exact h.getLsbD_iff hd i
  have hpos : 0 < 2 ^ Nat.size x.toNat := Nat.two_pow_pos _
  omega

end
