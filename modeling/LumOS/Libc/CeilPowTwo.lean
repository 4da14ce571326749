import LumOS.Lib.Smear

/-!
# `ceilPowTwo`

`ceilPowTwo.c`: one less than the number, its set bits smeared downwards, and one more.
-/

namespace LumOS

/-- The five assignments `num |= num >> k` -/
def smear (num : BitVec 32) : BitVec 32 :=
  let num := num ||| num >>> 1
  let num := num ||| num >>> 2
  let num := num ||| num >>> 4
  let num := num ||| num >>> 8
  num ||| num >>> 16

/-- `ceilPowTwo` -/
def ceilPowTwo (num : BitVec 32) : BitVec 32 :=
  smear (num - 1) + 1

theorem smeared_smear (num : BitVec 32) : Smeared 32 num (smear num) :=
  (smeared_one num).double.double.double.double.double

theorem toNat_smear (num : BitVec 32) : (smear num).toNat + 1 = 2 ^ Nat.size num.toNat :=
  (smeared_smear num).toNat_add_one (Nat.le_refl 32)

/-- The size of the number before it, when that power of two is a number of 32 bits; 0 when it is 2^32. -/
theorem toNat_ceilPowTwo (num : BitVec 32) :
    (ceilPowTwo num).toNat = if Nat.size (num - 1).toNat < 32 then 2 ^ Nat.size (num - 1).toNat else 0 := by
  have hsmear := toNat_smear (num - 1)
  have hle : Nat.size (num - 1).toNat ≤ 32 := Nat.size_le.mpr (num - 1).isLt
  rw [ceilPowTwo, BitVec.toNat_add, show (1 : BitVec 32).toNat = 1 from rfl, hsmear]
  split
  · next hlt => exact Nat.mod_eq_of_lt (Nat.pow_lt_pow_right Nat.one_lt_two hlt)
  · next hge =>
    rw [show Nat.size (num - 1).toNat = 32 by omega]
    rfl

/-- A power of two reaches the number when its exponent reaches the size of the number before it. -/
theorem le_two_pow_iff {num : BitVec 32} (h : 1 ≤ num.toNat) (j : Nat) : num.toNat ≤ 2 ^ j ↔ Nat.size (num - 1).toNat ≤ j := by
  have hone : (1 : BitVec 32).toNat = 1 := rfl
  have hpred : (num - 1).toNat = num.toNat - 1 := by bv_omega
  rw [Nat.size_le, hpred]
  omega

/-- The least power of two that is at least the number, 0 where none has 32 bits. -/
theorem ceilPowTwo_least (num : BitVec 32) :
    (1 ≤ num.toNat → num.toNat ≤ 2 ^ 31 →
      ∃ k, (ceilPowTwo num).toNat = 2 ^ k ∧ num.toNat ≤ 2 ^ k ∧ ∀ j, num.toNat ≤ 2 ^ j → 2 ^ k ≤ 2 ^ j) ∧
    (num = 0 ∨ 2 ^ 31 < num.toNat → ceilPowTwo num = 0) := by
  constructor
  · intro hpos hle
    have hsize := (le_two_pow_iff hpos 31).mp hle
    refine ⟨Nat.size (num - 1).toNat, ?_, (le_two_pow_iff hpos _).mpr (Nat.le_refl _), ?_⟩
    · rw [toNat_ceilPowTwo, if_pos (by omega)]
    · intro j hj
      exact Nat.pow_le_pow_right Nat.two_pos ((le_two_pow_iff hpos j).mp hj)
  · rintro (rfl | hlarge)
    · rfl
    · apply BitVec.eq_of_toNat_eq
      have hsize := (le_two_pow_iff (by omega) 31).not.mp (Nat.not_le.mpr hlarge)
      rw [toNat_ceilPowTwo, if_neg (by omega)]
      rfl

example : ceilPowTwo 5 = 8 ∧ ceilPowTwo 8 = 8 ∧ ceilPowTwo 9 = 16 := by decide

end LumOS
