import Mathlib.Algebra.Group.Int.Defs
import Mathlib.Algebra.Group.Nat.Defs
import Mathlib.Tactic.Common

/-!
# Flags

A status word has a mask for each flag: `hasFlag s m` says that the flag with the mask `m` is set in `s`. What `|` and `& ~` do to a
flag is `hasFlag_or` and `hasFlag_and_not`, both by looking at the bits (`hasFlag_iff`). A flag of one bit is turned over by `^`
(`hasFlag_xor_twoPow`).
-/

section

variable {w : Nat}

/-- Some bit of the mask is set. -/
def hasFlag (s m : BitVec w) : Bool := s &&& m != 0

theorem hasFlag_iff {s m : BitVec w} : hasFlag s m = true ↔ ∃ i, s.getLsbD i = true ∧ m.getLsbD i = true := by
  rw [hasFlag, bne_iff_ne]
  constructor
  · intro h
    by_contra hno
    apply h
    apply BitVec.eq_of_getLsbD_eq
    intro i _
    have hzero : (0 : BitVec w).getLsbD i = false := BitVec.getLsbD_zero
    rw [BitVec.getLsbD_and, hzero, ← Bool.not_eq_true, Bool.and_eq_true]
    exact fun hbits => hno ⟨i, hbits⟩
  · rintro ⟨i, hs, hm⟩ h
    have hbit := congrArg (fun x => x.getLsbD i) h
    simp [hs, hm] at hbit

theorem hasFlag_zero (m : BitVec w) : hasFlag 0 m = false := by
  rw [← Bool.not_eq_true, hasFlag_iff]
  simp

theorem hasFlag_or (s m n : BitVec w) : hasFlag (s ||| m) n = (hasFlag s n || hasFlag m n) := by
  rw [Bool.eq_iff_iff, Bool.or_eq_true]
  simp only [hasFlag_iff, BitVec.getLsbD_or, Bool.or_eq_true]
  constructor
  · rintro ⟨i, hs | hm, hn⟩
    · exact Or.inl ⟨i, hs, hn⟩
    · exact Or.inr ⟨i, hm, hn⟩
  · rintro (⟨i, hs, hn⟩ | ⟨i, hm, hn⟩)
    · exact ⟨i, Or.inl hs, hn⟩
    · exact ⟨i, Or.inr hm, hn⟩

theorem getLsbD_of_not_hasFlag {m n : BitVec w} (h : hasFlag m n = false) {i : Nat} (hn : n.getLsbD i = true) :
    m.getLsbD i = false := by
  rw [← Bool.not_eq_true]
  intro hm
  rw [hasFlag_iff.mpr ⟨i, hm, hn⟩] at h
  cases h

/-- Clearing other bits keeps a flag. -/
theorem hasFlag_and_not {m n : BitVec w} (s : BitVec w) (h : hasFlag m n = false) : hasFlag (s &&& ~~~m) n = hasFlag s n := by
  rw [Bool.eq_iff_iff]
  simp only [hasFlag_iff, BitVec.getLsbD_and, BitVec.getLsbD_not, Bool.and_eq_true]
  constructor
  · rintro ⟨i, ⟨hs, _⟩, hn⟩
    exact ⟨i, hs, hn⟩
  · rintro ⟨i, hs, hn⟩
    have hm := getLsbD_of_not_hasFlag h hn
    refine ⟨i, ⟨hs, decide_eq_true (BitVec.lt_of_getLsbD hs), ?_⟩, hn⟩
    rw [hm, Bool.not_false]

theorem hasFlag_and_not_self (s m : BitVec w) : hasFlag (s &&& ~~~m) m = false := by
  rw [← Bool.not_eq_true, hasFlag_iff]
  rintro ⟨i, hs, hm⟩
  simp [hm] at hs

/-- Turning other bits over keeps a flag. -/
theorem hasFlag_xor {m n : BitVec w} (s : BitVec w) (h : hasFlag m n = false) : hasFlag (s ^^^ m) n = hasFlag s n := by
  rw [Bool.eq_iff_iff]
  simp only [hasFlag_iff, BitVec.getLsbD_xor]
  constructor
  · rintro ⟨i, hs, hn⟩
    rw [getLsbD_of_not_hasFlag h hn, Bool.xor_false] at hs
    exact ⟨i, hs, hn⟩
  · rintro ⟨i, hs, hn⟩
    exact ⟨i, by rw [getLsbD_of_not_hasFlag h hn, Bool.xor_false]; exact hs, hn⟩

/-- A flag of one bit is that bit. -/
theorem hasFlag_twoPow (s : BitVec w) (i : Nat) : hasFlag s (BitVec.twoPow w i) = s.getLsbD i := by
  rw [Bool.eq_iff_iff, hasFlag_iff]
  constructor
  · rintro ⟨j, hs, hj⟩
    rw [BitVec.getLsbD_twoPow, Bool.and_eq_true, decide_eq_true_eq, decide_eq_true_eq] at hj
    rw [hj.2]
    exact hs
  · intro hs
    have hi := BitVec.lt_of_getLsbD hs
    refine ⟨i, hs, ?_⟩
    rw [BitVec.getLsbD_twoPow, decide_eq_true hi, decide_eq_true rfl, Bool.and_self]

/-- Turning over the bit of a flag turns over the flag. -/
theorem hasFlag_xor_twoPow (s : BitVec w) {i : Nat} (hi : i < w) :
    hasFlag (s ^^^ BitVec.twoPow w i) (BitVec.twoPow w i) = !hasFlag s (BitVec.twoPow w i) := by
  have hbit : (BitVec.twoPow w i).getLsbD i = true := by
    rw [BitVec.getLsbD_twoPow, decide_eq_true hi, decide_eq_true rfl, Bool.and_self]
  rw [hasFlag_twoPow, hasFlag_twoPow, BitVec.getLsbD_xor, hbit, Bool.xor_true]

end
