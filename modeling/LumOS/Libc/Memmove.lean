import LumOS.Lib.Bytes

/-!
# `memmove`

`memmove.c`. A `size_t` has 32 bits, and so has a pointer; pointers compare as addresses. Each of the two loops keeps a copy under
way, from the first byte on or from the last one on.
-/

namespace LumOS

open Comp Bytes

/-- The variables of `memmove` that change. -/
structure Memmove where
  mem : Bytes 32
  i : BitVec 32

/-- A turn of the loop for `dest < src`: `dest_ptr[i] = src_ptr[i]`, and `i++` -/
def memmoveUp (dest src : BitVec 32) (s : Memmove) : Memmove where
  mem := s.mem.store (dest + s.i) (s.mem.load (src + s.i))
  i := s.i + 1

/-- A turn of the other loop: `dest_ptr[i - 1] = src_ptr[i - 1]`, and `i--` -/
def memmoveDown (dest src : BitVec 32) (s : Memmove) : Memmove where
  mem := s.mem.store (dest + (s.i - 1)) (s.mem.load (src + (s.i - 1)))
  i := s.i - 1

/-- `memmove`: the memory it leaves, and what it returns. -/
def memmove (m : Bytes 32) (dest src size : BitVec 32) : Comp (Bytes 32 × BitVec 32) := do
  let s ←
    if dest < src then loop (fun s : Memmove => s.i < size) (fun s => pure (memmoveUp dest src s)) { mem := m, i := 0 }
    else loop (fun s : Memmove => 0 < s.i) (fun s => pure (memmoveDown dest src s)) { mem := m, i := size }
  return (s.mem, dest)

variable {m : Bytes 32} {dest src size : BitVec 32}

/-- Upwards, the bytes below `i` have been copied. -/
def CopiedUp (m : Bytes 32) (dest src size : BitVec 32) (s : Memmove) : Prop :=
  s.i.toNat ≤ size.toNat ∧ s.mem = m.copied dest src 0 s.i.toNat

/-- Downwards, the bytes from `i` on have been copied. -/
def CopiedDown (m : Bytes 32) (dest src size : BitVec 32) (s : Memmove) : Prop :=
  s.i.toNat ≤ size.toNat ∧ s.mem = m.copied dest src s.i.toNat size.toNat

theorem copiedUp_turn (hsrc : src.toNat + size.toNat ≤ 2 ^ 32) (hlt : dest < src) {s : Memmove} (hs : CopiedUp m dest src size s)
    (hi : s.i.toNat < size.toNat) :
    CopiedUp m dest src size (memmoveUp dest src s) ∧ (memmoveUp dest src s).i.toNat = s.i.toNat + 1 := by
  have hsize := size.isLt
  have hnext : (s.i + 1).toNat = s.i.toNat + 1 := by
    have hone : (1 : BitVec 32).toNat = 1 := rfl
    rw [BitVec.toNat_add]
    omega
  refine ⟨⟨?_, ?_⟩, hnext⟩
  · show (s.i + 1).toNat ≤ size.toNat
    omega
  · show s.mem.store (dest + s.i) (s.mem.load (src + s.i)) = m.copied dest src 0 (s.i + 1).toNat
    rw [hs.2, copied_forward hsrc hlt hi, copied_store_last (Nat.zero_le _), hnext]

theorem copiedDown_turn (hdest : dest.toNat + size.toNat ≤ 2 ^ 32) (hsrc : src.toNat + size.toNat ≤ 2 ^ 32) (hle : ¬dest < src)
    {s : Memmove} (hs : CopiedDown m dest src size s) (hi : 0 < s.i.toNat) :
    CopiedDown m dest src size (memmoveDown dest src s) ∧ (memmoveDown dest src s).i.toNat + 1 = s.i.toNat := by
  have hprev : (s.i - 1).toNat + 1 = s.i.toNat := by
    have hone : (1 : BitVec 32).toNat = 1 := rfl
    rw [BitVec.toNat_sub_of_le (BitVec.le_def.mpr (by omega))]
    omega
  have hlt : (s.i - 1).toNat < size.toNat := by
    have := hs.1
    omega
  refine ⟨⟨Nat.le_of_lt hlt, ?_⟩, hprev⟩
  show s.mem.store (dest + (s.i - 1)) (s.mem.load (src + (s.i - 1))) = m.copied dest src (s.i - 1).toNat size.toNat
  rw [hs.2, ← hprev, copied_backward hdest hsrc hle hlt, copied_store_first hlt]

theorem memmoveUp_loop (hsrc : src.toNat + size.toNat ≤ 2 ^ 32) (hlt : dest < src) :
    Ensures (loop (fun s : Memmove => s.i < size) (fun s => pure (memmoveUp dest src s)) { mem := m, i := 0 })
      (fun s => s.mem = m.copied dest src 0 size.toNat) := by
  have hbody : ∀ s, CopiedUp m dest src size s → decide (s.i < size) = true → Ensures (pure (memmoveUp dest src s))
      (fun t => CopiedUp m dest src size t ∧ size.toNat - t.i.toNat < size.toNat - s.i.toNat) := by
    intro s hs hi
    rw [decide_eq_true_eq, BitVec.lt_def] at hi
    obtain ⟨hnext, hcount⟩ := copiedUp_turn hsrc hlt hs hi
    exact ensures_pure ⟨hnext, by omega⟩
  have hfirst : CopiedUp m dest src size { mem := m, i := 0 } := ⟨Nat.zero_le _, (copied_self 0).symm⟩
  refine (ensures_loop _ _ hbody hfirst).imp ?_
  rintro s ⟨hs, hend⟩
  rw [decide_eq_false_iff_not, BitVec.lt_def] at hend
  rw [hs.2, Nat.le_antisymm hs.1 (Nat.le_of_not_lt hend)]

theorem memmoveDown_loop (hdest : dest.toNat + size.toNat ≤ 2 ^ 32) (hsrc : src.toNat + size.toNat ≤ 2 ^ 32) (hle : ¬dest < src) :
    Ensures (loop (fun s : Memmove => 0 < s.i) (fun s => pure (memmoveDown dest src s)) { mem := m, i := size })
      (fun s => s.mem = m.copied dest src 0 size.toNat) := by
  have hbody : ∀ s, CopiedDown m dest src size s → decide (0 < s.i) = true → Ensures (pure (memmoveDown dest src s))
      (fun t => CopiedDown m dest src size t ∧ t.i.toNat < s.i.toNat) := by
    intro s hs hi
    rw [decide_eq_true_eq, BitVec.lt_def] at hi
    obtain ⟨hnext, hcount⟩ := copiedDown_turn hdest hsrc hle hs hi
    exact ensures_pure ⟨hnext, by omega⟩
  have hfirst : CopiedDown m dest src size { mem := m, i := size } := ⟨Nat.le_refl _, (copied_self size.toNat).symm⟩
  refine (ensures_loop _ _ hbody hfirst).imp ?_
  rintro s ⟨hs, hend⟩
  rw [decide_eq_false_iff_not, BitVec.lt_def] at hend
  rw [hs.2, Nat.eq_zero_of_not_pos hend]

/-- What `memmove` leaves is a finished copy. -/
theorem memmove_copied (hdest : dest.toNat + size.toNat ≤ 2 ^ 32) (hsrc : src.toNat + size.toNat ≤ 2 ^ 32) :
    Returns (memmove m dest src size) (m.copied dest src 0 size.toNat, dest) := by
  have hend : ∀ s : Memmove, s.mem = m.copied dest src 0 size.toNat →
      Returns (pure (s.mem, dest) : Comp (Bytes 32 × BitVec 32)) (m.copied dest src 0 size.toNat, dest) := by
    intro s hs
    rw [hs]
    exact returns_pure.mpr rfl
  rw [memmove]
  by_cases hlt : dest < src
  · rw [if_pos hlt]
    obtain ⟨s, hs, hmem⟩ := memmoveUp_loop (m := m) hsrc hlt
    exact returns_bind.mpr ⟨s, hs, hend s hmem⟩
  · rw [if_neg hlt]
    obtain ⟨s, hs, hmem⟩ := memmoveDown_loop (m := m) hdest hsrc hlt
    exact returns_bind.mpr ⟨s, hs, hend s hmem⟩

/-- `memmove` returns `dest`, with the bytes of the source, as they were, in the range from `dest` on, and every byte outside it as
it was, for ranges that do not wrap and however they overlap. -/
theorem memmove_moves (hdest : dest.toNat + size.toNat ≤ 2 ^ 32) (hsrc : src.toNat + size.toNat ≤ 2 ^ 32) :
    Ensures (memmove m dest src size) (fun r => r.2 = dest ∧
      (∀ i : BitVec 32, i < size → r.1.load (dest + i) = m.load (src + i)) ∧
      ∀ a : BitVec 32, a.toNat < dest.toNat ∨ dest.toNat + size.toNat ≤ a.toNat → r.1.load a = m.load a) := by
  refine ⟨_, memmove_copied hdest hsrc, rfl, ?_, (copied_all hdest).2⟩
  intro i hi
  exact (copied_all hdest).1 i (BitVec.lt_def.mp hi)

/-- A move up by one byte, of two, in a memory that holds at each address its lowest eight bits. -/
theorem memmove_moves_up : Ensures (memmove (fun a => a.setWidth 8) 0x101 0x100 2) (fun r => r.2 = 0x101 ∧
    (∀ i : BitVec 32, i < 2 → r.1.load (0x101 + i) = (0x100 + i).setWidth 8) ∧
    ∀ a : BitVec 32, a.toNat < 0x101 ∨ 0x103 ≤ a.toNat → r.1.load a = a.setWidth 8) :=
  memmove_moves (by decide) (by decide)

end LumOS
