import LumOS.Pmm.Basic

/-!
# The bitmap functions

What `set_bit`, `unset_bit`, `test_bit`, `set_bits` and `unset_bits` do, seen in the array of all bits from a base address of
which a bitmap is a part: a bitmap starts at a cell `b` of the base, and its bit `i` is bit `32 * b + i` of the array.
-/

namespace LumOS

open Comp

/-- The address of the word that holds a bit of a bitmap. -/
theorem word_addr (base : BitVec 32) (b : Nat) (offset : BitVec 32) :
    Mem.cell base b + 4 * (offset / word) = Mem.cell base (b + offset.toNat / 32) := by
  rw [Mem.cell_add]
  congr 1

theorem word_addr_zero (base offset : BitVec 32) : base + 4 * (offset / word) = Mem.cell base (offset.toNat / 32) := by
  have haddr := word_addr base 0 offset
  rwa [Mem.cell_zero, Nat.zero_add] at haddr

/-- The place of a bit in its word. -/
theorem toNat_mod_word (offset : BitVec 32) : (offset % word).toNat = offset.toNat % 32 := by
  simp [word, BitVec.toNat_umod]

theorem toNat_div_word (i : BitVec 32) : (i / word).toNat = i.toNat / 32 := by
  simp [word, BitVec.toNat_udiv]

section

variable {base : BitVec 32} {b : Nat}

/-- `set_bit` sets its bit and no other. -/
theorem bit_setBit (m : Mem) (offset : BitVec 32) {n : Nat} (hb : b + offset.toNat / 32 < Mem.cells)
    (hn : n < 32 * Mem.cells) :
    (setBit m (Mem.cell base b) offset).bit base n = if n = 32 * b + offset.toNat then true else m.bit base n := by
  have hword : ∀ i, (m.load (Mem.cell base (b + offset.toNat / 32)) ||| 1#32 <<< (offset.toNat % 32)).getLsbD i =
      if i = offset.toNat % 32 then true else (m.load (Mem.cell base (b + offset.toNat / 32))).getLsbD i := by
    intro i
    rw [getLsbD_or_one_shift _ _ _ (Nat.mod_lt _ (by decide))]
    split <;> simp [*]
  rw [setBit, word_addr, toNat_mod_word, Mem.bit_store_bit m base (Nat.mod_lt _ (by decide)) hb hn hword]
  exact if_congr (by omega) rfl rfl

/-- `unset_bit` clears its bit and no other. -/
theorem bit_unsetBit (m : Mem) (offset : BitVec 32) {n : Nat} (hb : b + offset.toNat / 32 < Mem.cells)
    (hn : n < 32 * Mem.cells) :
    (unsetBit m (Mem.cell base b) offset).bit base n = if n = 32 * b + offset.toNat then false else m.bit base n := by
  have hword : ∀ i, (m.load (Mem.cell base (b + offset.toNat / 32)) &&& ~~~(1#32 <<< (offset.toNat % 32))).getLsbD i =
      if i = offset.toNat % 32 then false else (m.load (Mem.cell base (b + offset.toNat / 32))).getLsbD i := by
    intro i
    rw [getLsbD_and_not_one_shift _ _ _ (Nat.mod_lt _ (by decide))]
    split <;> simp [*]
  rw [unsetBit, word_addr, toNat_mod_word, Mem.bit_store_bit m base (Nat.mod_lt _ (by decide)) hb hn hword]
  exact if_congr (by omega) rfl rfl

/-- `test_bit` reads its bit. -/
theorem testBit_eq (m : Mem) (offset : BitVec 32) :
    testBit m (Mem.cell base b) offset = m.bit base (32 * b + offset.toNat) := by
  have hd : (32 * b + offset.toNat) / 32 = b + offset.toNat / 32 := by omega
  have hm : (32 * b + offset.toNat) % 32 = offset.toNat % 32 := by omega
  rw [testBit, word_addr, Mem.bit, hd, hm, toNat_mod_word, Bool.eq_iff_iff, decide_eq_true_iff]
  exact and_one_shift_ne_zero _ _ (by omega)

/-- A bitmap seen from its own start. -/
theorem bit_setBit_zero (m : Mem) (bitmap i : BitVec 32) {n : Nat} (hi : i.toNat / 32 < Mem.cells) (hn : n < 32 * Mem.cells) :
    (setBit m bitmap i).bit bitmap n = if n = i.toNat then true else m.bit bitmap n := by
  have hbit : (setBit m (Mem.cell bitmap 0) i).bit bitmap n = if n = 32 * 0 + i.toNat then true else m.bit bitmap n :=
    bit_setBit m i (by rwa [Nat.zero_add]) hn
  rwa [Mem.cell_zero, Nat.mul_zero, Nat.zero_add] at hbit

theorem bit_unsetBit_zero (m : Mem) (bitmap i : BitVec 32) {n : Nat} (hi : i.toNat / 32 < Mem.cells) (hn : n < 32 * Mem.cells) :
    (unsetBit m bitmap i).bit bitmap n = if n = i.toNat then false else m.bit bitmap n := by
  have hbit : (unsetBit m (Mem.cell bitmap 0) i).bit bitmap n = if n = 32 * 0 + i.toNat then false else m.bit bitmap n :=
    bit_unsetBit m i (by rwa [Nat.zero_add]) hn
  rwa [Mem.cell_zero, Nat.mul_zero, Nat.zero_add] at hbit

theorem testBit_eq_bit {m : Mem} {bitmap : BitVec 32} (i : BitVec 32) : testBit m bitmap i = m.bit bitmap i.toNat := by
  have hbit : testBit m (Mem.cell bitmap 0) i = m.bit bitmap (32 * 0 + i.toNat) := testBit_eq m i
  rwa [Mem.cell_zero, Nat.mul_zero, Nat.zero_add] at hbit

/-- The bits from `lo` up to `hi` of the array are `v` in the second memory, and the others are as in the first. -/
def Filled (base : BitVec 32) (m m' : Mem) (lo hi : Nat) (v : Bool) : Prop :=
  ∀ n < 32 * Mem.cells, m'.bit base n = if lo ≤ n ∧ n < hi then v else m.bit base n

theorem Filled.refl (m : Mem) (lo : Nat) (v : Bool) : Filled base m m lo lo v := by
  intro n _
  rw [if_neg (by omega)]

/-- A filled range grows at its end. -/
theorem Filled.extend {m m₁ m₂ : Mem} {lo mid hi : Nat} {v : Bool} (h : Filled base m m₁ lo mid v) (hlo : lo ≤ mid)
    (hhi : mid ≤ hi) (h' : Filled base m₁ m₂ mid hi v) : Filled base m m₂ lo hi v := by
  intro n hn
  rw [h' n hn]
  by_cases h1 : mid ≤ n ∧ n < hi
  · rw [if_pos h1, if_pos (by omega)]
  · rw [if_neg h1, h n hn]
    by_cases h2 : lo ≤ n ∧ n < mid
    · rw [if_pos h2, if_pos (by omega)]
    · rw [if_neg h2, if_neg (by omega)]

/-- A cell no bit of which is in the filled range is unchanged. -/
theorem Filled.load_cell {m m' : Mem} {lo hi k : Nat} {v : Bool} (h : Filled base m m' lo hi v) (hk : k < Mem.cells)
    (hd : 32 * k + 32 ≤ lo ∨ hi ≤ 32 * k) : m'.load (Mem.cell base k) = m.load (Mem.cell base k) := by
  apply Mem.load_cell_ext
  intro n h1 h2
  rw [h n (by omega), if_neg (by omega)]

/-- The store of a whole word of ones or of zeros fills 32 bits. -/
theorem filled_store (m : Mem) {fill : BitVec 32} {v : Bool} (hfill : ∀ t < 32, fill.getLsbD t = v) {k : Nat}
    (hk : k < Mem.cells) : Filled base m (m.store (Mem.cell base k) fill) (32 * k) (32 * k + 32) v := by
  intro n hn
  rw [Mem.bit_store_cell m base fill hk hn]
  by_cases h : n / 32 = k
  · rw [if_pos h, if_pos (by omega), hfill _ (by omega)]
  · rw [if_neg h, if_neg (by omega)]

/-- What the three loops of `fillBits` keep: the range is filled up to the index, which passes the end by one at most. -/
structure FillInv (base : BitVec 32) (b : Nat) (m : Mem) (first last : BitVec 32) (v : Bool) (m' : Mem) (i : BitVec 32) :
    Prop where
  first_le : first.toNat ≤ i.toNat
  le_last : i.toNat ≤ last.toNat + 1
  filled : Filled base m m' (32 * b + first.toNat) (32 * b + i.toNat) v

section

variable {m m₁ : Mem} {first last i : BitVec 32} {v : Bool}

/-- One turn of a bit loop. -/
theorem FillInv.bitStep {bitOp : Mem → BitVec 32 → BitVec 32 → Mem} (h : FillInv base b m first last v m₁ i)
    (hop : Filled base m₁ (bitOp m₁ (Mem.cell base b) i) (32 * b + i.toNat) (32 * b + i.toNat + 1) v)
    (hlast : last.toNat + 33 < 2 ^ 32) (hi : i ≤ last) :
    FillInv base b m first last v (bitOp m₁ (Mem.cell base b) i) (i + 1) ∧
      last.toNat + 1 - (i + 1).toNat < last.toNat + 1 - i.toNat := by
  have hs : (i + 1).toNat = i.toNat + 1 := by bv_omega
  obtain ⟨h1, h2, h3⟩ := h
  rw [BitVec.le_def] at hi
  refine ⟨⟨by omega, by omega, ?_⟩, by omega⟩
  rw [hs]
  exact Filled.extend h3 (by omega) (by omega) hop

/-- One turn of the word loop, from an index at the start of a word. -/
theorem FillInv.wordStep {fill : BitVec 32} (h : FillInv base b m first last v m₁ i)
    (hfill : ∀ t < 32, fill.getLsbD t = v) (hlast : last.toNat + 33 < 2 ^ 32) (hb : b + last.toNat / 32 < Mem.cells)
    (hmod : i.toNat % 32 = 0) (hi : i + word ≤ last) :
    FillInv base b m first last v (m₁.store (Mem.cell base b + 4 * (i / word)) fill) (i + word) ∧
      (i + word).toNat = i.toNat + 32 ∧ last.toNat + 1 - (i + word).toNat < last.toNat + 1 - i.toNat := by
  obtain ⟨h1, h2, h3⟩ := h
  have hs : (i + word).toNat = i.toNat + 32 := by
    have := i.isLt
    simp only [word] at hi ⊢
    bv_omega
  rw [BitVec.le_def, hs] at hi
  refine ⟨⟨by omega, by omega, ?_⟩, hs, by omega⟩
  rw [hs, word_addr]
  refine Filled.extend h3 (by omega) (by omega) ?_
  have hk : 32 * (b + i.toNat / 32) = 32 * b + i.toNat := by omega
  have hstore : Filled base m₁ (m₁.store (Mem.cell base (b + i.toNat / 32)) fill) _ _ v := filled_store m₁ hfill (by omega)
  rwa [hk] at hstore

/-- The loops bit by bit, the first and the last one: they differ in their conditions. -/
theorem FillInv.bitLoop {bitOp : Mem → BitVec 32 → BitVec 32 → Mem} {cond : Mem × BitVec 32 → Bool}
    (h : FillInv base b m first last v m₁ i) (hlast : last.toNat + 33 < 2 ^ 32)
    (hop : ∀ m i, i ≤ last → Filled base m (bitOp m (Mem.cell base b) i) (32 * b + i.toNat) (32 * b + i.toNat + 1) v)
    (hcond : ∀ m i, cond (m, i) = true → i ≤ last) :
    Ensures (loop cond (fun (m, i) => pure (bitOp m (Mem.cell base b) i, i + 1)) (m₁, i))
      (fun s => FillInv base b m first last v s.1 s.2 ∧ cond s = false) := by
  refine ensures_loop (fun s : Mem × BitVec 32 => FillInv base b m first last v s.1 s.2) (fun s => last.toNat + 1 - s.2.toNat) ?_ h
  rintro ⟨m₂, j⟩ hJ hc
  have hj := hcond m₂ j hc
  exact ensures_pure (hJ.bitStep (hop m₂ j hj) hlast hj)

/-- The loop word by word, from the start of a word or from past the end. -/
theorem FillInv.wordLoop {fill : BitVec 32} (h : FillInv base b m first last v m₁ i) (hfill : ∀ t < 32, fill.getLsbD t = v)
    (hlast : last.toNat + 33 < 2 ^ 32) (hb : b + last.toNat / 32 < Mem.cells) (hmod : i ≤ last → i.toNat % 32 = 0) :
    Ensures (loop (fun (_, i) => i + word ≤ last)
        (fun (m, i) => pure (m.store (Mem.cell base b + 4 * (i / word)) fill, i + word)) (m₁, i))
      (fun s => FillInv base b m first last v s.1 s.2) := by
  refine (ensures_loop (fun s => FillInv base b m first last v s.1 s.2 ∧ (s.2 ≤ last → s.2.toNat % 32 = 0))
    (fun s => last.toNat + 1 - s.2.toNat) ?_ ⟨h, hmod⟩).imp (fun _ hs => hs.1.1)
  rintro ⟨m₂, j⟩ ⟨hJ, hmod⟩ hc
  have hj : j + word ≤ last := decide_eq_true_iff.mp hc
  have hle : j ≤ last := by
    have := hJ.le_last
    simp only [word] at hj
    bv_omega
  obtain ⟨hJ', hs, hlt⟩ := hJ.wordStep hfill hlast hb (hmod hle) hj
  refine ensures_pure ⟨⟨hJ', fun _ => ?_⟩, hlt⟩
  have := hmod hle
  simp only [hs] at this ⊢
  omega

end

/-- The body of `set_bits` and `unset_bits`, for an operation on one bit and a word that agree on the value they write: it
returns and fills the range, the end included. The range may be empty; the end is so far from the largest number that adding a
word to the index after it does not wrap. -/
theorem fillBits_ensures {bitOp : Mem → BitVec 32 → BitVec 32 → Mem} {fill : BitVec 32} {v : Bool} (m : Mem)
    {first last : BitVec 32}
    (hop : ∀ m (i : BitVec 32), b + i.toNat / 32 < Mem.cells →
      Filled base m (bitOp m (Mem.cell base b) i) (32 * b + i.toNat) (32 * b + i.toNat + 1) v)
    (hfill : ∀ t < 32, fill.getLsbD t = v) (hle : first.toNat ≤ last.toNat + 1) (hlast : last.toNat + 33 < 2 ^ 32)
    (hb : b + last.toNat / 32 < Mem.cells) :
    Ensures (fillBits bitOp fill m (Mem.cell base b) first last)
      (fun m' => Filled base m m' (32 * b + first.toNat) (32 * b + last.toNat + 1) v) := by
  have hop' : ∀ m i, i ≤ last →
      Filled base m (bitOp m (Mem.cell base b) i) (32 * b + i.toNat) (32 * b + i.toNat + 1) v := by
    intro m i hi
    rw [BitVec.le_def] at hi
    exact hop m i (by omega)
  have hstart : FillInv base b m first last v m first := ⟨Nat.le_refl _, hle, Filled.refl m _ v⟩
  unfold fillBits
  refine Ensures.bind (hstart.bitLoop hlast hop' ?_) ?_
  · intro m₁ i hc
    exact (decide_eq_true_iff.mp hc).1
  rintro ⟨m₁, i⟩ ⟨hI, hexit⟩
  -- the first loop stops at the start of a word, or past the end
  have hmod : i ≤ last → i.toNat % 32 = 0 := by
    intro hi
    have hne : ¬(i ≤ last ∧ i % word ≠ 0) := decide_eq_false_iff_not.mp hexit
    have hz : i % word = 0 := by
      by_contra hz
      exact hne ⟨hi, hz⟩
    rw [← toNat_mod_word, hz]
    rfl
  refine Ensures.bind (hI.wordLoop hfill hlast hb hmod) ?_
  rintro ⟨m₂, j⟩ hJ
  refine Ensures.bind (hJ.bitLoop hlast hop' ?_) ?_
  · intro m₃ i hc
    exact decide_eq_true_iff.mp hc
  rintro ⟨m₃, i⟩ ⟨⟨_, h2, h3⟩, hexit⟩
  have hgt : ¬i ≤ last := decide_eq_false_iff_not.mp hexit
  have hi : i.toNat = last.toNat + 1 := by
    simp only at h2
    bv_omega
  refine ensures_pure ?_
  simpa only [hi, Nat.add_assoc] using h3

end

/-- `set_bits` sets the bits of the range, its end included, and no other. -/
theorem setBits_ensures (m : Mem) (base : BitVec 32) (b : Nat) {first last : BitVec 32}
    (hle : first.toNat ≤ last.toNat + 1) (hlast : last.toNat + 33 < 2 ^ 32) (hb : b + last.toNat / 32 < Mem.cells) :
    Ensures (setBits m (Mem.cell base b) first last)
      (fun m' => Filled base m m' (32 * b + first.toNat) (32 * b + last.toNat + 1) true) := by
  refine fillBits_ensures m ?_ (by decide) hle hlast hb
  intro m i hi n hn
  rw [bit_setBit m i hi hn]
  by_cases h : n = 32 * b + i.toNat
  · rw [if_pos h, if_pos (by omega)]
  · rw [if_neg h, if_neg (by omega)]

/-- `unset_bits` clears the bits of the range, its end included, and no other. -/
theorem unsetBits_ensures (m : Mem) (base : BitVec 32) (b : Nat) {first last : BitVec 32}
    (hle : first.toNat ≤ last.toNat + 1) (hlast : last.toNat + 33 < 2 ^ 32) (hb : b + last.toNat / 32 < Mem.cells) :
    Ensures (unsetBits m (Mem.cell base b) first last)
      (fun m' => Filled base m m' (32 * b + first.toNat) (32 * b + last.toNat + 1) false) := by
  refine fillBits_ensures m ?_ (by decide) hle hlast hb
  intro m i hi n hn
  rw [bit_unsetBit m i hi hn]
  by_cases h : n = 32 * b + i.toNat
  · rw [if_pos h, if_pos (by omega)]
  · rw [if_neg h, if_neg (by omega)]

/-- With the largest number as its end the word loop never ends: nothing is larger. -/
theorem fillBits_diverges (bitOp : Mem → BitVec 32 → BitVec 32 → Mem) (fill : BitVec 32) (m : Mem) (mapStart : BitVec 32) :
    Diverges (fillBits bitOp fill m mapStart 0 0xFFFFFFFF) := by
  have hmax : ∀ i : BitVec 32, i ≤ 0xFFFFFFFF := by
    intro i
    bv_omega
  intro n
  by_contra hne
  obtain ⟨m', hm'⟩ := Option.ne_none_iff_exists'.mp hne
  have hr : Returns (fillBits bitOp fill m mapStart 0 0xFFFFFFFF) m' := ⟨n, hm'⟩
  unfold fillBits at hr
  obtain ⟨s₁, _, hr⟩ := returns_bind.mp hr
  obtain ⟨s₂, h₂, _⟩ := returns_bind.mp hr
  refine (diverges_loop (fun _ => True) ?_ (fun _ _ _ _ => trivial) trivial).not_returns s₂ h₂
  intro s _
  exact decide_eq_true (hmax _)

end LumOS
