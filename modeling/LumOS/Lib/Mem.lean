import Mathlib.Algebra.Group.Int.Defs
import Mathlib.Algebra.Group.Nat.Defs
import Mathlib.Tactic.Common

/-!
# A flat memory of 32-bit words, and arrays of bits in it

`Mem` gives the 32-bit word at each 32-bit address; a program that only makes aligned accesses from one base address sees a
memory of this kind. The words at `base`, `base + 4`, `base + 8`, ... are the cells of `base` (`cell`), and the bits of these
cells, low bit first, are one array of bits (`Mem.bit`), in which a cell is a run of 32 (`load_cell_ext`). A store to a cell changes
that cell and no other of the first `2 ^ 30`.
-/

/-- A memory: the word at each address. -/
def Mem : Type := BitVec 32 → BitVec 32

namespace Mem

/-- The word at an address. -/
def load (m : Mem) (a : BitVec 32) : BitVec 32 := m a

/-- The memory with the word at an address replaced. -/
def store (m : Mem) (a v : BitVec 32) : Mem := fun b => if b = a then v else m b

@[simp] theorem load_store_self (m : Mem) (a v : BitVec 32) : (m.store a v).load a = v := by
  simp [load, store]

theorem load_store_of_ne (m : Mem) {a b : BitVec 32} (v : BitVec 32) (h : b ≠ a) :
    (m.store a v).load b = m.load b := by
  simp [load, store, h]

theorem store_store (m : Mem) (a v w : BitVec 32) : (m.store a v).store a w = m.store a w := by
  funext b
  simp only [store]
  split <;> rfl

theorem store_comm (m : Mem) {a b : BitVec 32} (h : a ≠ b) (v w : BitVec 32) :
    (m.store a v).store b w = (m.store b w).store a v := by
  funext c
  simp only [store]
  by_cases hb : c = b
  · rw [if_pos hb, if_neg (fun ha => h (ha.symm.trans hb)), if_pos hb]
  · rw [if_neg hb, if_neg hb]

@[simp] theorem store_load (m : Mem) (a : BitVec 32) : m.store a (m.load a) = m := by
  funext b
  simp only [store, load]
  split
  · rename_i h
    rw [h]
  · rfl

/-- The number of cells that no two offsets share: four bytes each, `2 ^ 32` bytes in all. -/
def cells : Nat := 2 ^ 30

/-- The address of the `k`-th word from `base`. -/
def cell (base : BitVec 32) (k : Nat) : BitVec 32 := base + BitVec.ofNat 32 (4 * k)

@[simp] theorem cell_zero (base : BitVec 32) : cell base 0 = base := by
  simp [cell]

theorem cell_add (base : BitVec 32) (j k : Nat) : cell base (j + k) = cell base j + BitVec.ofNat 32 (4 * k) := by
  simp only [cell, Nat.mul_add, BitVec.ofNat_add, BitVec.add_assoc]

/-- The value of a cell's address, when it does not pass the end of the address space. -/
theorem toNat_cell {base : BitVec 32} {k : Nat} (h : base.toNat + 4 * k < 2 ^ 32) :
    (cell base k).toNat = base.toNat + 4 * k := by
  simp only [cell, BitVec.toNat_add, BitVec.toNat_ofNat]
  omega

theorem cell_inj {base : BitVec 32} {j k : Nat} (hj : j < cells) (hk : k < cells) (h : cell base j = cell base k) :
    j = k := by
  simp only [cells] at hj hk
  have h' : BitVec.ofNat 32 (4 * j) = BitVec.ofNat 32 (4 * k) := by
    have := congrArg (fun a => a - base) h
    simpa [cell] using this
  have := congrArg BitVec.toNat h'
  simp only [BitVec.toNat_ofNat] at this
  omega

/-- A store to one cell, seen from another. -/
theorem load_store_cell (m : Mem) (base v : BitVec 32) {j k : Nat} (hj : j < cells) (hk : k < cells) :
    (m.store (cell base j) v).load (cell base k) = if k = j then v else m.load (cell base k) := by
  by_cases h : k = j
  · subst h
    rw [if_pos rfl, load_store_self]
  · rw [if_neg h, load_store_of_ne]
    intro he
    exact h (cell_inj hk hj he)

/-! ## Arrays of bits -/

/-- The `n`-th bit from `base`: bit `n % 32` of cell `n / 32`. -/
def bit (m : Mem) (base : BitVec 32) (n : Nat) : Bool := (m.load (cell base (n / 32))).getLsbD (n % 32)

/-- The bits from a later cell are bits from the base. -/
theorem bit_cell (m : Mem) (base : BitVec 32) (k n : Nat) : m.bit (cell base k) n = m.bit base (32 * k + n) := by
  have hd : (32 * k + n) / 32 = k + n / 32 := by omega
  have hm : (32 * k + n) % 32 = n % 32 := by omega
  rw [bit, bit, hd, hm, cell_add, ← cell]

/-- A cell is the run of its 32 bits: memories that agree on them agree on the cell. -/
theorem load_cell_ext {m m' : Mem} {base : BitVec 32} {k : Nat}
    (h : ∀ n, 32 * k ≤ n → n < 32 * k + 32 → m'.bit base n = m.bit base n) :
    m'.load (cell base k) = m.load (cell base k) := by
  apply BitVec.eq_of_getLsbD_eq
  intro i hi
  have := h (32 * k + i) (by omega) (by omega)
  have hd : (32 * k + i) / 32 = k := by omega
  have hm : (32 * k + i) % 32 = i := by omega
  simpa only [bit, hd, hm] using this

/-- A cell whose lowest bit is set. -/
theorem load_cell_or_one {m m' : Mem} {base : BitVec 32} {k : Nat}
    (h : ∀ n, 32 * k ≤ n → n < 32 * k + 32 → m'.bit base n = (m.bit base n || decide (n = 32 * k))) :
    m'.load (cell base k) = m.load (cell base k) ||| 1 := by
  apply BitVec.eq_of_getLsbD_eq
  intro i hi
  have hbit := h (32 * k + i) (by omega) (by omega)
  have hd : (32 * k + i) / 32 = k := by omega
  have hm : (32 * k + i) % 32 = i := by omega
  have hone : (1#32).getLsbD i = decide (32 * k + i = 32 * k) := by
    rw [BitVec.getLsbD_one, decide_eq_true (by omega), Bool.true_and, decide_eq_decide]
    omega
  simp only [bit, hd, hm] at hbit
  rw [hbit, ← hone]
  exact (BitVec.getLsbD_or).symm

/-- A store to a cell, seen from a bit. -/
theorem bit_store_cell (m : Mem) (base v : BitVec 32) {j n : Nat} (hj : j < cells) (hn : n < 32 * cells) :
    (m.store (cell base j) v).bit base n = if n / 32 = j then v.getLsbD (n % 32) else m.bit base n := by
  rw [bit, load_store_cell m base v hj (by omega)]
  by_cases h : n / 32 = j
  · rw [if_pos h, if_pos h]
  · rw [if_neg h, if_neg h, bit]

/-- A store that changes one bit of the word changes one bit of the array. -/
theorem bit_store_bit (m : Mem) (base : BitVec 32) {x : BitVec 32} {j t n : Nat} {v : Bool} (ht : t < 32) (hj : j < cells)
    (hn : n < 32 * cells) (hx : ∀ i, x.getLsbD i = if i = t then v else (m.load (cell base j)).getLsbD i) :
    (m.store (cell base j) x).bit base n = if n = 32 * j + t then v else m.bit base n := by
  rw [bit_store_cell m base x hj hn]
  by_cases hw : n / 32 = j
  · rw [if_pos hw, hx, ← hw, ← bit]
    exact if_congr (by omega) rfl rfl
  · rw [if_neg hw, if_neg (by omega)]

/-! ## What a store leaves alone -/

/-- The memories differ in the first `n` cells at most. -/
def SameOutside (base : BitVec 32) (n : Nat) (m m' : Mem) : Prop :=
  ∀ a, (∀ k < n, a ≠ cell base k) → m'.load a = m.load a

section

variable {base : BitVec 32} {n : Nat} {m m₁ m₂ : Mem}

theorem SameOutside.refl (m : Mem) : SameOutside base n m m :=
  fun _ _ => rfl

theorem SameOutside.trans (h₁ : SameOutside base n m m₁) (h₂ : SameOutside base n m₁ m₂) : SameOutside base n m m₂ :=
  fun a ha => (h₂ a ha).trans (h₁ a ha)

theorem SameOutside.mono (h : SameOutside base n m m₁) {n' : Nat} (hn : n ≤ n') : SameOutside base n' m m₁ :=
  fun a ha => h a (fun k hk => ha k (Nat.lt_of_lt_of_le hk hn))

theorem SameOutside.store (h : SameOutside base n m m₁) {k : Nat} (hk : k < n) (v : BitVec 32) :
    SameOutside base n m (m₁.store (cell base k) v) := by
  intro a ha
  rw [load_store_of_ne m₁ v (ha k hk), h a ha]

/-- Memories with the same bits in the first `n` cells, and nothing changed outside them, are the same. -/
theorem SameOutside.ext (h₁ : SameOutside base n m m₁) (h₂ : SameOutside base n m m₂)
    (hbits : ∀ i < 32 * n, m₁.bit base i = m₂.bit base i) : m₁ = m₂ := by
  funext a
  by_cases ha : ∀ k < n, a ≠ cell base k
  · exact (h₁ a ha).trans (h₂ a ha).symm
  · push Not at ha
    obtain ⟨k, hk, rfl⟩ := ha
    exact load_cell_ext (fun i _ hi => hbits i (by omega))

end

end Mem

/-! ## Single bits of a word -/

/-- A word with one bit set by an or with a shifted one. -/
theorem getLsbD_or_one_shift (w : BitVec 32) (t i : Nat) (ht : t < 32) :
    (w ||| 1#32 <<< t).getLsbD i = (w.getLsbD i || decide (i = t)) := by
  rw [BitVec.getLsbD_or]
  congr 1
  rw [BitVec.getLsbD_shiftLeft, BitVec.getLsbD_one]
  by_cases h : i = t
  · subst h
    simp [ht]
  · have : ¬(i < 32 ∧ ¬i < t ∧ i - t = 0) := by omega
    simp only [h, decide_false]
    rw [Bool.eq_false_iff]
    intro hc
    simp at hc
    omega

/-- A word with one bit cleared by an and with the complement of a shifted one. -/
theorem getLsbD_and_not_one_shift (w : BitVec 32) (t i : Nat) (ht : t < 32) :
    (w &&& ~~~(1#32 <<< t)).getLsbD i = (w.getLsbD i && !decide (i = t)) := by
  rw [BitVec.getLsbD_and, BitVec.getLsbD_not]
  have h1 : (1#32 <<< t).getLsbD i = decide (i = t) := by
    have := getLsbD_or_one_shift 0#32 t i ht
    simpa using this
  rw [h1]
  by_cases hi : i < 32
  · simp [hi]
  · simp [BitVec.getLsbD_of_ge w i (by omega)]

/-- Masking a word by a shifted one tests one bit. -/
theorem and_one_shift_ne_zero (w : BitVec 32) (t : Nat) (ht : t < 32) :
    (w &&& 1#32 <<< t ≠ 0#32) ↔ w.getLsbD t = true := by
  have h1 : ∀ i, (1#32 <<< t).getLsbD i = decide (i = t) := by
    intro i
    have := getLsbD_or_one_shift 0#32 t i ht
    simpa using this
  constructor
  · intro h
    by_contra hw
    apply h
    apply BitVec.eq_of_getLsbD_eq
    intro i _
    rw [BitVec.getLsbD_and, h1]
    by_cases hi : i = t
    · subst hi
      simpa using hw
    · simp [hi]
  · intro hw h
    have := congrArg (fun x => x.getLsbD t) h
    simp [BitVec.getLsbD_and, h1, hw] at this

/-- A word is all ones when all its bits are set. -/
theorem eq_allOnes_iff (w : BitVec 32) : w = 0xFFFFFFFF#32 ↔ ∀ i < 32, w.getLsbD i = true := by
  have hall : ∀ i < 32, (0xFFFFFFFF#32).getLsbD i = true := by decide
  constructor
  · rintro rfl
    exact hall
  · intro h
    apply BitVec.eq_of_getLsbD_eq
    intro i hi
    rw [h i hi, hall i hi]
