import LumOS.Lib.Comp

/-!
# A memory of bytes, and copies from one part of it to another

`Bytes w` gives the byte at each of `2 ^ w` addresses, and addresses wrap around. A copy that is under way has moved the bytes of an
interval of offsets and no others (`Bytes.copied`). It grows at either end by one byte when the byte it moves next has not been
overwritten yet (`copied_store_last`, `copied_store_first`), and that is so from the first byte on when the destination lies below
the source and from the last one on when it does not (`copied_forward`, `copied_backward`). A copy from the first byte on that does not
look where the destination is repeats what comes before it (`Bytes.repeated`).

`Bytes.filled` is a memory with a range set to one value, and `Bytes.bytes` are the bytes of a range, in order.
-/

/-- A memory: the byte at each address. -/
def Bytes (w : Nat) : Type := BitVec w → BitVec 8

namespace Bytes

variable {w : Nat}

/-- The byte at an address. -/
def load (m : Bytes w) (a : BitVec w) : BitVec 8 := m a

/-- The memory with the byte at an address replaced. -/
def store (m : Bytes w) (a : BitVec w) (v : BitVec 8) : Bytes w := fun b => if b = a then v else m b

/-- The offset of an address from a pointer. -/
def offset (p a : BitVec w) : Nat := (a - p).toNat

@[simp] theorem offset_add (p i : BitVec w) : offset p (p + i) = i.toNat := by
  rw [offset, BitVec.add_comm, BitVec.add_sub_cancel]

/-- The offset of an address below a pointer. -/
theorem offset_of_lt {p a : BitVec w} (h : a < p) : offset p a = 2 ^ w + a.toNat - p.toNat := by
  rw [BitVec.lt_def] at h
  have hp := p.isLt
  rw [offset, BitVec.toNat_sub, Nat.mod_eq_of_lt (by omega)]
  omega

/-- The offset of an address that is not below a pointer. -/
theorem offset_of_le {p a : BitVec w} (h : p ≤ a) : offset p a = a.toNat - p.toNat := by
  exact BitVec.toNat_sub_of_le h

/-- The memory after the bytes at the offsets from `lo` up to `hi` have been copied from `src` on to `dest` on. -/
def copied (m : Bytes w) (dest src : BitVec w) (lo hi : Nat) : Bytes w := fun a =>
  if lo ≤ offset dest a ∧ offset dest a < hi then m (src + (a - dest)) else m a

section

variable {m : Bytes w} {dest src : BitVec w} {lo hi : Nat}

/-- Before any byte is copied. -/
theorem copied_self (k : Nat) : m.copied dest src k k = m := by
  funext a
  exact if_neg (by omega)

/-- A copied byte. -/
theorem copied_of_mem {i : BitVec w} (hlo : lo ≤ i.toNat) (hhi : i.toNat < hi) :
    (m.copied dest src lo hi).load (dest + i) = m.load (src + i) := by
  rw [load, copied, offset_add, if_pos ⟨hlo, hhi⟩, BitVec.add_comm dest, BitVec.add_sub_cancel, load]

/-- A byte that has not been overwritten. -/
theorem copied_of_not_mem {a : BitVec w} (h : offset dest a < lo ∨ hi ≤ offset dest a) :
    (m.copied dest src lo hi).load a = m.load a := by
  rw [load, copied, if_neg (by omega), load]

/-- One more byte copied. -/
theorem copied_store {i : BitVec w} {lo' hi' : Nat} (h : ∀ k, lo' ≤ k ∧ k < hi' ↔ k = i.toNat ∨ lo ≤ k ∧ k < hi) :
    (m.copied dest src lo hi).store (dest + i) (m.load (src + i)) = m.copied dest src lo' hi' := by
  funext a
  by_cases ha : a = dest + i
  · subst ha
    have hi := (h i.toNat).mpr (.inl rfl)
    rw [store, if_pos rfl]
    exact (copied_of_mem hi.1 hi.2).symm
  · have hne : offset dest a ≠ i.toNat := by
      intro he
      refine ha ?_
      rw [← BitVec.eq_of_toNat_eq he, BitVec.add_comm, BitVec.sub_add_cancel]
    rw [store, if_neg ha, copied, copied]
    refine if_congr ?_ rfl rfl
    rw [h, or_iff_right hne]

/-- The byte after the last one copied. -/
theorem copied_store_last {i : BitVec w} (hlo : lo ≤ i.toNat) :
    (m.copied dest src lo i.toNat).store (dest + i) (m.load (src + i)) = m.copied dest src lo (i.toNat + 1) :=
  copied_store (by omega)

/-- The byte before the first one copied. -/
theorem copied_store_first {i : BitVec w} (hhi : i.toNat < hi) :
    (m.copied dest src (i.toNat + 1) hi).store (dest + i) (m.load (src + i)) = m.copied dest src i.toNat hi :=
  copied_store (by omega)

/-- The address at an offset within a range that does not wrap. -/
theorem toNat_add_of_fits {p i : BitVec w} {size : Nat} (hp : p.toNat + size ≤ 2 ^ w) (hi : i.toNat < size) :
    (p + i).toNat = p.toNat + i.toNat := by
  rw [BitVec.toNat_add, Nat.mod_eq_of_lt (by omega)]

/-- A copy from the first byte on reads what it has not overwritten, when the destination lies below the source. -/
theorem copied_forward {size : Nat} {i : BitVec w} (hsrc : src.toNat + size ≤ 2 ^ w) (hlt : dest < src) (hi : i.toNat < size) :
    (m.copied dest src 0 i.toNat).load (src + i) = m.load (src + i) := by
  refine copied_of_not_mem (.inr ?_)
  have hsum := toNat_add_of_fits hsrc hi
  rw [BitVec.lt_def] at hlt
  rw [offset_of_le (BitVec.le_def.mpr (by omega))]
  omega

/-- A copy from the last byte on reads what it has not overwritten, when the destination does not lie below the source. -/
theorem copied_backward {size : Nat} {i : BitVec w} (hdest : dest.toNat + size ≤ 2 ^ w) (hsrc : src.toNat + size ≤ 2 ^ w)
    (hle : ¬dest < src) (hi : i.toNat < size) :
    (m.copied dest src (i.toNat + 1) size).load (src + i) = m.load (src + i) := by
  refine copied_of_not_mem ?_
  have hsum := toNat_add_of_fits hsrc hi
  rw [BitVec.lt_def] at hle
  by_cases h : src + i < dest
  · right
    rw [offset_of_lt h]
    omega
  · left
    rw [BitVec.not_lt] at h
    rw [offset_of_le h]
    omega

/-- A finished copy: every byte of the range has moved, and no other one has changed. -/
theorem copied_all {size : Nat} (hdest : dest.toNat + size ≤ 2 ^ w) :
    (∀ i : BitVec w, i.toNat < size → (m.copied dest src 0 size).load (dest + i) = m.load (src + i)) ∧
      ∀ a : BitVec w, a.toNat < dest.toNat ∨ dest.toNat + size ≤ a.toNat →
        (m.copied dest src 0 size).load a = m.load a := by
  refine ⟨fun i hi => copied_of_mem (Nat.zero_le _) hi, ?_⟩
  intro a ha
  refine copied_of_not_mem (.inr ?_)
  rcases ha with ha | ha
  · rw [offset_of_lt (BitVec.lt_def.mpr ha)]
    omega
  · rw [offset_of_le (BitVec.le_def.mpr (by omega))]
    omega

end

/-! ## Copies that overlap -/

/-- The memory after `n` bytes have been copied from `src` on to `dest` on, where the first ones repeat in place of those overwritten. -/
def repeated (m : Bytes w) (dest src : BitVec w) (n : Nat) : Bytes w := fun a =>
  if offset dest a < n then m.load (src + BitVec.ofNat w (offset dest a % offset src dest)) else m.load a

section

variable {m : Bytes w} {dest src : BitVec w}

theorem repeated_of_mem {n : Nat} {i : BitVec w} (hi : i.toNat < n) : (repeated m dest src n).load (dest + i) =
    m.load (src + BitVec.ofNat w (i.toNat % offset src dest)) := by
  show (if offset dest (dest + i) < n then _ else _) = _
  rw [offset_add, if_pos hi]

/-- The byte that is read next, as it was or as it was written. -/
theorem load_repeated {i : BitVec w} : (repeated m dest src i.toNat).load (src + i) =
    m.load (src + BitVec.ofNat w (i.toNat % offset src dest)) := by
  have hd := (dest - src).isLt
  have hdist : offset src dest = (dest - src).toNat := rfl
  have hoff : offset dest (src + i) = offset (dest - src) i := by
    rw [offset, offset, BitVec.sub_eq_add_neg i, BitVec.neg_sub, BitVec.sub_eq_add_neg]
    ac_rfl
  show (if offset dest (src + i) < i.toNat then _ else _) = _
  rw [hoff]
  by_cases hle : dest - src ≤ i
  · -- written before, unless the ranges are the same
    rw [offset_of_le hle, hdist]
    rw [BitVec.le_def] at hle
    by_cases h0 : (dest - src).toNat = 0
    · rw [if_neg (by omega), h0, Nat.mod_zero, BitVec.ofNat_toNat, BitVec.setWidth_eq]
    · rw [if_pos (by omega), Nat.mod_eq_sub_mod hle]
  · rw [BitVec.not_le] at hle
    rw [offset_of_lt hle, hdist, if_neg (by omega), Nat.mod_eq_of_lt (BitVec.lt_def.mp hle), BitVec.ofNat_toNat,
      BitVec.setWidth_eq]

/-- One more byte copied. -/
theorem repeated_store {i : BitVec w} :
    (repeated m dest src i.toNat).store (dest + i) ((repeated m dest src i.toNat).load (src + i)) =
      repeated m dest src (i.toNat + 1) := by
  rw [load_repeated]
  funext a
  by_cases ha : a = dest + i
  · subst ha
    rw [store, if_pos rfl, repeated, offset_add, if_pos (Nat.lt_succ_self _)]
  · have hne : offset dest a ≠ i.toNat := by
      intro he
      refine ha ?_
      rw [← BitVec.eq_of_toNat_eq he, BitVec.add_comm, BitVec.sub_add_cancel]
    rw [store, if_neg ha, repeated, repeated]
    exact if_congr (by omega) rfl rfl

/-- The bytes that repeat are those that are copied, when the destination does not begin within the source. -/
theorem repeated_eq_copied {size : Nat} (hd : offset src dest = 0 ∨ size ≤ offset src dest) :
    repeated m dest src size = m.copied dest src 0 size := by
  funext a
  have hsrc : src + (a - dest) = src + BitVec.ofNat w (offset dest a) := by
    rw [offset, BitVec.ofNat_toNat, BitVec.setWidth_eq]
  rw [repeated, copied, hsrc]
  by_cases ha : offset dest a < size
  · have hmod : offset dest a % offset src dest = offset dest a := by
      rcases hd with h0 | hle
      · rw [h0, Nat.mod_zero]
      · exact Nat.mod_eq_of_lt (Nat.lt_of_lt_of_le ha hle)
    rw [if_pos ha, if_pos ⟨Nat.zero_le _, ha⟩, hmod, load]
  · rw [if_neg ha, if_neg (fun h => ha h.2), load]

end

/-- The memory with the bytes at the offsets below `n` set to `v`. -/
def filled (m : Bytes w) (p : BitVec w) (v : BitVec 8) (n : Nat) : Bytes w := fun a => if offset p a < n then v else m.load a

/-- One more byte set. -/
theorem filled_store {m : Bytes w} {p i : BitVec w} {v : BitVec 8} :
    (m.filled p v i.toNat).store (p + i) v = m.filled p v (i.toNat + 1) := by
  funext a
  by_cases ha : a = p + i
  · subst ha
    rw [store, if_pos rfl, filled, offset_add, if_pos (Nat.lt_succ_self _)]
  · have hne : offset p a ≠ i.toNat := by
      intro he
      refine ha ?_
      rw [← BitVec.eq_of_toNat_eq he, BitVec.add_comm, BitVec.sub_add_cancel]
    rw [store, if_neg ha, filled, filled]
    exact if_congr (by omega) rfl rfl

/-! ## Strings of bytes -/

/-- The bytes from a pointer on. -/
def bytes (m : Bytes w) (p : BitVec w) (n : Nat) : List (BitVec 8) := (List.range n).map (fun i => m.load (p + BitVec.ofNat w i))

section

variable {m : Bytes w} {p q : BitVec w} {n : Nat}

@[simp] theorem length_bytes : (m.bytes p n).length = n := by simp [bytes]

theorem bytes_eq_iff : m.bytes p n = m.bytes q n ↔ ∀ i < n, m.load (p + BitVec.ofNat w i) = m.load (q + BitVec.ofNat w i) := by
  simp [bytes]

/-- In the order of a dictionary, the first bytes that differ decide. -/
theorem bytes_lt_iff : m.bytes p n < m.bytes q n ↔
    ∃ i < n, (∀ j < i, m.load (p + BitVec.ofNat w j) = m.load (q + BitVec.ofNat w j)) ∧
      m.load (p + BitVec.ofNat w i) < m.load (q + BitVec.ofNat w i) := by
  rw [List.lt_iff_exists]
  constructor
  · rintro (⟨-, hlt⟩ | ⟨i, hi, _, hsame, hlt⟩)
    · simp at hlt
    · refine ⟨i, by simpa using hi, ?_, by simpa [bytes] using hlt⟩
      intro j hj
      simpa [bytes] using hsame j hj
  · rintro ⟨i, hi, hsame, hlt⟩
    refine .inr ⟨i, by simpa using hi, by simpa using hi, ?_, by simpa [bytes] using hlt⟩
    intro j hj
    simpa [bytes] using hsame j hj

end

end Bytes
