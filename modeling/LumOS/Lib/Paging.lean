import LumOS.Lib.Mem

/-!
# Two-level page tables

32-bit paging with pages of 4096 bytes: bits 31-22 of a linear address choose an entry of the page directory, bits 21-12 an entry of the
page table that the directory's entry leads to, and bits 11-0 the byte in the page. Bit 0 of an entry says that there is something at its
other end. `translate` is what the processor does with the tables in a physical memory.
-/

namespace Paging

/-- There is a table or a page behind the entry. -/
def Present (entry : BitVec 32) : Prop := entry &&& 1 ≠ 0

instance (entry : BitVec 32) : Decidable (Present entry) := inferInstanceAs (Decidable (entry &&& 1 ≠ 0))

/-- The physical address of the table or the page behind an entry. -/
def frame (entry : BitVec 32) : BitVec 32 := entry &&& 0xFFFFF000

/-- The number of the directory's entry for a linear address. -/
def directoryIndex (linear : BitVec 32) : Nat := (linear >>> 22).toNat

/-- The number of the table's entry for a linear address. -/
def tableIndex (linear : BitVec 32) : Nat := (linear >>> 12 &&& 0x3FF).toNat

/-- The place of a linear address in its page. -/
def pageOffset (linear : BitVec 32) : BitVec 32 := linear &&& 0xFFF

/-- The physical address of a linear address, if its page is present; `directory` is the physical address of the page directory. -/
def translate (m : Mem) (directory linear : BitVec 32) : Option (BitVec 32) :=
  let pde := m.load (Mem.cell directory (directoryIndex linear))
  if Present pde then
    let pte := m.load (Mem.cell (frame pde) (tableIndex linear))
    if Present pte then some (frame pte + pageOffset linear) else none
  else none

theorem directoryIndex_eq (linear : BitVec 32) : directoryIndex linear = linear.toNat / 2 ^ 22 := by
  rw [directoryIndex, BitVec.toNat_ushiftRight, Nat.shiftRight_eq_div_pow]

theorem tableIndex_eq (linear : BitVec 32) : tableIndex linear = linear.toNat / 4096 % 1024 := by
  have hmask : (0x3FF : BitVec 32).toNat = 2 ^ 10 - 1 := rfl
  rw [tableIndex, BitVec.toNat_and, hmask, Nat.and_two_pow_sub_one_eq_mod, BitVec.toNat_ushiftRight, Nat.shiftRight_eq_div_pow]

theorem toNat_pageOffset (linear : BitVec 32) : (pageOffset linear).toNat = linear.toNat % 4096 := by
  have hmask : (0xFFF : BitVec 32).toNat = 2 ^ 12 - 1 := rfl
  rw [pageOffset, BitVec.toNat_and, hmask, Nat.and_two_pow_sub_one_eq_mod]

theorem tableIndex_lt (linear : BitVec 32) : tableIndex linear < 1024 := by
  rw [tableIndex_eq]
  exact Nat.mod_lt _ (by decide)

/-! ## Entries -/

section

variable {a flags : BitVec 32}

/-- A page starts at the address. -/
def Aligned (a : BitVec 32) : Prop := pageOffset a = 0

instance (a : BitVec 32) : Decidable (Aligned a) := inferInstanceAs (Decidable (pageOffset a = 0))

theorem aligned_iff : Aligned a ↔ a.toNat % 4096 = 0 := by
  have h0 : (0 : BitVec 32).toNat = 0 := rfl
  rw [Aligned, ← BitVec.toNat_inj, toNat_pageOffset, h0]

/-- An entry of a table or a directory, and one of another. -/
theorem Aligned.cell_ne {b : BitVec 32} (ha : Aligned a) (hb : Aligned b) (hne : a ≠ b) {i j : Nat} (hi : i < 1024) (hj : j < 1024) :
    Mem.cell a i ≠ Mem.cell b j := by
  rw [aligned_iff] at ha hb
  have hlta := a.isLt
  have hltb := b.isLt
  intro h
  have hnat := congrArg BitVec.toNat h
  rw [Mem.toNat_cell (by omega), Mem.toNat_cell (by omega)] at hnat
  exact hne (BitVec.eq_of_toNat_eq (by omega))

theorem Aligned.and_eq (ha : Aligned a) : a &&& 0xFFF = 0#32 := ha

/-- An entry made of the address of a page and of flags leads to the page. -/
theorem frame_or (ha : Aligned a) (hf : frame flags = 0#32) : frame (a ||| flags) = a := by
  have hmask : (0xFFFFF000 : BitVec 32) ||| 0xFFF = BitVec.allOnes 32 := by decide
  have hsplit : a &&& 0xFFFFF000 ||| a &&& 0xFFF = a := by
    rw [← BitVec.and_or_distrib_left, hmask, BitVec.and_allOnes]
  rw [ha.and_eq, BitVec.or_zero] at hsplit
  rw [frame] at hf ⊢
  rw [BitVec.and_or_distrib_right, hf, BitVec.or_zero, hsplit]

theorem present_or (hf : flags &&& 1 = 1) : Present (a ||| flags) := by
  intro h
  rw [BitVec.and_or_distrib_right, hf] at h
  have hbit := congrArg (fun x => x.getLsbD 0) h
  simp at hbit

/-- Flags can also be added to the address of a page. -/
theorem add_eq_or (ha : Aligned a) (hf : flags &&& 0xFFF = flags) : a + flags = a ||| flags := by
  refine BitVec.add_eq_or_of_and_eq_zero a flags ?_
  rw [← hf, BitVec.and_comm flags, ← BitVec.and_assoc, ha.and_eq, BitVec.zero_and]

end

/-! ## Translations -/

section

variable {m : Mem} {directory linear : BitVec 32}

/-- A linear address whose page has entries in both tables. -/
theorem translate_eq {pde pte : BitVec 32} (hd : m.load (Mem.cell directory (directoryIndex linear)) = pde) (hpde : Present pde)
    (ht : m.load (Mem.cell (frame pde) (tableIndex linear)) = pte) (hpte : Present pte) :
    translate m directory linear = some (frame pte + pageOffset linear) := by
  unfold translate
  simp only
  rw [hd, if_pos hpde, ht, if_pos hpte]

/-- A linear address without a table. -/
theorem translate_none (hd : ¬Present (m.load (Mem.cell directory (directoryIndex linear)))) :
    translate m directory linear = none := by
  unfold translate
  simp only
  rw [if_neg hd]

end

end Paging
