import LumOS.Lib.ForRange
import LumOS.Lib.Paging
import LumOS.Pmm.Basic

/-!
# The page tables of `boot.S`

`arch/i386/boot.S` from `_start` to the removal of the identity mapping: one page table for the first 4 MB of the physical memory, but for
its last entry, which leads to the video memory, and a page directory that has it at entry 0, until the jump to the high half, and at entry
768. After that the linear addresses from `VIRTUAL_KERNEL_OFFSET` on, 4 MB of them, are the only ones that are present
(`translate_start`).

The registers and the stack that `_start` sets up are left out but for `%cr3`, and so are the calls of `_init` and `kernel_main`.
-/

namespace LumOS

open Paging

/-- Where the linker has put `boot_page_directory`; `boot_page_table1` is behind it. Both are pages, and in the part of the memory that
`_start` maps. -/
structure BootImage where
  bootPageDirectory : BitVec 32
  aligned : Aligned bootPageDirectory
  offset_le : virtualKernelOffset ≤ bootPageDirectory
  mapped : bootPageDirectory.toNat + 8192 ≤ 0xC03FF000

namespace BootImage

def bootPageTable1 (img : BootImage) : BitVec 32 := img.bootPageDirectory + 4096

/-- `%cr3` -/
def cr3 (img : BootImage) : BitVec 32 := img.bootPageDirectory - virtualKernelOffset

end BootImage

/-- The memory and the registers of the loop that makes the page table's entries. -/
structure EntryLoop where
  mem : Mem
  edi : BitVec 32
  esi : BitVec 32

/-- A turn of the loop. -/
def entryTurn (s : EntryLoop) : EntryLoop where
  mem := s.mem.store s.edi (s.esi ||| 0x003)
  edi := s.edi + 4
  esi := s.esi + 4096

/-- `_start` until paging is enabled; the addresses are physical. `%ecx` counts 1023 turns. -/
def mapKernel (img : BootImage) (m : Mem) : Mem :=
  let s := forRange 0 1023 (fun _ => entryTurn)
    { mem := m, edi := img.bootPageTable1 - virtualKernelOffset, esi := 0 }
  let m := s.mem.store (img.bootPageTable1 - virtualKernelOffset + 1023 * 4) (0x000B8000 ||| 0x003)
  let m := m.store (img.bootPageDirectory - virtualKernelOffset) (img.bootPageTable1 + 0x003 - virtualKernelOffset)
  m.store (img.bootPageDirectory - virtualKernelOffset + 768 * 4) (img.bootPageTable1 + 0x003 - virtualKernelOffset)

/-- The identity mapping is removed, by a store to a linear address. Without its page there is a page fault. -/
def unmapLow (img : BootImage) (m : Mem) : Option Mem :=
  (translate m img.cr3 (img.bootPageDirectory + 0)).map (fun a => m.store a 0)

/-- `_start` up to the removal of the identity mapping. -/
def start (img : BootImage) (m : Mem) : Option Mem := unmapLow img (mapKernel img m)

/-! ## The entries -/

/-- The entries of `boot_page_table1`. -/
def tableEntry (j : Nat) : BitVec 32 := if j < 1023 then BitVec.ofNat 32 (4096 * j) ||| 0x003 else 0x000B8000 ||| 0x003

section

variable {img : BootImage} {m : Mem}

theorem BootImage.table_cell (img : BootImage) (j : Nat) :
    Mem.cell (img.bootPageTable1 - virtualKernelOffset) j = Mem.cell img.cr3 (1024 + j) := by
  have htable : img.bootPageTable1 - virtualKernelOffset = Mem.cell img.cr3 1024 := by
    simp only [BootImage.bootPageTable1, BootImage.cr3, Mem.cell]
    bv_omega
  rw [htable, Mem.cell_add img.cr3 1024 j]
  rfl

/-- The loop has made the first `i` entries of the page table, and changed no other word of the two pages. -/
structure EntriesMade (img : BootImage) (m : Mem) (i : Nat) (s : EntryLoop) : Prop where
  edi : s.edi = Mem.cell img.cr3 (1024 + i)
  esi : s.esi = BitVec.ofNat 32 (4096 * i)
  load : ∀ j < 2048, s.mem.load (Mem.cell img.cr3 j) =
    if 1024 ≤ j ∧ j < 1024 + i then tableEntry (j - 1024) else m.load (Mem.cell img.cr3 j)

theorem EntriesMade.turn {i : Nat} {s : EntryLoop} (h : EntriesMade img m i s) (hi : i < 1023) :
    EntriesMade img m (i + 1) (entryTurn s) where
  edi := by
    show s.edi + 4 = _
    rw [h.edi, ← Nat.add_assoc, Mem.cell_add img.cr3 (1024 + i) 1]
    rfl
  esi := by
    show s.esi + 4096 = _
    rw [h.esi, Nat.mul_add, BitVec.ofNat_add]
    rfl
  load := by
    intro j hj
    have hcells : Mem.cells = 2 ^ 30 := rfl
    show (s.mem.store s.edi (s.esi ||| 0x003)).load _ = _
    rw [h.edi, h.esi, Mem.load_store_cell s.mem img.cr3 _ (by omega) (by omega), h.load j hj]
    by_cases he : j = 1024 + i
    · rw [if_pos he, if_pos (by omega), he, Nat.add_sub_cancel_left, tableEntry, if_pos hi]
    · rw [if_neg he]
      by_cases hlt : 1024 ≤ j ∧ j < 1024 + i
      · rw [if_pos hlt, if_pos (by omega)]
      · rw [if_neg hlt, if_neg (by omega)]

/-- The loop makes the entries but the last. -/
theorem entries_made (img : BootImage) (m : Mem) : EntriesMade img m 1023
    (forRange 0 1023 (fun _ => entryTurn) { mem := m, edi := img.bootPageTable1 - virtualKernelOffset, esi := 0 }) := by
  refine forRange_induct (Nat.zero_le 1023) (EntriesMade img m) ⟨?_, rfl, ?_⟩ (fun i s _ hi h => h.turn hi)
  · rw [← img.table_cell 0, Mem.cell_zero]
  · intro j _
    rw [if_neg (by omega)]

/-- The page directory and the page table before the identity mapping is removed. -/
theorem mapKernel_load (img : BootImage) (m : Mem) {j : Nat} (hj : j < 2048) :
    (mapKernel img m).load (Mem.cell img.cr3 j) =
      if j = 0 ∨ j = 768 then img.bootPageTable1 + 0x003 - virtualKernelOffset
      else if 1024 ≤ j then tableEntry (j - 1024) else m.load (Mem.cell img.cr3 j) := by
  have hcells : Mem.cells = 2 ^ 30 := rfl
  have hlast : img.bootPageTable1 - virtualKernelOffset + 1023 * 4 = Mem.cell img.cr3 (1024 + 1023) :=
    img.table_cell 1023
  have hzero : img.bootPageDirectory - virtualKernelOffset = Mem.cell img.cr3 0 := (Mem.cell_zero _).symm
  have hhigh : img.bootPageDirectory - virtualKernelOffset + 768 * 4 = Mem.cell img.cr3 768 := rfl
  unfold mapKernel
  simp only
  rw [hlast, hhigh, hzero, Mem.load_store_cell _ _ _ (by omega) (by omega), Mem.load_store_cell _ _ _ (by omega) (by omega),
    Mem.load_store_cell _ _ _ (by omega) (by omega), (entries_made img m).load j hj]
  by_cases h1 : j = 768
  · rw [if_pos h1, if_pos (Or.inr h1)]
  rw [if_neg h1]
  by_cases h2 : j = 0
  · rw [if_pos h2, if_pos (Or.inl h2)]
  rw [if_neg h2, if_neg (not_or.mpr ⟨h2, h1⟩)]
  by_cases h3 : j = 1024 + 1023
  · rw [if_pos h3, if_pos (by omega), h3, Nat.add_sub_cancel_left]
    rfl
  rw [if_neg h3]
  by_cases h4 : 1024 ≤ j
  · rw [if_pos (by omega), if_pos h4]
  · rw [if_neg (by omega), if_neg h4]

/-! ## What is present -/

/-- The physical address of a linear address in the 4 MB from `VIRTUAL_KERNEL_OFFSET` on; no other linear address is present. -/
def window (linear : BitVec 32) : Option (BitVec 32) :=
  if directoryIndex linear = 768 then
    some (if tableIndex linear = 1023 then 0x000B8000 + pageOffset linear else linear - virtualKernelOffset)
  else none

/-- A physical address in the window is below its linear address. -/
theorem window_lt {linear physical : BitVec 32} (h : window linear = some physical) : physical.toNat < linear.toNat := by
  unfold window at h
  by_cases hd : directoryIndex linear = 768
  · rw [if_pos hd] at h
    rw [directoryIndex_eq] at hd
    rw [← Option.some.inj h]
    by_cases ht : tableIndex linear = 1023
    · have hoff := toNat_pageOffset linear
      rw [if_pos ht]
      bv_omega
    · rw [if_neg ht, virtualKernelOffset]
      bv_omega
  · rw [if_neg hd] at h
    cases h

theorem tableEntry_present (j : Nat) : Present (tableEntry j) := by
  unfold tableEntry
  split
  · exact present_or (by decide)
  · exact present_or (by decide)

theorem tableEntry_frame (j : Nat) : frame (tableEntry j) = if j < 1023 then BitVec.ofNat 32 (4096 * j) else 0x000B8000 := by
  unfold tableEntry
  by_cases hj : j < 1023
  · have haligned : Aligned (BitVec.ofNat 32 (4096 * j)) := by
      rw [aligned_iff, BitVec.toNat_ofNat]
      omega
    rw [if_pos hj, if_pos hj]
    exact frame_or haligned (by decide)
  · rw [if_neg hj, if_neg hj]
    exact frame_or (by decide) (by decide)

/-- The window, as the entries of the page table make it. -/
theorem window_eq {linear : BitVec 32} (hl : directoryIndex linear = 768) :
    window linear = some (frame (tableEntry (tableIndex linear)) + pageOffset linear) := by
  have hlt := tableIndex_lt linear
  rw [window, if_pos hl, tableEntry_frame]
  refine congrArg some ?_
  by_cases ht : tableIndex linear = 1023
  · rw [if_pos ht, if_neg (by omega)]
  · have hoff := toNat_pageOffset linear
    rw [if_neg ht, if_pos (by omega)]
    rw [directoryIndex_eq] at hl
    rw [tableIndex_eq, virtualKernelOffset]
    bv_omega

/-- A linear address whose directory entry leads to a page table with the entries of `boot_page_table1`. -/
theorem translate_table {directory table linear : BitVec 32} (haligned : Aligned table)
    (hpde : m.load (Mem.cell directory (directoryIndex linear)) = table ||| 0x003)
    (htable : m.load (Mem.cell table (tableIndex linear)) = tableEntry (tableIndex linear)) :
    translate m directory linear = some (frame (tableEntry (tableIndex linear)) + pageOffset linear) := by
  have hframe : frame (table ||| 0x003) = table := frame_or haligned (by decide)
  refine translate_eq hpde (present_or (by decide)) ?_ (tableEntry_present _)
  rw [hframe, htable]

/-- The directory's entries for the page table lead to it. -/
theorem BootImage.tablePointer (img : BootImage) : img.bootPageTable1 + 0x003 - virtualKernelOffset =
    Mem.cell img.cr3 1024 ||| 0x003 ∧ Aligned (Mem.cell img.cr3 1024) := by
  have htable : img.bootPageTable1 + 0x003 - virtualKernelOffset = Mem.cell img.cr3 1024 + 0x003 := by
    simp only [BootImage.bootPageTable1, BootImage.cr3, Mem.cell]
    bv_omega
  have haligned : Aligned (Mem.cell img.cr3 1024) := by
    have hdir := img.aligned
    rw [aligned_iff] at hdir ⊢
    have hoff := img.offset_le
    have hmap := img.mapped
    simp only [virtualKernelOffset] at hoff
    simp only [BootImage.cr3, virtualKernelOffset, Mem.cell]
    bv_omega
  exact ⟨htable.trans (add_eq_or haligned (by decide)), haligned⟩

/-- The page table is made, and the directory has it at entry 768. -/
structure MapsKernel (img : BootImage) (m : Mem) : Prop where
  high : m.load (Mem.cell img.cr3 768) = img.bootPageTable1 + 0x003 - virtualKernelOffset
  table : ∀ j < 1024, m.load (Mem.cell img.cr3 (1024 + j)) = tableEntry j

theorem MapsKernel.translate (h : MapsKernel img m) {linear : BitVec 32} (hl : directoryIndex linear = 768) :
    Paging.translate m img.cr3 linear = window linear := by
  obtain ⟨hpointer, haligned⟩ := img.tablePointer
  rw [window_eq hl]
  refine translate_table haligned ?_ ?_
  · rw [hl, h.high, hpointer]
  · have hcell : Mem.cell (Mem.cell img.cr3 1024) (tableIndex linear) = Mem.cell img.cr3 (1024 + tableIndex linear) :=
      (Mem.cell_add img.cr3 1024 (tableIndex linear)).symm
    rw [hcell, h.table _ (tableIndex_lt linear)]

theorem mapsKernel_mapKernel (img : BootImage) (m : Mem) : MapsKernel img (mapKernel img m) where
  high := by
    rw [mapKernel_load img m (by decide), if_pos (Or.inr rfl)]
  table := by
    intro j hj
    rw [mapKernel_load img m (by omega), if_neg (by omega), if_pos (by omega), Nat.add_sub_cancel_left]

/-- The identity mapping is removed through the window. -/
theorem unmapLow_eq (img : BootImage) (h : MapsKernel img m) : unmapLow img m = some (m.store (Mem.cell img.cr3 0) 0) := by
  have hoff := img.offset_le
  have hmap := img.mapped
  have hal := img.aligned
  simp only [virtualKernelOffset] at hoff
  have hd : directoryIndex img.bootPageDirectory = 768 := by
    rw [directoryIndex_eq]
    bv_omega
  have ht : tableIndex img.bootPageDirectory ≠ 1023 := by
    rw [tableIndex_eq]
    bv_omega
  have hzero : img.bootPageDirectory + 0 = img.bootPageDirectory := BitVec.add_zero _
  have hcr3 : img.bootPageDirectory - virtualKernelOffset = img.cr3 := rfl
  rw [unmapLow, hzero, h.translate hd, window, if_pos hd, if_neg ht, Option.map_some, Mem.cell_zero, hcr3]

/-- After `_start` the window is present and no other linear address, when the page directory was zero before. -/
theorem translate_start (hbss : ∀ j < 1024, m.load (Mem.cell img.cr3 j) = 0) :
    ∃ m', start img m = some m' ∧ ∀ linear, translate m' img.cr3 linear = window linear := by
  have hcells : Mem.cells = 2 ^ 30 := rfl
  have hkernel := mapsKernel_mapKernel img m
  refine ⟨_, unmapLow_eq img hkernel, fun linear => ?_⟩
  have hload : ∀ j < 2048, ((mapKernel img m).store (Mem.cell img.cr3 0) 0).load (Mem.cell img.cr3 j) =
      if j = 0 then 0 else (mapKernel img m).load (Mem.cell img.cr3 j) := by
    intro j hj
    exact Mem.load_store_cell _ _ _ (by omega) (by omega)
  by_cases hl : directoryIndex linear = 768
  · refine MapsKernel.translate ⟨?_, ?_⟩ hl
    · rw [hload 768 (by decide), if_neg (by decide), hkernel.high]
    · intro j hj
      rw [hload (1024 + j) (by omega), if_neg (by omega), hkernel.table j hj]
  · have hlt : directoryIndex linear < 1024 := by
      rw [directoryIndex_eq]
      omega
    have hentry : ((mapKernel img m).store (Mem.cell img.cr3 0) 0).load (Mem.cell img.cr3 (directoryIndex linear)) = 0 := by
      rw [hload _ (by omega)]
      by_cases h0 : directoryIndex linear = 0
      · rw [if_pos h0]
      · rw [if_neg h0, mapKernel_load img m (by omega), if_neg (by omega), if_neg (by omega), hbss _ hlt]
    rw [window, if_neg hl]
    refine translate_none ?_
    rw [hentry]
    decide

end

end LumOS
