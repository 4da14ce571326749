import LumOS.Boot.Start

/-!
# `_start`, register by register

`boot.S` from `_start` to the second load of `%cr3`, for a page directory and a page table at any two pages. The loop counts `%ecx` down
(`makeEntries_returns`); `_start` removes the identity mapping by a store through the tables that it has just made, so that it is removed
exactly when the linear address of the page directory leads to the directory (`intendedMap_iff`). The linker script puts the page
directory above `VIRTUAL_KERNEL_OFFSET`, with the page table behind it; there `start` is what `_start` does (`startRegs_start`).

The code is not in the model, and neither are the pages it is fetched from.
-/

namespace LumOS

open Paging Comp

/-- Where `boot_page_directory` and `boot_page_table1` are. -/
structure BootPages where
  bootPageDirectory : BitVec 32
  bootPageTable1 : BitVec 32
  directory_aligned : Aligned bootPageDirectory
  table_aligned : Aligned bootPageTable1
  distinct : bootPageDirectory ≠ bootPageTable1

/-- The memory, and the registers that `_start` uses up to the second load of `%cr3`. -/
structure BootRegs where
  mem : Mem
  edi : BitVec 32
  esi : BitVec 32
  edx : BitVec 32
  ecx : BitVec 32
  cr0 : BitVec 32
  cr3 : BitVec 32

/-- From the label `1` to `loop`, which counts `%ecx` down. -/
def makeEntry (s : BootRegs) : BootRegs :=
  let s := { s with edx := s.esi }
  let s := { s with edx := s.edx ||| 0x003 }
  let s := { s with mem := s.mem.store s.edi s.edx }
  let s := { s with esi := s.esi + 4096 }
  let s := { s with edi := s.edi + 4 }
  { s with ecx := s.ecx - 1 }

/-- `loop` jumps back until `%ecx` is zero, after the first turn too. -/
def makeEntries (s : BootRegs) : Comp BootRegs :=
  loop (fun s => s.ecx ≠ 0) (fun s => pure (makeEntry s)) (makeEntry s)

/-- `_start` up to the second load of `%cr3`; nothing, when the store through the tables is a page fault. Until `%cr0` is loaded
addresses are physical. -/
def startRegs (p : BootPages) (s : BootRegs) : Comp (Option BootRegs) := do
  let s := { s with edi := p.bootPageTable1 - virtualKernelOffset }
  let s := { s with esi := 0 }
  let s := { s with ecx := 1023 }
  let s ← makeEntries s
  let s := { s with mem := s.mem.store (p.bootPageTable1 - virtualKernelOffset + 1023 * 4) (0x000B8000 ||| 0x003) }
  let s := { s with
    mem := s.mem.store (p.bootPageDirectory - virtualKernelOffset) (p.bootPageTable1 + 0x003 - virtualKernelOffset) }
  let s := { s with
    mem := s.mem.store (p.bootPageDirectory - virtualKernelOffset + 768 * 4) (p.bootPageTable1 + 0x003 - virtualKernelOffset) }
  let s := { s with ecx := p.bootPageDirectory - virtualKernelOffset }
  let s := { s with cr3 := s.ecx }
  let s := { s with ecx := s.cr0 }
  let s := { s with ecx := s.ecx ||| 0x80000001 }
  let s := { s with cr0 := s.ecx }
  -- the jump to the label 4 leaves its address in `%ecx`, which is loaded again below
  match translate s.mem s.cr3 (p.bootPageDirectory + 0) with
  | none => return none
  | some a =>
    let s := { s with mem := s.mem.store a 0 }
    let s := { s with ecx := s.cr3 }
    return some { s with cr3 := s.ecx }

/-- The map that the kernel is linked for: 4 MB from `VIRTUAL_KERNEL_OFFSET` on, which lead to the first 4 MB of the physical memory,
but for the page of `VGA_MEMORY`. -/
def IntendedMap (m : Mem) (directory : BitVec 32) : Prop :=
  ∀ v : BitVec 32, ((translate m directory v).isSome ↔ 0xC0000000 ≤ v.toNat ∧ v.toNat < 0xC0400000) ∧
    ∀ a, translate m directory v = some a →
      a.toNat = if v.toNat < 0xC03FF000 then v.toNat - 0xC0000000 else 0xB8000 + v.toNat % 4096

/-! ## The entries -/

section

variable {p : BootPages} {m m' : Mem} {s₀ s : BootRegs}

/-- `%ecx` counts the turns. -/
theorem makeEntries_returns (hecx : s.ecx = 1023) : Returns (makeEntries s) (forRange 0 1023 (fun _ => makeEntry) s) := by
  have hcount : ∀ t : BootRegs, t.ecx.toNat ≠ 0 → (makeEntry t).ecx.toNat + 1 = t.ecx.toNat := by
    intro t ht
    show (t.ecx - 1).toNat + 1 = t.ecx.toNat
    have hone : (1 : BitVec 32).toNat = 1 := rfl
    bv_omega
  have hcond : ∀ t : BootRegs, decide (t.ecx ≠ 0) = decide (t.ecx.toNat ≠ 0) := by
    intro t
    rw [decide_eq_decide, not_iff_not]
    exact BitVec.toNat_inj.symm
  have hfirst : (makeEntry s).ecx.toNat = 1022 := by
    show (s.ecx - 1).toNat = 1022
    rw [hecx]
    rfl
  rw [forRange_head (by decide)]
  exact returns_countDown hcond hcount (by omega)

/-- The entries of the page table at `table` have been made up to the `i`-th, and nothing else has been written. -/
structure EntriesUpTo (table : BitVec 32) (m : Mem) (i : Nat) (s : BootRegs) : Prop where
  edi : s.edi = Mem.cell table i
  esi : s.esi = BitVec.ofNat 32 (4096 * i)
  entries : ∀ j < i, s.mem.load (Mem.cell table j) = tableEntry j
  outside : m.SameOutside table i s.mem

theorem EntriesUpTo.turn {table : BitVec 32} {i : Nat} (h : EntriesUpTo table m i s) (hi : i < 1023) :
    EntriesUpTo table m (i + 1) (makeEntry s) where
  edi := by
    show s.edi + 4 = _
    rw [h.edi, Mem.cell_add table i 1]
    rfl
  esi := by
    show s.esi + 4096 = _
    rw [h.esi, Nat.mul_add, BitVec.ofNat_add]
    rfl
  entries := by
    intro j hj
    have hcells : Mem.cells = 2 ^ 30 := rfl
    show (s.mem.store s.edi (s.esi ||| 0x003)).load _ = _
    rw [h.edi, h.esi, Mem.load_store_cell s.mem table _ (by omega) (by omega)]
    by_cases he : j = i
    · rw [if_pos he, he, tableEntry, if_pos hi]
    · rw [if_neg he, h.entries j (by omega)]
  outside := by
    show m.SameOutside table (i + 1) (s.mem.store s.edi (s.esi ||| 0x003))
    rw [h.edi]
    exact (h.outside.mono (Nat.le_succ i)).store (Nat.lt_succ_self i) _

/-! ## The tables -/

namespace BootPages

/-- The state after the loop. -/
def entries (p : BootPages) (s : BootRegs) : BootRegs :=
  forRange 0 1023 (fun _ => makeEntry) { s with edi := p.bootPageTable1 - virtualKernelOffset, esi := 0, ecx := 1023 }

/-- The memory after the three stores behind the loop. -/
def tables (p : BootPages) (m : Mem) : Mem :=
  ((m.store (p.bootPageTable1 - virtualKernelOffset + 1023 * 4) (0x000B8000 ||| 0x003)).store
    (p.bootPageDirectory - virtualKernelOffset) (p.bootPageTable1 + 0x003 - virtualKernelOffset)).store
    (p.bootPageDirectory - virtualKernelOffset + 768 * 4) (p.bootPageTable1 + 0x003 - virtualKernelOffset)

/-- The physical address of the page directory. -/
def directory (p : BootPages) : BitVec 32 := p.bootPageDirectory - virtualKernelOffset

/-- The physical address of the page table. -/
def table (p : BootPages) : BitVec 32 := p.bootPageTable1 - virtualKernelOffset

theorem aligned_sub_offset {a : BitVec 32} (ha : Aligned a) : Aligned (a - virtualKernelOffset) := by
  rw [aligned_iff] at ha ⊢
  rw [virtualKernelOffset]
  bv_omega

theorem aligned_directory (p : BootPages) : Aligned p.directory := aligned_sub_offset p.directory_aligned

theorem aligned_table (p : BootPages) : Aligned p.table := aligned_sub_offset p.table_aligned

theorem directory_ne_table (p : BootPages) : p.directory ≠ p.table := by
  intro h
  rw [directory, table] at h
  exact p.distinct (by bv_omega)

/-- An entry of the directory, and one of the table. -/
theorem cell_ne (p : BootPages) {i j : Nat} (hi : i < 1024) (hj : j < 1024) : Mem.cell p.directory i ≠ Mem.cell p.table j :=
  p.aligned_directory.cell_ne p.aligned_table p.directory_ne_table hi hj

theorem tablePointer (p : BootPages) : p.bootPageTable1 + 0x003 - virtualKernelOffset = p.table ||| 0x003 := by
  rw [← add_eq_or p.aligned_table (by decide), table]
  bv_omega

/-- The loop makes 1023 entries. -/
theorem entriesUpTo (p : BootPages) (s : BootRegs) : EntriesUpTo p.table s.mem 1023 (p.entries s) := by
  unfold entries
  refine forRange_induct (Nat.zero_le 1023) (EntriesUpTo p.table s.mem) ⟨?_, rfl, ?_, .refl s.mem⟩ (fun i s _ hi h => h.turn hi)
  · rw [Mem.cell_zero]
    rfl
  · intro j hj
    exact absurd hj (Nat.not_lt_zero j)

end BootPages

/-- The memory when the tables are made: the page table is complete, and entries 0 and 768 of the directory lead to it. -/
structure TablesMade (p : BootPages) (m m' : Mem) : Prop where
  directory : ∀ j < 1024, m'.load (Mem.cell p.directory j) =
    if j = 0 ∨ j = 768 then p.table ||| 0x003 else m.load (Mem.cell p.directory j)
  table : ∀ j < 1024, m'.load (Mem.cell p.table j) = tableEntry j

/-- The loop and the three stores make the tables. -/
theorem tablesMade (p : BootPages) (s : BootRegs) : TablesMade p s.mem (p.tables (p.entries s).mem) := by
  have h := p.entriesUpTo s
  have hcells : Mem.cells = 2 ^ 30 := rfl
  have hlast : p.bootPageTable1 - virtualKernelOffset + 1023 * 4 = Mem.cell p.table 1023 := rfl
  have hzero : p.bootPageDirectory - virtualKernelOffset = Mem.cell p.directory 0 := (Mem.cell_zero _).symm
  have hhigh : p.bootPageDirectory - virtualKernelOffset + 768 * 4 = Mem.cell p.directory 768 := rfl
  rw [BootPages.tables, p.tablePointer, hlast, hhigh, hzero]
  constructor
  · intro j hj
    rw [Mem.load_store_cell _ _ _ (by omega) (by omega), Mem.load_store_cell _ _ _ (by omega) (by omega),
      Mem.load_store_of_ne _ _ (p.cell_ne hj (by decide)), h.outside _ (fun k hk => p.cell_ne hj (by omega))]
    by_cases h1 : j = 768
    · rw [if_pos h1, if_pos (Or.inr h1)]
    rw [if_neg h1]
    by_cases h2 : j = 0
    · rw [if_pos h2, if_pos (Or.inl h2)]
    · rw [if_neg h2, if_neg (not_or.mpr ⟨h2, h1⟩)]
  · intro j hj
    rw [Mem.load_store_of_ne _ _ (p.cell_ne (by decide) hj).symm, Mem.load_store_of_ne _ _ (p.cell_ne (by decide) hj).symm,
      Mem.load_store_cell _ _ _ (by omega) (by omega)]
    by_cases hj' : j = 1023
    · rw [if_pos hj', hj']
      rfl
    · rw [if_neg hj', h.entries j (by omega)]

/-- With the tables made `_start` stores a zero through them, or there is a page fault. -/
theorem startRegs_returns (p : BootPages) (s₀ : BootRegs) :
    ∃ s : BootRegs, s.cr3 = p.directory ∧ Returns (startRegs p s₀)
      ((translate (p.tables (p.entries s₀).mem) p.directory p.bootPageDirectory).map
        (fun a => { s with mem := (p.tables (p.entries s₀).mem).store a 0 })) := by
  unfold startRegs
  refine ⟨{ p.entries s₀ with ecx := p.directory, cr3 := p.directory, cr0 := (p.entries s₀).cr0 ||| 0x80000001 }, rfl, ?_⟩
  refine returns_bind.mpr ⟨p.entries s₀, makeEntries_returns rfl, ?_⟩
  have hzero : p.bootPageDirectory + 0 = p.bootPageDirectory := BitVec.add_zero _
  simp only [hzero, BootPages.directory, BootPages.tables]
  generalize Paging.translate _ _ p.bootPageDirectory = r
  cases r with
  | none => exact returns_pure.mpr rfl
  | some a => exact returns_pure.mpr rfl

/-! ## The walk -/

/-- With the tables made, both parts of 4 MB are present: the entries of the page table say where they lead. -/
theorem TablesMade.translate (h : TablesMade p m m') {v : BitVec 32} (hv : directoryIndex v = 0 ∨ directoryIndex v = 768) :
    Paging.translate m' p.directory v = some (frame (tableEntry (tableIndex v)) + pageOffset v) := by
  have hlt : directoryIndex v < 1024 := by omega
  refine translate_table p.aligned_table ?_ (h.table _ (tableIndex_lt v))
  rw [h.directory _ hlt, if_pos hv]

/-- Anything else is not, when the directory was zero. -/
theorem TablesMade.translate_none (h : TablesMade p m m') (hbss : ∀ j < 1024, m.load (Mem.cell p.directory j) = 0) {v : BitVec 32}
    (hv : ¬(directoryIndex v = 0 ∨ directoryIndex v = 768)) : Paging.translate m' p.directory v = none := by
  have hlt : directoryIndex v < 1024 := by
    rw [directoryIndex_eq]
    omega
  refine Paging.translate_none ?_
  rw [h.directory _ hlt, if_neg hv, hbss _ hlt]
  decide

/-- Where the store that removes the identity mapping goes: to a page, and to the directory unless that is linked below the window or
at the page of the video memory. -/
theorem TablesMade.directory_linear (h : TablesMade p m m') (hbss : ∀ j < 1024, m.load (Mem.cell p.directory j) = 0) {a : BitVec 32}
    (ha : Paging.translate m' p.directory p.bootPageDirectory = some a) :
    Aligned a ∧ (a = p.directory ↔ virtualKernelOffset ≤ p.bootPageDirectory ∧ p.bootPageDirectory ≠ 0xC03FF000) := by
  by_cases hv : directoryIndex p.bootPageDirectory = 0 ∨ directoryIndex p.bootPageDirectory = 768
  · have hoffset : pageOffset p.bootPageDirectory = 0#32 := p.directory_aligned
    have hdir := p.directory_aligned
    rw [aligned_iff] at hdir
    rw [h.translate hv, hoffset, Option.some.injEq, BitVec.add_zero, tableEntry_frame, tableIndex_eq] at ha
    rw [directoryIndex_eq] at hv
    rw [BootPages.directory, virtualKernelOffset, aligned_iff]
    split at ha
    · subst ha
      bv_omega
    · subst ha
      refine ⟨by decide, iff_of_false ?_ ?_⟩
      · bv_omega
      · rintro ⟨hle, hne⟩
        bv_omega
  · rw [h.translate_none hbss hv] at ha
    cases ha

/-- The window is the intended map. -/
theorem intendedMap_of_window {directory : BitVec 32} (h : ∀ v, Paging.translate m directory v = window v) : IntendedMap m directory := by
  intro v
  have hdir := directoryIndex_eq v
  have hoff := toNat_pageOffset v
  rw [h v, window]
  by_cases hv : directoryIndex v = 768
  · rw [if_pos hv]
    refine ⟨iff_of_true rfl (by omega), ?_⟩
    intro a ha
    rw [Option.some.injEq, tableIndex_eq] at ha
    subst ha
    by_cases ht : v.toNat / 4096 % 1024 = 1023
    · rw [if_pos ht, if_neg (by omega)]
      bv_omega
    · rw [if_neg ht, if_pos (by omega), virtualKernelOffset]
      bv_omega
  · rw [if_neg hv]
    refine ⟨iff_of_false Bool.false_ne_true (by omega), ?_⟩
    intro a ha
    cases ha

/-- The map is the intended one exactly when the store goes to the directory. -/
theorem TablesMade.intendedMap_iff (h : TablesMade p m m') (hbss : ∀ j < 1024, m.load (Mem.cell p.directory j) = 0) {a : BitVec 32}
    (ha : Aligned a) : IntendedMap (m'.store a 0) p.directory ↔ a = p.directory := by
  have htable := p.aligned_table
  constructor
  · -- otherwise the second page of the identity mapping is still there
    intro hmap
    by_contra hne
    have hpde : (m'.store a 0).load (Mem.cell p.directory (directoryIndex 4096)) = p.table ||| 0x003 := by
      have hzero : Mem.cell p.directory (directoryIndex 4096) = p.directory := Mem.cell_zero p.directory
      have hlow := h.directory 0 (by decide)
      rw [if_pos (Or.inl rfl), Mem.cell_zero] at hlow
      rw [hzero, Mem.load_store_of_ne m' 0 (Ne.symm hne), hlow]
    have hpte : (m'.store a 0).load (Mem.cell p.table (tableIndex 4096)) = tableEntry (tableIndex 4096) := by
      have hone : Mem.cell p.table (tableIndex 4096) = Mem.cell p.table 1 := rfl
      have hcell : Mem.cell p.table 1 ≠ a := by
        intro heq
        have hlt := p.table.isLt
        have hmod : p.table.toNat % 4096 = 0 := aligned_iff.mp htable
        rw [← heq, aligned_iff, Mem.toNat_cell (by omega)] at ha
        omega
      rw [hone, Mem.load_store_of_ne m' 0 hcell, h.table 1 (by decide)]
      rfl
    have hpresent := translate_table htable hpde hpte
    have hrange := (hmap 4096).1.mp (by rw [hpresent]; rfl)
    exact absurd hrange.1 (by decide)
  · rintro rfl
    refine intendedMap_of_window (fun v => ?_)
    have hload : ∀ j < 1024, (m'.store p.directory 0).load (Mem.cell p.directory j) =
        if j = 0 then 0 else m'.load (Mem.cell p.directory j) := by
      intro j hj
      have hcells : Mem.cells = 2 ^ 30 := rfl
      have hstore := Mem.load_store_cell m' p.directory 0 (j := 0) (k := j) (by omega) (by omega)
      rwa [Mem.cell_zero] at hstore
    by_cases hv : directoryIndex v = 768
    · rw [window_eq hv]
      refine translate_table htable ?_ ?_
      · rw [hv, hload 768 (by decide), if_neg (by decide), h.directory 768 (by decide), if_pos (Or.inr rfl)]
      · have hne := p.cell_ne (i := 0) (by decide) (tableIndex_lt v)
        rw [Mem.cell_zero] at hne
        rw [Mem.load_store_of_ne m' 0 hne.symm, h.table _ (tableIndex_lt v)]
    · have hlt : directoryIndex v < 1024 := by
        rw [directoryIndex_eq]
        omega
      have hentry : (m'.store p.directory 0).load (Mem.cell p.directory (directoryIndex v)) = 0 := by
        rw [hload _ hlt]
        by_cases h0 : directoryIndex v = 0
        · rw [if_pos h0]
        · rw [if_neg h0, h.directory _ hlt, if_neg (not_or.mpr ⟨h0, hv⟩), hbss _ hlt]
      rw [window, if_neg hv]
      refine Paging.translate_none ?_
      rw [hentry]
      decide

/-- The state in which `_start` has loaded `%cr3` the second time. -/
theorem startRegs_reached (hrun : Returns (startRegs p s₀) (some s)) :
    ∃ a, Paging.translate (p.tables (p.entries s₀).mem) p.directory p.bootPageDirectory = some a ∧
      s.mem = (p.tables (p.entries s₀).mem).store a 0 ∧ s.cr3 = p.directory := by
  obtain ⟨t, hcr3, hreturns⟩ := startRegs_returns p s₀
  obtain ⟨a, ha, rfl⟩ := Option.map_eq_some_iff.mp (hreturns.unique hrun)
  exact ⟨a, ha, rfl, hcr3⟩

/-- `_start` reaches the second load of `%cr3` when the store finds a page. -/
theorem startRegs_reaches (p : BootPages) (s₀ : BootRegs)
    (hv : directoryIndex p.bootPageDirectory = 0 ∨ directoryIndex p.bootPageDirectory = 768) :
    ∃ s, Returns (startRegs p s₀) (some s) := by
  obtain ⟨t, -, hreturns⟩ := startRegs_returns p s₀
  rw [(tablesMade p s₀).translate hv, Option.map_some] at hreturns
  exact ⟨_, hreturns⟩

/-- The map that `_start` leaves is the intended one exactly when the page directory is linked above `VIRTUAL_KERNEL_OFFSET` and not at
the page of `VGA_MEMORY`. -/
theorem start_intendedMap_iff (hbss : ∀ j < 1024, s₀.mem.load (Mem.cell (p.bootPageDirectory - virtualKernelOffset) j) = 0)
    (hrun : Returns (startRegs p s₀) (some s)) :
    IntendedMap s.mem s.cr3 ↔ virtualKernelOffset ≤ p.bootPageDirectory ∧ p.bootPageDirectory ≠ 0xC03FF000 := by
  obtain ⟨a, ha, hmem, hcr3⟩ := startRegs_reached hrun
  obtain ⟨haligned, hplace⟩ := (tablesMade p s₀).directory_linear hbss ha
  rw [hmem, hcr3, (tablesMade p s₀).intendedMap_iff hbss haligned]
  exact hplace

end

theorem lowPages_directory_aligned : Aligned 0xC0100000 := by decide

theorem lowPages_table_aligned : Aligned 0xC0101000 := by decide

theorem lowPages_distinct : (0xC0100000 : BitVec 32) ≠ 0xC0101000 := by decide

/-- Pages at the lowest address that the linker script gives to the kernel. -/
def lowPages : BootPages := ⟨0xC0100000, 0xC0101000, lowPages_directory_aligned, lowPages_table_aligned, lowPages_distinct⟩

theorem highPages_directory_aligned : Aligned 0xC03FF000 := by decide

theorem highPages_table_aligned : Aligned 0xC0400000 := by decide

theorem highPages_distinct : (0xC03FF000 : BitVec 32) ≠ 0xC0400000 := by decide

/-- Pages behind a kernel that fills the window. -/
def highPages : BootPages := ⟨0xC03FF000, 0xC0400000, highPages_directory_aligned, highPages_table_aligned, highPages_distinct⟩

/-- A processor with a zero memory. -/
def zeroRegs : BootRegs := { mem := fun _ => 0, edi := 0, esi := 0, edx := 0, ecx := 0, cr0 := 0, cr3 := 0 }

theorem start_intendedMap_lowPages : ∃ s, Returns (startRegs lowPages zeroRegs) (some s) ∧ IntendedMap s.mem s.cr3 := by
  have hbss : ∀ j < 1024, zeroRegs.mem.load (Mem.cell lowPages.directory j) = 0 := fun _ _ => rfl
  obtain ⟨s, hs⟩ := startRegs_reaches lowPages zeroRegs (Or.inr rfl)
  exact ⟨s, hs, (start_intendedMap_iff hbss hs).mpr (by decide)⟩

/-- With the page directory at the page of `VGA_MEMORY` the identity mapping stays: the store that removes it goes to the screen. -/
theorem start_not_intendedMap_highPages :
    ¬∀ (p : BootPages) (s₀ s : BootRegs), (∀ j < 1024, s₀.mem.load (Mem.cell (p.bootPageDirectory - virtualKernelOffset) j) = 0) →
      Returns (startRegs p s₀) (some s) → IntendedMap s.mem s.cr3 := by
  intro hall
  have hbss : ∀ j < 1024, zeroRegs.mem.load (Mem.cell highPages.directory j) = 0 := fun _ _ => rfl
  have htables := tablesMade highPages zeroRegs
  obtain ⟨s, hs⟩ := startRegs_reaches highPages zeroRegs (Or.inr rfl)
  have hmap := hall highPages zeroRegs s hbss hs
  obtain ⟨a, ha, hmem, hcr3⟩ := startRegs_reached hs
  obtain ⟨haligned, hplace⟩ := htables.directory_linear hbss ha
  rw [hmem, hcr3, htables.intendedMap_iff hbss haligned, hplace] at hmap
  exact hmap.2 rfl

/-! ## Where the linker script puts the pages -/

theorem BootImage.table_aligned (img : BootImage) : Aligned img.bootPageTable1 := by
  have hdir := img.aligned
  rw [aligned_iff] at hdir ⊢
  rw [BootImage.bootPageTable1]
  bv_omega

theorem BootImage.distinct (img : BootImage) : img.bootPageDirectory ≠ img.bootPageTable1 := by
  rw [BootImage.bootPageTable1]
  bv_omega

/-- The pages of an image, the page table behind the page directory. -/
def BootImage.pages (img : BootImage) : BootPages :=
  ⟨img.bootPageDirectory, img.bootPageTable1, img.aligned, img.table_aligned, img.distinct⟩

/-- The part of the state that the loop of `start` has. -/
def BootRegs.entryLoop (s : BootRegs) : EntryLoop where
  mem := s.mem
  edi := s.edi
  esi := s.esi

theorem BootRegs.entryLoop_mem (s : BootRegs) : s.entryLoop.mem = s.mem := rfl

theorem BootRegs.entryLoop_makeEntry (s : BootRegs) : (makeEntry s).entryLoop = entryTurn s.entryLoop := rfl

/-- The tables are those of `start`. -/
theorem BootImage.tables_eq (img : BootImage) (s : BootRegs) : img.pages.tables (img.pages.entries s).mem = mapKernel img s.mem := by
  have hloop : (img.pages.entries s).entryLoop =
      forRange 0 1023 (fun _ => entryTurn) { mem := s.mem, edi := img.bootPageTable1 - virtualKernelOffset, esi := 0 } := by
    rw [BootPages.entries, forRange_map BootRegs.entryLoop_makeEntry]
    rfl
  rw [← BootRegs.entryLoop_mem, hloop]
  rfl

/-- For an image `_start` reaches the second load of `%cr3` with the memory that `start` gives. -/
theorem startRegs_start (img : BootImage) (s₀ : BootRegs) :
    ∃ s, Returns (startRegs img.pages s₀) (some s) ∧ start img s₀.mem = some s.mem ∧ s.cr3 = img.cr3 := by
  have hunmap := unmapLow_eq img (mapsKernel_mapKernel img s₀.mem)
  obtain ⟨t, hcr3, hreturns⟩ := startRegs_returns img.pages s₀
  rw [img.tables_eq s₀] at hreturns
  obtain ⟨a, ha, hstore⟩ := Option.map_eq_some_iff.mp hunmap
  have hzero : img.bootPageDirectory + 0 = img.pages.bootPageDirectory := BitVec.add_zero _
  have hdirectory : img.cr3 = img.pages.directory := rfl
  rw [hzero, hdirectory] at ha
  rw [ha, Option.map_some] at hreturns
  refine ⟨_, hreturns, ?_, hcr3⟩
  rw [start, hunmap, ← hstore]

end LumOS
