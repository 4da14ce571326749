import LumOS.Interrupts.Descriptors
import LumOS.Interrupts.Stubs
import LumOS.Lib.Segmentation
import Mathlib.Tactic.IntervalCases

/-!
# The descriptor tables

`gdt_init` with `load_gdt`, and what `idt_init` makes in memory with `load_idt`, up to `sti`. From any memory the processor gets through the
loads of `load_gdt`, and has segments then that begin at 0 and have no end (`gdtInit_flat`). An interrupt leads to the stub that the list
of gates names for its vector, and to nowhere when the list has no gate for it (`vectors_delivered`).

The addresses of the objects, of the stubs and of `flush` are those the linker gives; memory is by linear addresses.
-/

namespace LumOS

open Bytes

/-! ## The objects -/

namespace GdtDescriptor

def limit : PackedField := ⟨0, 2⟩
def baseAddress : PackedField := ⟨2, 4⟩

end GdtDescriptor

namespace IdtDescriptor

def limit : PackedField := ⟨0, 2⟩
def base : PackedField := ⟨2, 4⟩

end IdtDescriptor

namespace TssSegment

/-- The sizes of the fields of `struct TSS_segment`: up to `SS2_high_reserved`, the double words, and from `ES` on. -/
def sizes : List Nat := [2, 2, 4, 2, 2, 4, 2, 2, 4, 2, 2] ++ List.replicate 11 4 ++ List.replicate 16 2

/-- `sizeof(TSS)` -/
def size : Nat := sizes.sum

def ss0 : PackedField := ⟨(sizes.take 3).sum, 2⟩

end TssSegment

/-- `IDT_SIZE` -/
def idtSize : Nat := 256

/-- The number of elements of `GDT_entries` -/
def gdtSize : Nat := 6

/-- Where the linker has put the objects of `gdt.c` and `idt.c`. -/
structure TableObjects where
  gdtr : BitVec 32
  gdtEntries : BitVec 32
  tss : BitVec 32
  idtr : BitVec 32
  idt : BitVec 32

/-- The objects with their sizes. -/
def TableObjects.sizes (o : TableObjects) : List (BitVec 32 × Nat) :=
  [(o.gdtr, 6), (o.gdtEntries, 8 * gdtSize), (o.tss, TssSegment.size), (o.idtr, 6), (o.idt, 8 * idtSize)]

/-- The objects do not overlap, nor do they go past the end of the memory. -/
structure TableImage extends TableObjects where
  fits : ∀ o ∈ toTableObjects.sizes, o.1.toNat + o.2 ≤ 2 ^ 32
  apart : toTableObjects.sizes.Pairwise (fun x y => x.1.toNat + x.2 ≤ y.1.toNat ∨ y.1.toNat + y.2 ≤ x.1.toNat)

/-! ## The global table -/

/-- The arguments of `gdt_create_entry`, after the entry. -/
structure SegmentArgs where
  base : BitVec 32
  limit : BitVec 32
  type : BitVec 8
  flags : BitVec 8

/-- The calls of `gdt_create_entry`, with the indices of the entries. -/
def gdtCalls (o : TableObjects) : List (Nat × SegmentArgs) :=
  [(0, ⟨0, 0, 0, 0⟩), (1, ⟨0, 0xFFFFFFFF, 0x9A, 0xC0⟩), (2, ⟨0, 0xFFFFFFFF, 0x92, 0xC0⟩), (3, ⟨0, 0xFFFFFFFF, 0xFA, 0xC0⟩),
    (4, ⟨0, 0xFFFFFFFF, 0xF2, 0xC0⟩), (5, ⟨o.tss, BitVec.ofNat 32 (TssSegment.size - 1), 0x89, 0x10⟩)]

/-- `gdt_create_entry`, with its arguments. -/
def createSegment (m : Bytes 32) (entry : BitVec 32) (x : SegmentArgs) : Bytes 32 :=
  gdtCreateEntry m entry x.base x.limit x.type x.flags

/-- `gdt_init`, up to the call of `load_gdt` -/
def gdtInitMem (o : TableObjects) (m : Bytes 32) : Bytes 32 :=
  let m := tableOf createSegment o.gdtEntries (gdtCalls o) m
  let m := m.storeField o.tss TssSegment.ss0 (0x10 : BitVec 16)
  let m := m.storeField o.gdtr GdtDescriptor.limit (BitVec.ofNat 32 (8 * gdtSize - 1))
  m.storeField o.gdtr GdtDescriptor.baseAddress o.gdtEntries

/-- `load_gdt` -/
def loadGdt (p : Processor) (arg flush : BitVec 32) : Option Processor := do
  let p ← (p.lgdt arg).mov .es 0x10
  let p ← p.mov .ds 0x10
  let p ← p.mov .fs 0x10
  let p ← p.mov .gs 0x10
  let p ← p.mov .ss 0x10
  let p ← p.ltr 0x28
  let (p, _) ← p.jmpFar 0x08 flush
  pure p

/-- `gdt_init` -/
def gdtInit (o : TableObjects) (flush : BitVec 32) (p : Processor) : Option Processor :=
  loadGdt { p with mem := gdtInitMem o p.mem } o.gdtr flush

/-! ## The interrupt table -/

/-- `idt_create_entry`, for a gate. -/
def createGate (address : Label → BitVec 32) (m : Bytes 32) (entry : BitVec 32) (gate : Gate) : Bytes 32 :=
  idtCreateEntry m entry (address gate.base) gate.segmentSelector gate.type

/-- `idt_init`, up to the call of `load_idt`, without the accesses to the controllers. The calls of `idt_create_entry` are `idtInit`. -/
def idtInitMem (o : TableObjects) (address : Label → BitVec 32) (m : Bytes 32) : Bytes 32 :=
  let m := tableOf (createGate address) o.idt (idtInit.map (fun gate => (gate.vector, gate))) m
  let m := m.storeField o.idtr IdtDescriptor.limit ((BitVec.ofNat 16 (8 * idtSize)).setWidth 32 - 1)
  m.storeField o.idtr IdtDescriptor.base o.idt

/-- `idt_init`, with `load_idt` up to `sti` -/
def idtInitLoaded (o : TableObjects) (address : Label → BitVec 32) (p : Processor) : Processor :=
  { p with mem := idtInitMem o address p.mem }.lidt o.idtr

/-! ## What is left alone -/

theorem inPlace_createSegment : InPlace createSegment :=
  fun m _ x _ ha => (createEntry_frame m ha x.base x.limit x.type x.flags 0 0).1

theorem inPlace_createGate (address : Label → BitVec 32) : InPlace (createGate address) :=
  fun m _ gate _ ha => (createEntry_frame m ha (address gate.base) 0 0 0 gate.segmentSelector gate.type).2

/-- What `gdt_init` leaves alone: all but the entries, `TSS.SS0` and `GDTR`. -/
def TableObjects.OutsideGdt (o : TableObjects) (a : BitVec 32) : Prop :=
  8 * gdtSize ≤ offset o.gdtEntries a ∧ (offset o.tss a < 8 ∨ 10 ≤ offset o.tss a) ∧ 6 ≤ offset o.gdtr a

/-- What `idt_init` leaves alone: all but the first 48 entries and `IDTR`. -/
def TableObjects.OutsideIdt (o : TableObjects) (a : BitVec 32) : Prop := 8 * 48 ≤ offset o.idt a ∧ 6 ≤ offset o.idtr a

section

variable {o : TableObjects} {m : Bytes 32} {a : BitVec 32} {address : Label → BitVec 32}

/-- Outside of `TSS.SS0` and `GDTR` only the entries are made. -/
theorem load_gdtInitMem_entries (htss : offset o.tss a < 8 ∨ 10 ≤ offset o.tss a) (hgdtr : 6 ≤ offset o.gdtr a) :
    (gdtInitMem o m).load a = (tableOf createSegment o.gdtEntries (gdtCalls o) m).load a := by
  have hss0 : TssSegment.ss0 = ⟨8, 2⟩ := rfl
  rw [gdtInitMem, hss0]
  simp only [load_storeField, GdtDescriptor.limit, GdtDescriptor.baseAddress]
  rw [if_neg (by omega), if_neg (by omega), if_neg (by omega)]

theorem gdtCalls_index (o : TableObjects) : ∀ e ∈ gdtCalls o, e.1 < gdtSize := by simp [gdtCalls, gdtSize]

theorem load_gdtInitMem (ha : o.OutsideGdt a) : (gdtInitMem o m).load a = m.load a := by
  obtain ⟨hentries, htss, hgdtr⟩ := ha
  rw [load_gdtInitMem_entries htss hgdtr]
  exact load_tableOf inPlace_createSegment (gdtCalls_index o) hentries

theorem idtInit_vector : ∀ gate ∈ idtInit, gate.vector < 48 := by decide

theorem load_idtInitMem (ha : o.OutsideIdt a) : (idtInitMem o address m).load a = m.load a := by
  obtain ⟨hentries, hidtr⟩ := ha
  have hindex : ∀ e ∈ idtInit.map (fun gate => (gate.vector, gate)), e.1 < 48 := by
    rw [List.forall_mem_map]
    exact idtInit_vector
  rw [idtInitMem]
  simp only [load_storeField, IdtDescriptor.limit, IdtDescriptor.base]
  rw [if_neg (by omega), if_neg (by omega)]
  exact load_tableOf (inPlace_createGate address) hindex hentries

end

/-- No byte of an object is in another one. -/
theorem TableImage.size_le_offset (img : TableImage) {i j k : Nat} {x y : BitVec 32 × Nat} (hx : img.sizes[i]? = some x)
    (hy : img.sizes[j]? = some y) (hij : i ≠ j) (hk : k < x.2) : y.2 ≤ offset y.1 (x.1 + BitVec.ofNat 32 k) := by
  have hfitsx := img.fits x (List.mem_of_getElem? hx)
  have hfitsy := img.fits y (List.mem_of_getElem? hy)
  have hapart : x.1.toNat + x.2 ≤ y.1.toNat ∨ y.1.toNat + y.2 ≤ x.1.toNat := by
    obtain ⟨hi, rfl⟩ := List.getElem?_eq_some_iff.mp hx
    obtain ⟨hj, rfl⟩ := List.getElem?_eq_some_iff.mp hy
    rcases Nat.lt_or_gt_of_ne hij with h | h
    · exact List.pairwise_iff_getElem.mp img.apart i j hi hj h
    · exact (List.pairwise_iff_getElem.mp img.apart j i hj hi h).symm
  unfold offset
  bv_omega

/-! ## The global table made and loaded -/

/-- The descriptor that `gdt_create_entry` makes. -/
def segmentOf (x : SegmentArgs) : SegmentDescriptor :=
  { base := x.base, limit := x.limit.setWidth 20, type := x.type, flags := x.flags.extractLsb' 4 4 }

theorem segmentOf_tss (tss : BitVec 32) :
    segmentOf ⟨tss, BitVec.ofNat 32 (TssSegment.size - 1), 0x89, 0x10⟩ = ⟨tss, 103, 0x89, 1⟩ := by
  have hflags : (0x10 : BitVec 8).extractLsb' 4 4 = 1 := by decide
  rw [segmentOf, SegmentDescriptor.mk.injEq]
  exact ⟨rfl, rfl, rfl, hflags⟩

/-- The descriptors of the table, with these types of the kernel's segments and of the task. -/
def descriptors (o : TableObjects) (code data task : BitVec 8) : Nat → SegmentDescriptor
  | 0 => ⟨0, 0, 0, 0⟩
  | 1 => ⟨0, 0xFFFFF, code, 0xC⟩
  | 2 => ⟨0, 0xFFFFF, data, 0xC⟩
  | 3 => ⟨0, 0xFFFFF, 0xFA, 0xC⟩
  | 4 => ⟨0, 0xFFFFF, 0xF2, 0xC⟩
  | _ => ⟨o.tss, 103, task, 1⟩

/-- `GDTR` is loaded, the table has these types, the processor is at level 0, and memory is `m` but for the table. -/
structure GdtHeld (o : TableObjects) (m : Bytes 32) (code data task : BitVec 8) (p : Processor) : Prop where
  gdtr : p.gdtr = ⟨47, o.gdtEntries⟩
  cpl : p.cpl = 0
  entries : ∀ i < gdtSize, p.mem.segmentDescriptor (entryAddress o.gdtEntries i) = descriptors o code data task i
  outside : ∀ a, 8 * gdtSize ≤ offset o.gdtEntries a → p.mem.load a = m.load a

section

variable {img : TableImage} {m : Bytes 32} {code data task : BitVec 8} {p : Processor}

theorem gdtInitMem_entries (img : TableImage) (m : Bytes 32) {i : Nat} (hi : i < gdtSize) :
    (gdtInitMem img.toTableObjects m).segmentDescriptor (entryAddress img.gdtEntries i) =
      descriptors img.toTableObjects 0x9A 0x92 0x89 i := by
  have hsame : (tableOf createSegment img.gdtEntries (gdtCalls img.toTableObjects) m).SameAt
      (gdtInitMem img.toTableObjects m) (entryAddress img.gdtEntries i) 8 := by
    intro k hk
    have hbyte : entryAddress img.gdtEntries i + BitVec.ofNat 32 k = img.gdtEntries + BitVec.ofNat 32 (8 * i + k) := by
      rw [entryAddress, BitVec.ofNat_add, BitVec.add_assoc]
    have hlt : 8 * i + k < 8 * gdtSize := by omega
    have htss : 104 ≤ offset img.tss (img.gdtEntries + BitVec.ofNat 32 (8 * i + k)) :=
      img.size_le_offset (i := 1) (j := 2) rfl rfl (by decide) hlt
    have hgdtr : 6 ≤ offset img.gdtr (img.gdtEntries + BitVec.ofNat 32 (8 * i + k)) :=
      img.size_le_offset (i := 1) (j := 0) rfl rfl (by decide) hlt
    rw [hbyte]
    exact load_gdtInitMem_entries (.inr (by omega)) hgdtr
  have hdecode : ∀ e ∈ gdtCalls img.toTableObjects, ∀ m entry,
      (createSegment m entry e.2).segmentDescriptor entry = segmentOf e.2 := by
    intro e he m entry
    refine gdtCreateEntry_segmentDescriptor ?_
    revert e
    simp [gdtCalls]
  rw [hsame.segmentDescriptor, decode_tableOf inPlace_createSegment (fun _ _ _ h => h.segmentDescriptor) hdecode (by simp [gdtCalls])
    (gdtCalls_index _) (by decide) hi]
  simp only [gdtSize] at hi
  interval_cases i
  case «5» => exact segmentOf_tss img.tss
  all_goals rfl

theorem gdtHeld_lgdt (img : TableImage) {p : Processor} (hcpl : p.cpl = 0) (hmem : p.mem = gdtInitMem img.toTableObjects m) :
    GdtHeld img.toTableObjects p.mem 0x9A 0x92 0x89 (p.lgdt img.gdtr) where
  gdtr := Processor.tableRegister_storeField hmem
  cpl := hcpl
  entries := by
    intro i hi
    show p.mem.segmentDescriptor _ = _
    rw [hmem, gdtInitMem_entries img m hi]
  outside := fun _ _ => rfl

/-- The descriptor of a selector. -/
theorem find_eq {table : BitVec 32} (hgdtr : p.gdtr = ⟨47, table⟩) {selector : BitVec 16} {i : Nat}
    (hselector : selector.toNat = 8 * i) (hzero : i ≠ 0) (hi : i < gdtSize) : p.find selector = some (entryAddress table i) := by
  have hlocal : selector.getLsbD 2 = false := by
    rw [BitVec.getLsbD, hselector, Nat.testBit_eq_decide_div_mod_eq]
    simp
    omega
  simp only [gdtSize] at hi
  rw [Processor.find, hlocal, if_neg (by simp; omega), hgdtr, TableRegister.entry, hselector, Nat.mul_div_cancel_left i (by decide)]
  exact if_pos (by simp; omega)

/-- A descriptor is marked in the table. -/
theorem GdtHeld.mark (h : GdtHeld img.toTableObjects m code data task p) {i : Nat} (hi : i < gdtSize) {bits : BitVec 8}
    {code' data' task' : BitVec 8} (hmarked : descriptors img.toTableObjects code' data' task' i =
      { descriptors img.toTableObjects code data task i with
        type := (descriptors img.toTableObjects code data task i).type ||| bits })
    (hother : ∀ j < gdtSize, j ≠ i → descriptors img.toTableObjects code' data' task' j =
      descriptors img.toTableObjects code data task j) :
    GdtHeld img.toTableObjects m code' data' task' (p.mark (entryAddress img.gdtEntries i) bits) where
  gdtr := h.gdtr
  cpl := h.cpl
  entries := by
    intro j hj
    by_cases hji : j = i
    · subst hji
      rw [Processor.segmentDescriptor_mark, h.entries j hj, hmarked]
    · have hsame : p.mem.SameAt (p.mark (entryAddress img.gdtEntries i) bits).mem (entryAddress img.gdtEntries j) 8 := by
        intro k hk
        simp only [gdtSize] at hi hj
        rw [Processor.load_mark, if_neg]
        unfold entryAddress
        bv_omega
      rw [hsame.segmentDescriptor, h.entries j hj, hother j hj hji]
  outside := by
    intro a ha
    simp only [gdtSize] at hi ha
    have hne : a ≠ entryAddress img.gdtEntries i + 5 := by
      intro he
      rw [he] at ha
      unfold offset entryAddress at ha
      bv_omega
    rw [Processor.load_mark, if_neg hne]
    exact h.outside a ha

/-- The kernel's code, once it was entered. -/
def kernelCode : SegmentDescriptor := ⟨0, 0xFFFFF, 0x9B, 0xC⟩

/-- The kernel's data, once it was accessed. -/
def kernelData : SegmentDescriptor := ⟨0, 0xFFFFF, 0x93, 0xC⟩

/-- A register is loaded with the kernel's data. -/
theorem GdtHeld.mov (h : GdtHeld img.toTableObjects m code data task p) (hdata : data = 0x92 ∨ data = 0x93) {reg : SegmentRegister}
    (hreg : reg ≠ .cs) :
    ∃ q, p.mov reg 0x10 = some q ∧ GdtHeld img.toTableObjects m code 0x93 task q ∧
      q.segment = Function.update p.segment reg ⟨0x10, kernelData⟩ ∧ q.idtr = p.idtr := by
  have hfind : p.find 0x10 = some (entryAddress img.gdtEntries 2) := find_eq h.gdtr (i := 2) (by decide) (by decide) (by decide)
  have hentry : p.mem.segmentDescriptor (entryAddress img.gdtEntries 2) = ⟨0, 0xFFFFF, data, 0xC⟩ := h.entries 2 (by decide)
  have hloads : p.loads reg 0x10 ⟨0, 0xFFFFF, data, 0xC⟩ = true := by
    rw [Processor.loads, h.cpl]
    rcases hdata with rfl | rfl <;> cases reg <;> decide
  have hbits : data ||| 0x01 = 0x93 := by
    rcases hdata with rfl | rfl <;> decide
  have hmark : GdtHeld img.toTableObjects m code 0x93 task (p.mark (entryAddress img.gdtEntries 2) 0x01) := by
    refine h.mark (by decide) ?_ ?_
    · show (⟨0, 0xFFFFF, 0x93, 0xC⟩ : SegmentDescriptor) = ⟨0, 0xFFFFF, data ||| 0x01, 0xC⟩
      rw [hbits]
    · intro j _ hj
      unfold descriptors
      split <;> first | rfl | exact absurd rfl hj
  refine ⟨_, Processor.mov_eq hfind (by rw [hentry]; exact hloads), ⟨hmark.gdtr, ?_, hmark.entries, hmark.outside⟩, ?_, rfl⟩
  · show rpl (Function.update p.segment reg _ .cs).selector = 0
    rw [Function.update_of_ne (Ne.symm hreg)]
    exact h.cpl
  · show Function.update p.segment reg _ = _
    rw [hmark.entries 2 (by decide)]
    rfl

/-- The task register is loaded. -/
theorem GdtHeld.ltr (h : GdtHeld img.toTableObjects m code data 0x89 p) :
    ∃ q, p.ltr 0x28 = some q ∧ GdtHeld img.toTableObjects m code data 0x8B q ∧ q.task = some ⟨0x28, ⟨img.tss, 103, 0x8B, 1⟩⟩ ∧
      q.segment = p.segment ∧ q.idtr = p.idtr := by
  have hfind : p.find 0x28 = some (entryAddress img.gdtEntries 5) := find_eq h.gdtr (i := 5) (by decide) (by decide) (by decide)
  have hentry : p.mem.segmentDescriptor (entryAddress img.gdtEntries 5) = ⟨img.tss, 103, 0x89, 1⟩ := h.entries 5 (by decide)
  have hbits : (0x89 : BitVec 8) ||| 0x02 = 0x8B := by decide
  have hmark : GdtHeld img.toTableObjects m code data 0x8B (p.mark (entryAddress img.gdtEntries 5) 0x02) := by
    refine h.mark (by decide) ?_ ?_
    · show (⟨img.tss, 103, 0x8B, 1⟩ : SegmentDescriptor) = ⟨img.tss, 103, 0x89 ||| 0x02, 1⟩
      rw [hbits]
    · intro j hj hne
      simp only [gdtSize] at hj
      interval_cases j <;> first | rfl | exact absurd rfl hne
  refine ⟨_, Processor.ltr_eq hfind h.cpl ?_ ?_, ⟨hmark.gdtr, hmark.cpl, hmark.entries, hmark.outside⟩, ?_, rfl, rfl⟩
  · rw [hentry]
    show decide ((0x89 : BitVec 8).extractLsb' 0 5 = 0x09) = true
    decide
  · rw [hentry]
    show (0x89 : BitVec 8).getLsbD 7 = true
    decide
  · rw [hmark.entries 5 (by decide)]
    rfl

/-- The kernel's code is entered. -/
theorem GdtHeld.jmpFar (h : GdtHeld img.toTableObjects m 0x9A data task p) (flush : BitVec 32) :
    ∃ q, p.jmpFar 0x08 flush = some (q, flush) ∧ GdtHeld img.toTableObjects m 0x9B data task q ∧
      q.segment = Function.update p.segment .cs ⟨0x08, kernelCode⟩ ∧ q.task = p.task ∧ q.idtr = p.idtr := by
  have hfind : p.find 0x08 = some (entryAddress img.gdtEntries 1) := find_eq h.gdtr (i := 1) (by decide) (by decide) (by decide)
  have hentry : p.mem.segmentDescriptor (entryAddress img.gdtEntries 1) = ⟨0, 0xFFFFF, 0x9A, 0xC⟩ := h.entries 1 (by decide)
  have hlinear : SegmentDescriptor.linear ⟨0, 0xFFFFF, 0x9A, 0xC⟩ flush = some flush :=
    SegmentDescriptor.linear_flat rfl (by decide) flush
  have henters : p.enters ⟨0, 0xFFFFF, 0x9A, 0xC⟩ flush = true := by
    rw [Processor.enters, h.cpl, hlinear, Option.isSome_some, Bool.and_true]
    decide
  have hrpl : rpl 0x08 ≤ p.cpl := by
    rw [h.cpl]
    decide
  have hbits : (0x9A : BitVec 8) ||| 0x01 = 0x9B := by decide
  have hmark : GdtHeld img.toTableObjects m 0x9B data task (p.mark (entryAddress img.gdtEntries 1) 0x01) := by
    refine h.mark (by decide) ?_ ?_
    · show (⟨0, 0xFFFFF, 0x9B, 0xC⟩ : SegmentDescriptor) = ⟨0, 0xFFFFF, 0x9A ||| 0x01, 0xC⟩
      rw [hbits]
    · intro j _ hj
      unfold descriptors
      split <;> first | rfl | exact absurd rfl hj
  have hselector : (0x08 : BitVec 16).extractLsb' 2 14 ++ (0 : BitVec 2) = 0x08 := by decide
  have hsegment : (p.keep .cs ((0x08 : BitVec 16).extractLsb' 2 14 ++ p.cpl) (entryAddress img.gdtEntries 1)).segment =
      Function.update p.segment .cs ⟨0x08, kernelCode⟩ := by
    show Function.update p.segment .cs _ = _
    rw [hmark.entries 1 (by decide), h.cpl, hselector]
    rfl
  refine ⟨_, Processor.jmpFar_eq hfind (by rw [hentry]; exact henters) hrpl,
    ⟨hmark.gdtr, ?_, hmark.entries, hmark.outside⟩, hsegment, rfl, rfl⟩
  rw [Processor.cpl, hsegment, Function.update_self]
  decide

end

/-- What `gdt_init` leaves: all descriptors as they were made, but for the marks, the segments and the task loaded, and the stack segment
of level 0 in the task. -/
structure KernelSegments (o : TableObjects) (p : Processor) : Prop where
  gdtr : p.gdtr = ⟨47, o.gdtEntries⟩
  entries : ∀ i < gdtSize, p.mem.segmentDescriptor (entryAddress o.gdtEntries i) = descriptors o 0x9B 0x93 0x8B i
  segment : ∀ reg, p.segment reg = if reg = .cs then ⟨0x08, kernelCode⟩ else ⟨0x10, kernelData⟩
  task : p.task = some ⟨0x28, ⟨o.tss, 103, 0x8B, 1⟩⟩
  ss0 : p.mem.load (o.tss + 9) ++ p.mem.load (o.tss + 8) = (0x10 : BitVec 16)

/-- A segment register of the kernel gives every linear address. -/
theorem KernelSegments.linear {o : TableObjects} {p : Processor} (h : KernelSegments o p) (reg : SegmentRegister) (offset : BitVec 32) :
    (p.segment reg).descriptor.linear offset = some offset := by
  rw [h.segment]
  split
  · exact SegmentDescriptor.linear_flat rfl (by decide) offset
  · exact SegmentDescriptor.linear_flat rfl (by decide) offset

section

variable (img : TableImage)

theorem ss0_gdtInitMem (m : Bytes 32) : (gdtInitMem img.toTableObjects m).load (img.tss + 9) ++
    (gdtInitMem img.toTableObjects m).load (img.tss + 8) = (0x10 : BitVec 16) := by
  have hbyte : ∀ k : BitVec 32, 8 ≤ k.toNat → k.toNat < 10 → (gdtInitMem img.toTableObjects m).load (img.tss + k) =
      (0x10 : BitVec 16).extractLsb' (8 * (k.toNat - 8)) 8 := by
    intro k hlow hhigh
    have hgdtr : 6 ≤ offset img.gdtr (img.tss + BitVec.ofNat 32 k.toNat) :=
      img.size_le_offset (i := 2) (j := 0) rfl rfl (by decide) (show k.toNat < 104 by omega)
    have hss0 : TssSegment.ss0 = ⟨8, 2⟩ := rfl
    rw [BitVec.ofNat_toNat, BitVec.setWidth_eq] at hgdtr
    rw [gdtInitMem, hss0]
    simp only [load_storeField, GdtDescriptor.limit, GdtDescriptor.baseAddress, offset_add]
    rw [if_neg (by omega), if_neg (by omega), if_pos (by omega)]
  rw [hbyte 9 (by decide) (by decide), hbyte 8 (by decide) (by decide)]
  decide

/-- `gdt_init` gets through the loads of `load_gdt`. -/
theorem gdtInit_held (flush : BitVec 32) {p : Processor} (hcpl : p.cpl = 0) :
    ∃ q, gdtInit img.toTableObjects flush p = some q ∧ KernelSegments img.toTableObjects q ∧ q.idtr = p.idtr ∧
      ∀ a, img.OutsideGdt a → q.mem.load a = p.mem.load a := by
  have h0 := gdtHeld_lgdt img (p := { p with mem := gdtInitMem img.toTableObjects p.mem }) hcpl rfl
  obtain ⟨p1, e1, h1, s1, i1⟩ := h0.mov (.inl rfl) (show SegmentRegister.es ≠ .cs by decide)
  obtain ⟨p2, e2, h2, s2, i2⟩ := h1.mov (.inr rfl) (show SegmentRegister.ds ≠ .cs by decide)
  obtain ⟨p3, e3, h3, s3, i3⟩ := h2.mov (.inr rfl) (show SegmentRegister.fs ≠ .cs by decide)
  obtain ⟨p4, e4, h4, s4, i4⟩ := h3.mov (.inr rfl) (show SegmentRegister.gs ≠ .cs by decide)
  obtain ⟨p5, e5, h5, s5, i5⟩ := h4.mov (.inr rfl) (show SegmentRegister.ss ≠ .cs by decide)
  obtain ⟨p6, e6, h6, t6, s6, i6⟩ := h5.ltr
  obtain ⟨q, e7, h7, s7, t7, i7⟩ := h6.jmpFar flush
  have hrun : gdtInit img.toTableObjects flush p = some q := by
    simp only [gdtInit, loadGdt, e1, e2, e3, e4, e5, e6, e7, Option.bind_eq_bind, Option.bind_some, Option.pure_def]
  have hss0 : ∀ k : BitVec 32, k.toNat < 104 → 8 * gdtSize ≤ offset img.gdtEntries (img.tss + k) := by
    intro k hk
    have happart := img.size_le_offset (i := 2) (j := 1) rfl rfl (by decide) (show k.toNat < 104 from hk)
    rw [BitVec.ofNat_toNat, BitVec.setWidth_eq] at happart
    exact happart
  refine ⟨q, hrun, ⟨h7.gdtr, h7.entries, ?_, t7.trans t6, ?_⟩, ?_, ?_⟩
  · intro reg
    rw [s7, s6, s5, s4, s3, s2, s1]
    cases reg <;> rfl
  · rw [h7.outside _ (hss0 9 (by decide)), h7.outside _ (hss0 8 (by decide))]
    exact ss0_gdtInitMem img p.mem
  · rw [i7, i6, i5, i4, i3, i2, i1]
    rfl
  · intro a ha
    exact (h7.outside a ha.1).trans (load_gdtInitMem ha)

/-- Wherever the linker has put the tables, and whatever the memory holds, `gdt_init` gets through the loads of `load_gdt`: each segment
register then gives every linear address, the six descriptors, the task and its `SS0` are what they are meant to be, and nothing else
has changed. -/
theorem gdtInit_flat (flush : BitVec 32) (p : Processor) (hcpl : p.cpl = 0) :
    ∃ q, gdtInit img.toTableObjects flush p = some q ∧ KernelSegments img.toTableObjects q ∧
      (∀ reg offset, (q.segment reg).descriptor.linear offset = some offset) ∧ q.idtr = p.idtr ∧
      ∀ a, img.OutsideGdt a → q.mem.load a = p.mem.load a := by
  obtain ⟨q, hrun, hsegments, hidtr, houtside⟩ := gdtInit_held img flush hcpl
  exact ⟨q, hrun, hsegments, hsegments.linear, hidtr, houtside⟩

/-- Objects one after the other. -/
def smallObjects : TableObjects := ⟨0x1000, 0x1010, 0x1040, 0x10A8, 0x10B0⟩

theorem smallObjects_fits : ∀ o ∈ smallObjects.sizes, o.1.toNat + o.2 ≤ 2 ^ 32 := by decide

theorem smallObjects_apart :
    smallObjects.sizes.Pairwise (fun x y => x.1.toNat + x.2 ≤ y.1.toNat ∨ y.1.toNat + y.2 ≤ x.1.toNat) := by decide

def smallTables : TableImage := ⟨smallObjects, smallObjects_fits, smallObjects_apart⟩

/-- The processor as a boot loader may leave it. -/
def loaded : Processor where
  mem := fun _ => 0
  gdtr := ⟨23, 0x8000⟩
  idtr := ⟨0, 0⟩
  segment := fun reg => if reg = .cs then ⟨0x08, kernelCode⟩ else ⟨0x10, kernelData⟩
  task := none

theorem gdtInit_flat_loaded : loaded.cpl = 0 ∧
    ∃ q, gdtInit smallObjects 0xC0100000 loaded = some q ∧ KernelSegments smallObjects q ∧
      (∀ reg offset, (q.segment reg).descriptor.linear offset = some offset) ∧ q.idtr = loaded.idtr ∧
      ∀ a, smallObjects.OutsideGdt a → q.mem.load a = loaded.mem.load a :=
  ⟨by decide, gdtInit_flat smallTables 0xC0100000 loaded (by decide)⟩

end

/-! ## The interrupt table made and loaded -/

/-- The gate that `idt_create_entry` makes. -/
def gateOf (address : Label → BitVec 32) (gate : Gate) : GateDescriptor :=
  { base := address gate.base, selector := gate.segmentSelector, type := gate.type.setWidth 8, reserved := 0 }

/-- The tables are loaded, the kernel's code runs, and the gates are in the table, with no gate where there is to be none. -/
structure GatesHeld (o : TableObjects) (address : Label → BitVec 32) (p : Processor) : Prop where
  gdtr : p.gdtr = ⟨47, o.gdtEntries⟩
  idtr : p.idtr = ⟨2047, o.idt⟩
  cs : p.segment .cs = ⟨0x08, kernelCode⟩
  code : p.mem.segmentDescriptor (entryAddress o.gdtEntries 1) = kernelCode
  gate : ∀ i < idtSize, ∀ gate, idtInit.find? (fun gate => gate.vector = i) = some gate →
    p.mem.gateDescriptor (entryAddress o.idt i) = gateOf address gate
  absent : ∀ i < idtSize, idtInit.find? (fun gate => gate.vector = i) = none →
    (p.mem.gateDescriptor (entryAddress o.idt i)).present = false

/-- Two states of the processor have the same tables, and run the same code segment. -/
structure SameTables (o : TableObjects) (p q : Processor) : Prop where
  gdtr : q.gdtr = p.gdtr
  idtr : q.idtr = p.idtr
  cs : q.segment .cs = p.segment .cs
  gdt : p.mem.SameAt q.mem o.gdtEntries (8 * gdtSize)
  idt : p.mem.SameAt q.mem o.idt (8 * idtSize)

section

variable {img : TableImage} {address : Label → BitVec 32} {p q : Processor}

theorem gates_kind : ∀ gate ∈ idtInit, gate.segmentSelector = 0x08 ∧ gate.type = 0x8E := by decide

/-- An interrupt finds its gate, and the kernel's code from there. -/
theorem GatesHeld.interrupt (h : GatesHeld img.toTableObjects address p) (vector : BitVec 8) :
    p.interrupt vector =
      (idtInit.find? (fun gate => gate.vector = vector.toNat)).map (fun gate => (p, address gate.base)) := by
  have hlt := vector.isLt
  have hentry : p.idtr.entry vector.toNat = some (entryAddress img.idt vector.toNat) := by
    rw [h.idtr, TableRegister.entry]
    exact if_pos (by simp; omega)
  cases hgate : idtInit.find? (fun gate => gate.vector = vector.toNat) with
  | none => exact Processor.interrupt_none hentry (h.absent _ hlt hgate)
  | some gate =>
    obtain ⟨hselector, htype⟩ := gates_kind gate (List.mem_of_find?_eq_some hgate)
    have hfind : p.find (gateOf address gate).selector = some (entryAddress img.gdtEntries 1) := by
      have hindex : gate.segmentSelector.toNat = 8 * 1 := by
        rw [hselector]
        decide
      exact find_eq h.gdtr hindex (by decide) (by decide)
    have henters : p.enters kernelCode (address gate.base) = true := by
      have hlinear : kernelCode.linear (address gate.base) = some (address gate.base) :=
        SegmentDescriptor.linear_flat rfl (by decide) _
      rw [Processor.enters, hlinear, Processor.cpl, h.cs, Option.isSome_some, Bool.and_true]
      decide
    refine Processor.interrupt_same hentry (h.gate _ hlt gate hgate) ?_ hfind (by rw [h.code]; exact henters) ?_ ?_
    · simp only [gateOf, htype, GateDescriptor.present, GateDescriptor.interruptGate]
      decide
    · rw [h.cs, h.code, gateOf, hselector]
    · rw [h.code]
      decide

/-- The tables stay when their bytes do. -/
theorem GatesHeld.same (h : GatesHeld img.toTableObjects address p) (hsame : SameTables img.toTableObjects p q) :
    GatesHeld img.toTableObjects address q := by
  have hidt : ∀ i < idtSize, q.mem.gateDescriptor (entryAddress img.idt i) = p.mem.gateDescriptor (entryAddress img.idt i) := by
    intro i hi
    exact (hsame.idt.part (8 * i) (k := 8) (by omega)).gateDescriptor
  refine ⟨hsame.gdtr.trans h.gdtr, hsame.idtr.trans h.idtr, hsame.cs.trans h.cs, ?_, ?_, ?_⟩
  · exact (hsame.gdt.part 8 (k := 8) (by decide)).segmentDescriptor.trans h.code
  · intro i hi gate hgate
    exact (hidt i hi).trans (h.gate i hi gate hgate)
  · intro i hi hnone
    rw [hidt i hi]
    exact h.absent i hi hnone

theorem idtInit_nodup : (idtInit.map Gate.vector).Nodup := by decide

/-- The gates that `idt_init` makes in a table that was zero. -/
theorem idtInitMem_gates (m : Bytes 32) (hzero : ∀ k < 8 * idtSize, m.load (img.idt + BitVec.ofNat 32 k) = 0) {i : Nat}
    (hi : i < idtSize) :
    (∀ gate, idtInit.find? (fun gate => gate.vector = i) = some gate →
      (idtInitMem img.toTableObjects address m).gateDescriptor (entryAddress img.idt i) = gateOf address gate) ∧
    (idtInit.find? (fun gate => gate.vector = i) = none →
      ((idtInitMem img.toTableObjects address m).gateDescriptor (entryAddress img.idt i)).present = false) := by
  have hbyte : ∀ k < 8, entryAddress img.idt i + BitVec.ofNat 32 k = img.idt + BitVec.ofNat 32 (8 * i + k) := by
    intro k _
    rw [entryAddress, BitVec.ofNat_add, BitVec.add_assoc]
  have hsame : (tableOf (createGate address) img.idt (idtInit.map (fun gate => (gate.vector, gate))) m).SameAt
      (idtInitMem img.toTableObjects address m) (entryAddress img.idt i) 8 := by
    intro k hk
    have hidtr : 6 ≤ offset img.idtr (img.idt + BitVec.ofNat 32 (8 * i + k)) :=
      img.size_le_offset (i := 4) (j := 3) rfl rfl (by decide) (show 8 * i + k < 8 * idtSize by omega)
    rw [hbyte k hk, idtInitMem]
    simp only [load_storeField, IdtDescriptor.limit, IdtDescriptor.base]
    rw [if_neg (by omega), if_neg (by omega)]
  have hnodup : ((idtInit.map (fun gate => (gate.vector, gate))).map Prod.fst).Nodup := by
    rw [List.map_map]
    exact idtInit_nodup
  have hindex : ∀ e ∈ idtInit.map (fun gate => (gate.vector, gate)), e.1 < idtSize := by
    rw [List.forall_mem_map]
    exact fun gate hgate => Nat.lt_trans (idtInit_vector gate hgate) (by decide)
  rw [hsame.gateDescriptor, decode_tableOf (d := gateOf address) (inPlace_createGate address) (fun _ _ _ h => h.gateDescriptor)
    (fun _ _ _ _ => idtCreateEntry_gateDescriptor) hnodup hindex (by decide) hi, List.find?_map]
  constructor
  · intro gate hgate
    have hfound : idtInit.find? ((fun e : Nat × Gate => decide (e.1 = i)) ∘ fun gate => (gate.vector, gate)) = some gate := hgate
    rw [hfound]
    rfl
  · intro hnone
    have hfound : idtInit.find? ((fun e : Nat × Gate => decide (e.1 = i)) ∘ fun gate => (gate.vector, gate)) = none := hnone
    have htype : (m.gateDescriptor (entryAddress img.idt i)).type = 0 := by
      refine (m.type_segmentDescriptor _).trans ?_
      rw [show (5 : BitVec 32) = BitVec.ofNat 32 5 from rfl, hbyte 5 (by decide)]
      exact hzero _ (by omega)
    rw [hfound, Option.map_none, Option.elim_none, GateDescriptor.present, htype]
    decide

/-- After `gdt_init` and `idt_init` the gates are in the table. -/
theorem gatesHeld_idtInitLoaded (h : KernelSegments img.toTableObjects p)
    (hzero : ∀ k < 8 * idtSize, p.mem.load (img.idt + BitVec.ofNat 32 k) = 0) :
    GatesHeld img.toTableObjects address (idtInitLoaded img.toTableObjects address p) := by
  have hgates := fun i (hi : i < idtSize) => @idtInitMem_gates img address p.mem hzero i hi
  have hcode : p.mem.SameAt (idtInitMem img.toTableObjects address p.mem) (entryAddress img.gdtEntries 1) 8 := by
    intro k hk
    have hbyte : entryAddress img.gdtEntries 1 + BitVec.ofNat 32 k = img.gdtEntries + BitVec.ofNat 32 (8 + k) := by
      rw [entryAddress, BitVec.ofNat_add, BitVec.add_assoc]
    have hidt : 8 * idtSize ≤ offset img.idt (img.gdtEntries + BitVec.ofNat 32 (8 + k)) :=
      img.size_le_offset (i := 1) (j := 4) rfl rfl (by decide) (show 8 + k < 48 by omega)
    have hidtr : 6 ≤ offset img.idtr (img.gdtEntries + BitVec.ofNat 32 (8 + k)) :=
      img.size_le_offset (i := 1) (j := 3) rfl rfl (by decide) (show 8 + k < 48 by omega)
    rw [hbyte]
    exact load_idtInitMem ⟨Nat.le_trans (by decide) hidt, hidtr⟩
  have hidtr := Processor.tableRegister_storeField (p := { p with mem := idtInitMem img.toTableObjects address p.mem })
    (a := img.idtr) rfl
  refine ⟨h.gdtr, hidtr, ?_, ?_, fun i hi => (hgates i hi).1, fun i hi => (hgates i hi).2⟩
  · exact h.segment .cs
  · exact hcode.segmentDescriptor.trans (h.entries 1 (by decide))

/-- From `idt_init` on, as long as nothing is written to the two tables, an interrupt or an exception leads to the code of the gate that
`idt_init` has made for its vector, in the kernel's code segment, and where it has made none the processor finds none. -/
theorem vectors_delivered (img : TableImage) (address : Label → BitVec 32) (flush : BitVec 32) (p : Processor) (hcpl : p.cpl = 0)
    (hzero : ∀ k < 8 * idtSize, p.mem.load (img.idt + BitVec.ofNat 32 k) = 0) :
    ∃ q, (gdtInit img.toTableObjects flush p).map (idtInitLoaded img.toTableObjects address) = some q ∧
      ∀ r, SameTables img.toTableObjects q r → ∀ vector : BitVec 8, r.interrupt vector =
        (idtInit.find? (fun gate => gate.vector = vector.toNat)).map (fun gate => (r, address gate.base)) := by
  obtain ⟨q, hrun, hsegments, -, houtside⟩ := gdtInit_held img flush hcpl
  have hidt : ∀ k < 8 * idtSize, q.mem.load (img.idt + BitVec.ofNat 32 k) = 0 := by
    intro k hk
    have hgdt := img.size_le_offset (i := 4) (j := 1) rfl rfl (by decide) hk
    have htss : 104 ≤ _ := img.size_le_offset (i := 4) (j := 2) rfl rfl (by decide) hk
    have hgdtr := img.size_le_offset (i := 4) (j := 0) rfl rfl (by decide) hk
    exact (houtside _ ⟨hgdt, .inr (Nat.le_trans (by decide) htss), hgdtr⟩).trans (hzero k hk)
  refine ⟨_, congrArg (Option.map _) hrun, ?_⟩
  intro r hsame vector
  exact ((gatesHeld_idtInitLoaded hsegments hidt).same hsame).interrupt vector

/-- Addresses of the stubs, 16 bytes apart. -/
def smallAddress : Label → BitVec 32
  | .isr num => 0xC0100000 + BitVec.ofNat 32 (16 * num)
  | .irq num => 0xC0101000 + BitVec.ofNat 32 (16 * num)

theorem vectors_delivered_loaded : (∀ k < 8 * idtSize, loaded.mem.load (smallTables.idt + BitVec.ofNat 32 k) = 0) ∧
    ∃ q, (gdtInit smallTables.toTableObjects 0xC0100000 loaded).map (idtInitLoaded smallTables.toTableObjects smallAddress) = some q ∧
      ∀ r, SameTables smallTables.toTableObjects q r → ∀ vector : BitVec 8, r.interrupt vector =
        (idtInit.find? (fun gate => gate.vector = vector.toNat)).map (fun gate => (r, smallAddress gate.base)) :=
  ⟨fun _ _ => rfl, vectors_delivered smallTables smallAddress 0xC0100000 loaded (by decide) (fun _ _ => rfl)⟩

end

end LumOS
