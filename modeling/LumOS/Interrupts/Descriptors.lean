import LumOS.Lib.Descriptor

/-!
# Entries of the descriptor tables

`gdt_create_entry` of `gdt.c` and `idt_create_entry` of `idt.c`. Both structures are packed. An assignment promotes its operands to 32
bits and keeps the low bytes of the result, as many as the field has.
-/

namespace LumOS

open Bytes

namespace GdtEntry

def limitLow : PackedField := ⟨0, 2⟩
def baseLow : PackedField := ⟨2, 2⟩
def baseMid : PackedField := ⟨4, 1⟩
def type : PackedField := ⟨5, 1⟩
def limitHighFlags : PackedField := ⟨6, 1⟩
def baseHigh : PackedField := ⟨7, 1⟩

end GdtEntry

namespace IdtEntry

def baseLow : PackedField := ⟨0, 2⟩
def segmentSelector : PackedField := ⟨2, 2⟩
def reserved : PackedField := ⟨4, 1⟩
def type : PackedField := ⟨5, 1⟩
def baseHigh : PackedField := ⟨6, 2⟩

end IdtEntry

/-- `(uint8_t)x`, promoted -/
def uint8 (x : BitVec 32) : BitVec 32 := (x.setWidth 8).setWidth 32

/-- `(uint16_t)x`, promoted -/
def uint16 (x : BitVec 32) : BitVec 32 := (x.setWidth 16).setWidth 32

/-- `gdt_create_entry` -/
def gdtCreateEntry (m : Bytes 32) (entry base limit : BitVec 32) (type flags : BitVec 8) : Bytes 32 :=
  let m := m.storeField entry GdtEntry.baseLow (uint16 base &&& 0x0000FFFF)
  let m := m.storeField entry GdtEntry.baseMid (uint8 (base >>> 16) &&& 0x000000FF)
  let m := m.storeField entry GdtEntry.baseHigh (uint8 (base >>> 24) &&& 0x000000FF)
  let m := m.storeField entry GdtEntry.limitLow (uint16 limit &&& 0x0000FFFF)
  let m := m.storeField entry GdtEntry.limitHighFlags (uint8 (limit >>> 16) &&& 0x0000000F)
  let m := m.storeField entry GdtEntry.limitHighFlags
    ((m.loadByte entry GdtEntry.limitHighFlags).setWidth 32 ||| flags.setWidth 32)
  m.storeField entry GdtEntry.type type

/-- `idt_create_entry` -/
def idtCreateEntry (m : Bytes 32) (entry base : BitVec 32) (segmentSelector type : BitVec 16) : Bytes 32 :=
  let m := m.storeField entry IdtEntry.baseLow (uint16 base &&& 0x0000FFFF)
  let m := m.storeField entry IdtEntry.baseHigh (uint16 (base >>> 16) &&& 0x0000FFFF)
  let m := m.storeField entry IdtEntry.segmentSelector segmentSelector
  let m := m.storeField entry IdtEntry.type type
  m.storeField entry IdtEntry.reserved (0 : BitVec 32)

theorem getLsbD_ones (k i : Nat) (hi : i < 32) : (BitVec.ofNat 32 (2 ^ k - 1)).getLsbD i = decide (i < k) := by
  rw [BitVec.getLsbD_ofNat, Nat.testBit_two_pow_sub_one, decide_eq_true hi, Bool.true_and]

theorem getLsbD_nibble {i : Nat} (hi : i < 32) : (15#32).getLsbD i = decide (i < 4) := getLsbD_ones 4 i hi

theorem getLsbD_uint8 (x : BitVec 32) {i : Nat} (hi : i < 32) : (uint8 x).getLsbD i = (x.getLsbD i && decide (i < 8)) := by
  rw [uint8, BitVec.getLsbD_setWidth, BitVec.getLsbD_setWidth, decide_eq_true hi, Bool.true_and, Bool.and_comm]

theorem getLsbD_uint16 (x : BitVec 32) {i : Nat} (hi : i < 32) : (uint16 x).getLsbD i = (x.getLsbD i && decide (i < 16)) := by
  rw [uint16, BitVec.getLsbD_setWidth, BitVec.getLsbD_setWidth, decide_eq_true hi, Bool.true_and, Bool.and_comm]

/-- The mask after the cast to 8 bits takes nothing away. -/
theorem uint8_and (x : BitVec 32) : uint8 x &&& 0x000000FF = uint8 x := by
  apply BitVec.eq_of_getLsbD_eq
  intro i hi
  rw [BitVec.getLsbD_and, show (0x000000FF : BitVec 32) = BitVec.ofNat 32 (2 ^ 8 - 1) from rfl, getLsbD_ones 8 i hi,
    getLsbD_uint8 x hi, Bool.and_assoc, Bool.and_self]

/-- Nor does the mask after the cast to 16 bits. -/
theorem uint16_and (x : BitVec 32) : uint16 x &&& 0x0000FFFF = uint16 x := by
  apply BitVec.eq_of_getLsbD_eq
  intro i hi
  rw [BitVec.getLsbD_and, show (0x0000FFFF : BitVec 32) = BitVec.ofNat 32 (2 ^ 16 - 1) from rfl, getLsbD_ones 16 i hi,
    getLsbD_uint16 x hi, Bool.and_assoc, Bool.and_self]

/-- A byte whose low nibble is zero. -/
theorem getLsbD_of_and_nibble {x : BitVec 8} (h : x &&& 0x0F = 0) {i : Nat} (hi : i < 4) : x.getLsbD i = false := by
  have hbit : (x &&& 0x0F).getLsbD i = (0 : BitVec 8).getLsbD i := by rw [h]
  have hmask : (0x0F : BitVec 8).getLsbD i = true := by
    rw [show (0x0F : BitVec 8) = BitVec.ofNat 8 (2 ^ 4 - 1) from rfl, BitVec.getLsbD_ofNat, Nat.testBit_two_pow_sub_one,
      decide_eq_true hi, decide_eq_true (Nat.lt_trans hi (by omega))]
    rfl
  rw [BitVec.getLsbD_and, hmask, Bool.and_true] at hbit
  exact hbit.trans BitVec.getLsbD_zero

section

variable {m : Bytes 32} {entry base limit : BitVec 32} {type flags : BitVec 8} {segmentSelector kind : BitVec 16}

theorem gdtCreateEntry_low {i : Nat} (hi : i < 32) :
    ((gdtCreateEntry m entry base limit type flags).double entry).getLsbD i =
      if i < 16 then limit.getLsbD i else base.getLsbD (i - 16) := by
  rw [getLsbD_double, gdtCreateEntry, uint16_and, uint16_and, uint8_and, uint8_and]
  simp [load_storeField, GdtEntry.baseLow, GdtEntry.baseMid, GdtEntry.baseHigh, GdtEntry.limitLow,
    GdtEntry.limitHighFlags, GdtEntry.type]
  grind [getLsbD_uint16]

theorem gdtCreateEntry_high {i : Nat} (hi : i < 32) (hflags : ∀ i < 4, flags.getLsbD i = false) :
    ((gdtCreateEntry m entry base limit type flags).double (entry + 4)).getLsbD i =
      if i < 8 then base.getLsbD (i + 16)
      else if i < 16 then type.getLsbD (i - 8)
      else if i < 20 then limit.getLsbD i
      else if i < 24 then flags.getLsbD (i - 16)
      else base.getLsbD i := by
  rw [getLsbD_double, gdtCreateEntry, uint16_and, uint16_and, uint8_and, uint8_and]
  simp [load_storeField, GdtEntry.baseLow, GdtEntry.baseMid, GdtEntry.baseHigh, GdtEntry.limitLow,
    GdtEntry.limitHighFlags, GdtEntry.type, loadByte, BitVec.add_assoc, getLsbD_nibble (show i - 16 < 32 by omega)]
  grind [getLsbD_uint8]

theorem idtCreateEntry_low {i : Nat} (hi : i < 32) :
    ((idtCreateEntry m entry base segmentSelector kind).double entry).getLsbD i =
      if i < 16 then base.getLsbD i else segmentSelector.getLsbD (i - 16) := by
  rw [getLsbD_double, idtCreateEntry, uint16_and, uint16_and]
  simp [load_storeField, IdtEntry.baseLow, IdtEntry.segmentSelector, IdtEntry.reserved, IdtEntry.type, IdtEntry.baseHigh]
  grind [getLsbD_uint16]

theorem idtCreateEntry_high {i : Nat} (hi : i < 32) :
    ((idtCreateEntry m entry base segmentSelector kind).double (entry + 4)).getLsbD i =
      if i < 8 then false else if i < 16 then kind.getLsbD (i - 8) else base.getLsbD i := by
  rw [getLsbD_double, idtCreateEntry, uint16_and, uint16_and]
  simp [load_storeField, IdtEntry.baseLow, IdtEntry.segmentSelector, IdtEntry.reserved, IdtEntry.type, IdtEntry.baseHigh,
    BitVec.add_assoc]
  grind [getLsbD_uint16]

/-- The descriptor that `gdt_create_entry` leaves. -/
theorem gdtCreateEntry_segmentDescriptor (hflags : flags &&& 0x0F = 0) :
    (gdtCreateEntry m entry base limit type flags).segmentDescriptor entry =
      { base := base, limit := limit.setWidth 20, type := type, flags := flags.extractLsb' 4 4 } := by
  apply SegmentDescriptor.ofDoubles_eq
  · intro i hi
    rw [gdtCreateEntry_low hi]
    grind
  · intro i hi
    rw [gdtCreateEntry_high hi (fun j hj => getLsbD_of_and_nibble hflags hj)]
    grind

/-- The gate that `idt_create_entry` leaves. -/
theorem idtCreateEntry_gateDescriptor :
    (idtCreateEntry m entry base segmentSelector kind).gateDescriptor entry =
      { base := base, selector := segmentSelector, type := kind.setWidth 8, reserved := 0 } := by
  apply GateDescriptor.ofDoubles_eq
  · intro i hi
    exact idtCreateEntry_low hi
  · intro i hi
    rw [idtCreateEntry_high hi]
    grind

end

/-- The fields of `struct gdtEntry` and of `struct idtEntry` lie in the 8 bytes of the entry. -/
theorem createEntry_frame (m : Bytes 32) {entry a : BitVec 32} (ha : 8 ≤ offset entry a) (base limit : BitVec 32)
    (type flags : BitVec 8) (segmentSelector kind : BitVec 16) :
    (gdtCreateEntry m entry base limit type flags).load a = m.load a ∧
      (idtCreateEntry m entry base segmentSelector kind).load a = m.load a := by
  constructor
  · simp only [gdtCreateEntry, load_storeField, GdtEntry.baseLow, GdtEntry.baseMid, GdtEntry.baseHigh, GdtEntry.limitLow,
      GdtEntry.limitHighFlags, GdtEntry.type]
    grind
  · simp only [idtCreateEntry, load_storeField, IdtEntry.baseLow, IdtEntry.segmentSelector, IdtEntry.reserved, IdtEntry.type,
      IdtEntry.baseHigh]
    grind

/-- Whatever the entry held before, the processor finds in it what it was created from. -/
theorem createEntry_decoded (m : Bytes 32) (entry base : BitVec 32) :
    (∀ (limit : BitVec 32) (type flags : BitVec 8), flags &&& 0x0F = 0 →
      ((gdtCreateEntry m entry base limit type flags).segmentDescriptor entry).base = base ∧
      ((gdtCreateEntry m entry base limit type flags).segmentDescriptor entry).limit.toNat = limit.toNat % 2 ^ 20 ∧
      ((gdtCreateEntry m entry base limit type flags).segmentDescriptor entry).type = type ∧
      ((gdtCreateEntry m entry base limit type flags).segmentDescriptor entry).flags ++ (0 : BitVec 4) = flags) ∧
    ∀ segmentSelector type : BitVec 16, type.toNat < 256 →
      ((idtCreateEntry m entry base segmentSelector type).gateDescriptor entry).base = base ∧
      ((idtCreateEntry m entry base segmentSelector type).gateDescriptor entry).selector = segmentSelector ∧
      ((idtCreateEntry m entry base segmentSelector type).gateDescriptor entry).type.toNat = type.toNat ∧
      ((idtCreateEntry m entry base segmentSelector type).gateDescriptor entry).reserved = 0 := by
  constructor
  · intro limit type flags hflags
    rw [gdtCreateEntry_segmentDescriptor hflags]
    refine ⟨rfl, BitVec.toNat_setWidth 20 limit, rfl, ?_⟩
    apply BitVec.eq_of_getLsbD_eq
    intro i hi
    have hlow := fun h => getLsbD_of_and_nibble hflags (i := i) h
    rw [BitVec.getLsbD_append]
    grind
  · intro segmentSelector type htype
    rw [idtCreateEntry_gateDescriptor]
    refine ⟨rfl, rfl, ?_, rfl⟩
    rw [BitVec.toNat_setWidth, Nat.mod_eq_of_lt htype]

/-- An entry that held all ones, made the descriptor of the kernel's code and a gate to it. -/
theorem createEntry_decoded_kernelCode :
    ((gdtCreateEntry (fun _ => 0xFF) 0x1000 0 0xFFFFFFFF 0x9A 0xC0).segmentDescriptor 0x1000).flags ++ (0 : BitVec 4) = (0xC0 : BitVec 8) ∧
      ((idtCreateEntry (fun _ => 0xFF) 0x1000 0xC0101234 0x08 0x8E).gateDescriptor 0x1000).base = 0xC0101234 := by
  obtain ⟨hgdt, -⟩ := createEntry_decoded (fun _ => 0xFF) 0x1000 0
  obtain ⟨-, hidt⟩ := createEntry_decoded (fun _ => 0xFF) 0x1000 0xC0101234
  exact ⟨(hgdt 0xFFFFFFFF 0x9A 0xC0 (by decide)).2.2.2, (hidt 0x08 0x8E (by decide)).1⟩

end LumOS
