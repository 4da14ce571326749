import LumOS.Lib.Bytes

/-!
# Descriptors of the 80386

Packed structures in a memory of bytes, the least significant byte of a field first, and the two kinds of descriptors that the
processor reads from its tables. A descriptor is two doublewords. Its base is in pieces, and so is the limit of a segment descriptor.

A field is a range of offsets: what a store leaves at an offset is `load_storeField`, and a doubleword has the bits of its four bytes
(`getLsbD_double`).
-/

/-- A field of a packed structure, in bytes. -/
structure PackedField where
  offset : Nat
  size : Nat

namespace Bytes

variable {w v : Nat}

/-- The assignment of a value to a field of the structure at `p`: its low bytes, as many as the field has. -/
def storeField (m : Bytes w) (p : BitVec w) (f : PackedField) (x : BitVec v) : Bytes w := fun a =>
  if f.offset ≤ offset p a ∧ offset p a < f.offset + f.size then x.extractLsb' (8 * (offset p a - f.offset)) 8 else m a

/-- A field of one byte. -/
def loadByte (m : Bytes w) (p : BitVec w) (f : PackedField) : BitVec 8 := m.load (p + BitVec.ofNat w f.offset)

/-- The doubleword at an address. -/
def double (m : Bytes w) (a : BitVec w) : BitVec 32 :=
  m.load (a + 3) ++ m.load (a + 2) ++ m.load (a + 1) ++ m.load a

@[simp] theorem offset_self (p : BitVec w) : offset p p = 0 := by
  rw [offset, BitVec.sub_self]
  rfl

theorem load_storeField (m : Bytes w) (p a : BitVec w) (f : PackedField) (x : BitVec v) :
    (m.storeField p f x).load a =
      if f.offset ≤ offset p a ∧ offset p a < f.offset + f.size then x.extractLsb' (8 * (offset p a - f.offset)) 8
      else m.load a := rfl

theorem getLsbD_double (m : Bytes w) (a : BitVec w) (i : Nat) :
    (m.double a).getLsbD i =
      if i < 8 then (m.load a).getLsbD i
      else if i < 16 then (m.load (a + 1)).getLsbD (i - 8)
      else if i < 24 then (m.load (a + 2)).getLsbD (i - 16)
      else (m.load (a + 3)).getLsbD (i - 24) := by
  show (m.load (a + 3) ++ m.load (a + 2) ++ m.load (a + 1) ++ m.load a).getLsbD i = _
  rw [BitVec.getLsbD_append, BitVec.getLsbD_append, BitVec.getLsbD_append]
  split_ifs <;> first | rfl | omega

end Bytes

/-- What a segment descriptor says. -/
structure SegmentDescriptor where
  base : BitVec 32
  limit : BitVec 20
  /-- Type, S, DPL and P. -/
  type : BitVec 8
  /-- AVL, 0, D/B and G. -/
  flags : BitVec 4
deriving DecidableEq

/-- The segment descriptor in two doublewords. -/
def SegmentDescriptor.ofDoubles (low high : BitVec 32) : SegmentDescriptor where
  base := high.extractLsb' 24 8 ++ high.extractLsb' 0 8 ++ low.extractLsb' 16 16
  limit := high.extractLsb' 16 4 ++ low.extractLsb' 0 16
  type := high.extractLsb' 8 8
  flags := high.extractLsb' 20 4

/-- What a gate says. -/
structure GateDescriptor where
  base : BitVec 32
  selector : BitVec 16
  /-- Type, 0, DPL and P. -/
  type : BitVec 8
  reserved : BitVec 8
deriving DecidableEq

/-- The gate in two doublewords. -/
def GateDescriptor.ofDoubles (low high : BitVec 32) : GateDescriptor where
  base := high.extractLsb' 16 16 ++ low.extractLsb' 0 16
  selector := low.extractLsb' 16 16
  type := high.extractLsb' 8 8
  reserved := high.extractLsb' 0 8

/-- The bits of a word from a place on. -/
theorem extractLsb'_eq_of_getLsbD {w n s : Nat} {x : BitVec w} {y : BitVec n} (h : ∀ i < n, x.getLsbD (s + i) = y.getLsbD i) :
    x.extractLsb' s n = y := by
  apply BitVec.eq_of_getLsbD_eq
  intro i hi
  rw [BitVec.getLsbD_extractLsb', decide_eq_true hi, Bool.true_and, h i hi]

section

variable {low high : BitVec 32} {d : SegmentDescriptor} {g : GateDescriptor}

/-- A segment descriptor, when the two doublewords have its bits. -/
theorem SegmentDescriptor.ofDoubles_eq
    (hlow : ∀ i < 32, low.getLsbD i = if i < 16 then d.limit.getLsbD i else d.base.getLsbD (i - 16))
    (hhigh : ∀ i < 32, high.getLsbD i =
      if i < 8 then d.base.getLsbD (i + 16)
      else if i < 16 then d.type.getLsbD (i - 8)
      else if i < 20 then d.limit.getLsbD i
      else if i < 24 then d.flags.getLsbD (i - 20)
      else d.base.getLsbD i) :
    SegmentDescriptor.ofDoubles low high = d := by
  have hbase : high.extractLsb' 24 8 ++ high.extractLsb' 0 8 ++ low.extractLsb' 16 16 = d.base := by
    apply BitVec.eq_of_getLsbD_eq
    intro i hi
    rw [BitVec.getLsbD_append, BitVec.getLsbD_append]
    simp only [BitVec.getLsbD_extractLsb']
    grind
  have hlimit : high.extractLsb' 16 4 ++ low.extractLsb' 0 16 = d.limit := by
    apply BitVec.eq_of_getLsbD_eq
    intro i hi
    rw [BitVec.getLsbD_append]
    simp only [BitVec.getLsbD_extractLsb']
    grind
  have htype : high.extractLsb' 8 8 = d.type := by
    apply extractLsb'_eq_of_getLsbD
    intro i hi
    grind
  have hflags : high.extractLsb' 20 4 = d.flags := by
    apply extractLsb'_eq_of_getLsbD
    intro i hi
    grind
  cases d
  rw [SegmentDescriptor.ofDoubles]
  congr

/-- A gate, when the two doublewords have its bits. -/
theorem GateDescriptor.ofDoubles_eq
    (hlow : ∀ i < 32, low.getLsbD i = if i < 16 then g.base.getLsbD i else g.selector.getLsbD (i - 16))
    (hhigh : ∀ i < 32, high.getLsbD i =
      if i < 8 then g.reserved.getLsbD i else if i < 16 then g.type.getLsbD (i - 8) else g.base.getLsbD i) :
    GateDescriptor.ofDoubles low high = g := by
  have hbase : high.extractLsb' 16 16 ++ low.extractLsb' 0 16 = g.base := by
    apply BitVec.eq_of_getLsbD_eq
    intro i hi
    rw [BitVec.getLsbD_append]
    simp only [BitVec.getLsbD_extractLsb']
    grind
  have hselector : low.extractLsb' 16 16 = g.selector := by
    apply extractLsb'_eq_of_getLsbD
    intro i hi
    grind
  have htype : high.extractLsb' 8 8 = g.type := by
    apply extractLsb'_eq_of_getLsbD
    intro i hi
    grind
  have hreserved : high.extractLsb' 0 8 = g.reserved := by
    apply extractLsb'_eq_of_getLsbD
    intro i hi
    grind
  cases g
  rw [GateDescriptor.ofDoubles]
  congr

end

namespace Bytes

variable {w : Nat}

/-- The segment descriptor at an address. -/
def segmentDescriptor (m : Bytes w) (a : BitVec w) : SegmentDescriptor :=
  SegmentDescriptor.ofDoubles (m.double a) (m.double (a + 4))

/-- The gate at an address. -/
def gateDescriptor (m : Bytes w) (a : BitVec w) : GateDescriptor :=
  GateDescriptor.ofDoubles (m.double a) (m.double (a + 4))

end Bytes
