import LumOS.Pmm.Safety
import Mathlib.Order.Bounds.Defs

/-!
# First fit

`pmm_alloc` on any list of zones in memory, wherever their headers and bitmaps are. In the first zone whose counter is not 0 it takes the
block of the least unset bit, and without such a bit, or without such a zone, it returns `NULL` and leaves the memory as it is
(`alloc_first_fit`). The offset of the word scan has 32 bits: in a full bitmap that reaches into the last word there could be it wraps
around, and the scan never ends (`alloc_scan_wraps`).
-/

namespace LumOS

open Comp

/-! ## Lists of zones -/

/-- The zones of the list that starts at `zone`. -/
inductive ZoneChain (m : Mem) : BitVec 32 → List (BitVec 32) → Prop where
  | nil : ZoneChain m 0 []
  | cons {zone : BitVec 32} {qs : List (BitVec 32)} (h : zone ≠ 0) (rest : ZoneChain m (zoneField m zone .nextZone) qs) :
      ZoneChain m zone (zone :: qs)

/-- The bytes of a zone's header. -/
def headerBytes (q : BitVec 32) : Set Nat := Set.Ico q.toNat (q.toNat + 4 * 8)

/-- The bytes of a zone's bitmap. -/
def bitmapBytes (m : Mem) (q : BitVec 32) : Set Nat :=
  Set.Ico (zoneField m q .bitmap).toNat ((zoneField m q .bitmap).toNat + 4 * (zoneField m q .bitmapWords).toNat)

/-- The headers and the bitmaps end below the end of the address space and do not overlap. -/
structure ZonesApart (m : Mem) (qs : List (BitVec 32)) : Prop where
  header_le : ∀ q ∈ qs, q.toNat + 4 * 8 ≤ 2 ^ 32
  bitmap_le : ∀ q ∈ qs, (zoneField m q .bitmap).toNat + 4 * (zoneField m q .bitmapWords).toNat ≤ 2 ^ 32
  headers : ∀ q ∈ qs, ∀ r ∈ qs, q ≠ r → Disjoint (headerBytes q) (headerBytes r)
  bitmaps : ∀ q ∈ qs, ∀ r ∈ qs, q ≠ r → Disjoint (bitmapBytes m q) (bitmapBytes m r)
  both : ∀ q ∈ qs, ∀ r ∈ qs, Disjoint (headerBytes q) (bitmapBytes m r)

/-- The search for a block starts at offset 0, the bitmap has a bit for each block, and the bits that stand for no block are set. -/
structure PaddedZone (m : Mem) (q : BitVec 32) : Prop where
  hint : zoneField m q .lastOffset = 0
  covers : (zoneField m q .length).toNat ≤ 32 * (zoneField m q .bitmapWords).toNat
  padding : ∀ i, (zoneField m q .length).toNat ≤ i → i < 32 * (zoneField m q .bitmapWords).toNat → zoneBit m q i = true

/-- The first zone whose counter is not 0. -/
def firstZone (m : Mem) (qs : List (BitVec 32)) : Option (BitVec 32) := qs.find? (fun q => zoneField m q .free ≠ 0)

/-- The bits of a zone's bitmap that are not set. -/
def clearBits (m : Mem) (q : BitVec 32) : Set Nat :=
  {i | i < 32 * (zoneField m q .bitmapWords).toNat ∧ zoneBit m q i = false}

/-- Block `i` of the zone `z` is taken: its bit is set, the zone's counter goes down by one, and no other bit and no other field of a zone
is changed. -/
structure TakesBlock (m m' : Mem) (qs : List (BitVec 32)) (z : BitVec 32) (i : Nat) : Prop where
  bit : zoneBit m' z i = true
  free : zoneField m' z .free = zoneField m z .free - 1
  bits : ∀ q ∈ qs, ∀ j < 32 * (zoneField m q .bitmapWords).toNat, (q, j) ≠ (z, i) → zoneBit m' q j = zoneBit m q j
  fields : ∀ q ∈ qs, ∀ f, (q, f) ≠ (z, .free) → zoneField m' q f = zoneField m q f

/-! ## What `pmm_alloc` looks for -/

section

variable {m : Mem} {zone z : BitVec 32} {qs : List (BitVec 32)}

/-- The search along the list ends at the first zone whose counter is not 0, or with `NULL`. -/
theorem ZoneChain.search (h : ZoneChain m zone qs) :
    Returns (loop (fun zone => zone ≠ 0 ∧ zoneField m zone .free = 0) (fun zone => pure (zoneField m zone .nextZone)) zone)
      ((firstZone m qs).getD 0) := by
  induction h with
  | nil => exact returns_loop_exit (decide_eq_false (fun h => h.1 rfl))
  | @cons zone qs hne _ ih =>
    by_cases hfree : zoneField m zone .free = 0
    · have hrest : firstZone m (zone :: qs) = firstZone m qs := by
        rw [firstZone, List.find?_cons_of_neg (by simpa using hfree), firstZone]
      rw [hrest]
      exact returns_loop_turn (decide_eq_true ⟨hne, hfree⟩) (returns_pure.mpr rfl) ih
    · have hfirst : firstZone m (zone :: qs) = some zone := by
        rw [firstZone, List.find?_cons_of_pos (by simpa using hfree)]
      rw [hfirst]
      exact returns_loop_exit (decide_eq_false (fun h => hfree h.2))

theorem ZoneChain.ne_zero (h : ZoneChain m zone qs) : ∀ q ∈ qs, q ≠ 0 := by
  induction h with
  | nil => exact fun q hq => absurd hq List.not_mem_nil
  | cons hne _ ih => exact List.forall_mem_cons.mpr ⟨hne, ih⟩

theorem firstZone_mem (h : firstZone m qs = some z) : z ∈ qs := List.mem_of_find?_eq_some h

/-- The first bit that is not set. -/
theorem isLeast_clearBits {i : Nat} (hi : i < 32 * (zoneField m z .bitmapWords).toNat) (hu : zoneBit m z i = false)
    (hbefore : ∀ j < i, zoneBit m z j = true) : IsLeast (clearBits m z) i := by
  refine ⟨⟨hi, hu⟩, ?_⟩
  rintro j ⟨_, hj⟩
  by_contra hlt
  rw [hbefore j (by omega)] at hj
  cases hj

theorem clearBits_eq_empty (h : ∀ i < 32 * (zoneField m z .bitmapWords).toNat, zoneBit m z i = true) : clearBits m z = ∅ := by
  rw [Set.eq_empty_iff_forall_notMem]
  rintro i ⟨hi, hunset⟩
  rw [h i hi] at hunset
  cases hunset

end

/-! ## The two stores -/

/-- Words of arrays that do not overlap have different addresses. -/
theorem cell_ne_of_disjoint {p q : BitVec 32} {i j n l : Nat} (hp : p.toNat + 4 * n ≤ 2 ^ 32) (hq : q.toNat + 4 * l ≤ 2 ^ 32)
    (hd : Disjoint (Set.Ico p.toNat (p.toNat + 4 * n)) (Set.Ico q.toNat (q.toNat + 4 * l))) (hi : i < n) (hj : j < l) :
    Mem.cell p i ≠ Mem.cell q j := by
  intro he
  have hnat := congrArg BitVec.toNat he
  rw [Mem.toNat_cell (by omega), Mem.toNat_cell (by omega)] at hnat
  have hin : p.toNat + 4 * i ∈ Set.Ico p.toNat (p.toNat + 4 * n) := ⟨by omega, by omega⟩
  exact Set.disjoint_left.mp hd hin ⟨by omega, by omega⟩

section

variable {m : Mem} {z q : BitVec 32} {qs : List (BitVec 32)} {i : BitVec 32}

/-- The address of the word in which `set_bit` sets a bit. -/
theorem setBit_eq (m : Mem) (bitmap i : BitVec 32) : setBit m bitmap i = m.store (Mem.cell bitmap (i.toNat / 32))
    (m.load (Mem.cell bitmap (i.toNat / 32)) ||| 1#32 <<< (i % word).toNat) := by
  rw [setBit, word_addr_zero]

/-- Setting a bit of a zone's bitmap changes no field. -/
theorem ZonesApart.zoneField_setBit (h : ZonesApart m qs) (hz : z ∈ qs) (hi : i.toNat < 32 * (zoneField m z .bitmapWords).toNat)
    (hq : q ∈ qs) (f : Field) : zoneField (setBit m (zoneField m z .bitmap) i) q f = zoneField m q f := by
  have hne := cell_ne_of_disjoint (h.header_le q hq) (h.bitmap_le z hz) (h.both q hq z hz) f.index_lt
    (show i.toNat / 32 < (zoneField m z .bitmapWords).toNat by omega)
  rw [setBit_eq, zoneField, Mem.load_store_of_ne m _ hne, ← zoneField]

/-- Setting a bit of a zone's bitmap changes no other bit. -/
theorem ZonesApart.zoneBit_setBit (h : ZonesApart m qs) (hz : z ∈ qs) (hi : i.toNat < 32 * (zoneField m z .bitmapWords).toNat)
    (hq : q ∈ qs) {j : Nat} (hj : j < 32 * (zoneField m q .bitmapWords).toNat) :
    zoneBit (setBit m (zoneField m z .bitmap) i) q j = if q = z ∧ j = i.toNat then true else zoneBit m q j := by
  have hcells : Mem.cells = 2 ^ 30 := rfl
  rw [zoneBit, h.zoneField_setBit hz hi hq, zoneBit]
  by_cases he : q = z
  · subst he
    have hle := h.bitmap_le q hq
    rw [bit_setBit_zero m _ i (by omega) (by omega)]
    by_cases hji : j = i.toNat
    · rw [if_pos hji, if_pos ⟨rfl, hji⟩]
    · rw [if_neg hji, if_neg (fun h => hji h.2)]
  · have hne := cell_ne_of_disjoint (h.bitmap_le q hq) (h.bitmap_le z hz) (h.bitmaps q hq z hz he)
      (show j / 32 < (zoneField m q .bitmapWords).toNat by omega) (show i.toNat / 32 < (zoneField m z .bitmapWords).toNat by omega)
    rw [if_neg (fun h => he h.1), Mem.bit, setBit_eq, Mem.load_store_of_ne m _ hne, ← Mem.bit]

/-- A write to a counter changes no other field. -/
theorem ZonesApart.zoneField_setFree (h : ZonesApart m qs) (hz : z ∈ qs) (hq : q ∈ qs) (f : Field) (v : BitVec 32) :
    zoneField (setZoneField m z .free v) q f = if q = z ∧ f = .free then v else zoneField m q f := by
  by_cases he : q = z
  · subst he
    rw [zoneField_setZoneField]
    by_cases hf : f = .free
    · rw [if_pos hf, if_pos ⟨rfl, hf⟩]
    · rw [if_neg hf, if_neg (fun h => hf h.2)]
  · have hne := cell_ne_of_disjoint (h.header_le q hq) (h.header_le z hz) (h.headers q hq z hz he) f.index_lt Field.free.index_lt
    rw [if_neg (fun h => he h.1), zoneField, setZoneField, Mem.load_store_of_ne m v hne, ← zoneField]

/-- A write to a counter changes no bit. -/
theorem ZonesApart.zoneBit_setFree (h : ZonesApart m qs) (hz : z ∈ qs) (hq : q ∈ qs) {j : Nat}
    (hj : j < 32 * (zoneField m q .bitmapWords).toNat) (v : BitVec 32) : zoneBit (setZoneField m z .free v) q j = zoneBit m q j := by
  have hne := cell_ne_of_disjoint (h.bitmap_le q hq) (h.header_le z hz) (h.both z hz q hq).symm
    (show j / 32 < (zoneField m q .bitmapWords).toNat by omega) Field.free.index_lt
  have hbitmap : zoneField (setZoneField m z .free v) q .bitmap = zoneField m q .bitmap := by
    rw [h.zoneField_setFree hz hq, if_neg (fun h => absurd h.2 (by decide))]
  rw [zoneBit, hbitmap, Mem.bit, setZoneField, Mem.load_store_of_ne m v hne, ← Mem.bit, ← zoneBit]

/-- Zones that do not overlap still do not after a bit was set. -/
theorem ZonesApart.setBit (h : ZonesApart m qs) (hz : z ∈ qs) (hi : i.toNat < 32 * (zoneField m z .bitmapWords).toNat) :
    ZonesApart (LumOS.setBit m (zoneField m z .bitmap) i) qs := by
  have hfield : ∀ q ∈ qs, ∀ f, zoneField (LumOS.setBit m (zoneField m z .bitmap) i) q f = zoneField m q f :=
    fun q hq f => h.zoneField_setBit hz hi hq f
  have hbytes : ∀ q ∈ qs, bitmapBytes (LumOS.setBit m (zoneField m z .bitmap) i) q = bitmapBytes m q := by
    intro q hq
    rw [bitmapBytes, hfield q hq, hfield q hq, bitmapBytes]
  refine ⟨h.header_le, ?_, h.headers, ?_, ?_⟩
  · intro q hq
    rw [hfield q hq, hfield q hq]
    exact h.bitmap_le q hq
  · intro q hq r hr
    rw [hbytes q hq, hbytes r hr]
    exact h.bitmaps q hq r hr
  · intro q hq r hr
    rw [hbytes r hr]
    exact h.both q hq r hr

/-- What `pmm_alloc` does when it has found a bit: it sets it and lowers the counter. -/
theorem ZonesApart.takesBlock (h : ZonesApart m qs) (hz : z ∈ qs) (hi : i.toNat < 32 * (zoneField m z .bitmapWords).toNat) :
    TakesBlock m (setZoneField (LumOS.setBit m (zoneField m z .bitmap) i) z .free (zoneField m z .free - 1)) qs z i.toNat := by
  have h' := h.setBit hz hi
  have hwords : ∀ q ∈ qs, ∀ j < 32 * (zoneField m q .bitmapWords).toNat,
      j < 32 * (zoneField (LumOS.setBit m (zoneField m z .bitmap) i) q .bitmapWords).toNat := by
    intro q hq j hj
    rw [h.zoneField_setBit hz hi hq]
    exact hj
  refine ⟨?_, ?_, ?_, ?_⟩
  · rw [h'.zoneBit_setFree hz hz (hwords z hz _ hi), h.zoneBit_setBit hz hi hz hi, if_pos ⟨rfl, rfl⟩]
  · rw [h'.zoneField_setFree hz hz, if_pos ⟨rfl, rfl⟩]
  · intro q hq j hj hne
    rw [h'.zoneBit_setFree hz hq (hwords q hq j hj), h.zoneBit_setBit hz hi hq hj, if_neg]
    rintro ⟨rfl, rfl⟩
    exact hne rfl
  · intro q hq f hne
    rw [h'.zoneField_setFree hz hq, if_neg, h.zoneField_setBit hz hi hq]
    rintro ⟨rfl, rfl⟩
    exact hne rfl

end

/-! ## `pmm_alloc` -/

section

variable {k : Kernel} {m : Mem} {qs : List (BitVec 32)}

/-- On a list of zones whose bitmaps are padded, `pmm_alloc` returns, unless the first zone whose counter is not 0 reaches into the last
word there could be and all bits before that word are set. In that zone it takes the block of the least bit that is not set, which is a
block of the zone; if there is no such zone, or the zone has no such bit, it returns `NULL` and leaves the memory. -/
theorem alloc_first_fit (hchain : ZoneChain m k.memoryZones qs) (hapart : ZonesApart m qs) (hpadded : ∀ q ∈ qs, PaddedZone m q)
    (hends : ∀ z, firstZone m qs = some z → (zoneField m z .length).toNat ≤ 0xFFFFFFE0 ∨ ∃ i ∈ clearBits m z, i < 0xFFFFFFE0) :
    Ensures (pmmAlloc k m) (fun r =>
      (∀ z i, firstZone m qs = some z → IsLeast (clearBits m z) i → i < (zoneField m z .length).toNat ∧
        r.1 = zoneField m z .start + 4096 * BitVec.ofNat 32 i ∧ TakesBlock m r.2 qs z i) ∧
      ((∀ z, firstZone m qs = some z → clearBits m z = ∅) → r = (0, m))) := by
  unfold pmmAlloc
  refine Ensures.bind ⟨_, hchain.search, rfl⟩ ?_
  rintro _ rfl
  cases hfirst : firstZone m qs with
  | none =>
    rw [Option.getD_none, if_pos rfl]
    exact ensures_pure ⟨fun z i h => absurd h.symm (Option.some_ne_none z), fun _ => rfl⟩
  | some z =>
    have hz := firstZone_mem hfirst
    obtain ⟨hhint, hcovers, hpadding⟩ := hpadded z hz
    have hscan : ScanEnds m (zoneField m z .bitmap) (zoneField m z .length) := by
      rcases hends z hfirst with hlen | ⟨i, hi, hlt⟩
      · exact Or.inl hlen
      · exact Or.inr ⟨i, hlt, hi.2⟩
    rw [Option.getD_some, if_neg (hchain.ne_zero z hz), hhint]
    refine findBlock_ensures hscan hcovers hpadding ?_ ?_
    · intro hfull
      refine ⟨?_, fun _ => rfl⟩
      intro z' i hz' hi
      obtain rfl := Option.some.inj hz'
      have hmem := hi.1
      rw [clearBits_eq_empty hfull] at hmem
      cases hmem
    · intro i hi hu hbefore
      have hleast := isLeast_clearBits (by omega) hu hbefore
      have hfree := hapart.zoneField_setBit hz hleast.1.1 hz .free
      have htakes := hapart.takesBlock hz hleast.1.1
      have hstart := htakes.fields z hz .start (by simp)
      simp only [hfree, hstart]
      refine ensures_pure ⟨?_, ?_⟩
      · intro z' l hz' hl
        obtain rfl := Option.some.inj hz'
        obtain rfl := hl.unique hleast
        refine ⟨hi, ?_, htakes⟩
        rw [getAddress, blockSize, BitVec.ofNat_toNat, BitVec.setWidth_eq, BitVec.add_comm, BitVec.mul_comm]
      · intro hempty
        have hmem := hleast.1
        rw [hempty z rfl] at hmem
        cases hmem

end

/-! ## Two lists -/

/-- Structures that end before the others start do not overlap. -/
theorem ZonesApart.of_bounds {m : Mem} {qs : List (BitVec 32)}
    (hheader : ∀ q ∈ qs, q.toNat + 4 * 8 ≤ 2 ^ 32)
    (hbitmap : ∀ q ∈ qs, (zoneField m q .bitmap).toNat + 4 * (zoneField m q .bitmapWords).toNat ≤ 2 ^ 32)
    (hheaders : ∀ q ∈ qs, ∀ r ∈ qs, q ≠ r → q.toNat + 4 * 8 ≤ r.toNat ∨ r.toNat + 4 * 8 ≤ q.toNat)
    (hbitmaps : ∀ q ∈ qs, ∀ r ∈ qs, q ≠ r →
      (zoneField m q .bitmap).toNat + 4 * (zoneField m q .bitmapWords).toNat ≤ (zoneField m r .bitmap).toNat ∨
      (zoneField m r .bitmap).toNat + 4 * (zoneField m r .bitmapWords).toNat ≤ (zoneField m q .bitmap).toNat)
    (hboth : ∀ q ∈ qs, ∀ r ∈ qs, q.toNat + 4 * 8 ≤ (zoneField m r .bitmap).toNat ∨
      (zoneField m r .bitmap).toNat + 4 * (zoneField m r .bitmapWords).toNat ≤ q.toNat) : ZonesApart m qs := by
  have hdisjoint : ∀ {a b c d : Nat}, b ≤ c ∨ d ≤ a → Disjoint (Set.Ico a b) (Set.Ico c d) := by
    intro a b c d h
    rw [Set.disjoint_left]
    rintro x ⟨_, _⟩ ⟨_, _⟩
    omega
  exact ⟨hheader, hbitmap, fun q hq r hr hne => hdisjoint (hheaders q hq r hr hne),
    fun q hq r hr hne => hdisjoint (hbitmaps q hq r hr hne), fun q hq r hr => hdisjoint (hboth q hq r hr)⟩

/-- Two zones with their structures in no order: one of one block, whose counter is 0, and one of 40 blocks, the first 33 of them used. -/
def scattered : Mem := fun a => ([
  (0xC0102000, 0x1000), (0xC0102004, 0x1FFF), (0xC0102008, 1), (0xC0102014, 1), (0xC0102018, 0xC0300000), (0xC010201C, 0xC0200000),
  (0xC0300000, 0xFFFFFFFF),
  (0xC0200000, 0x100000), (0xC0200004, 0x127FFF), (0xC0200008, 40), (0xC020000C, 7), (0xC0200014, 2), (0xC0200018, 0xC0180000),
  (0xC0180000, 0xFFFFFFFF), (0xC0180004, 0xFFFFFF01)].lookup a).getD 0

theorem scattered_chain : ZoneChain scattered smallKernel.memoryZones [0xC0102000, 0xC0200000] := by
  have hfirst : zoneField scattered 0xC0102000 .nextZone = 0xC0200000 := by decide
  have hsecond : zoneField scattered 0xC0200000 .nextZone = 0 := by decide
  refine .cons (by decide) ?_
  change ZoneChain scattered (zoneField scattered 0xC0102000 .nextZone) [0xC0200000]
  rw [hfirst]
  refine .cons (by decide) ?_
  rw [hsecond]
  exact .nil

theorem scattered_apart : ZonesApart scattered [0xC0102000, 0xC0200000] := by
  apply ZonesApart.of_bounds <;> simp only [List.forall_mem_cons, List.not_mem_nil, false_implies, implies_true, and_true] <;>
    decide

theorem scattered_padded : ∀ q ∈ [0xC0102000, 0xC0200000], PaddedZone scattered q := by
  have hfirst : ∀ i < 32, 1 ≤ i → zoneBit scattered 0xC0102000 i = true := by decide
  have hsecond : ∀ i < 64, 40 ≤ i → zoneBit scattered 0xC0200000 i = true := by decide
  refine List.forall_mem_cons.mpr ⟨⟨by decide, by decide, fun i hle hlt => hfirst i hlt hle⟩,
    List.forall_mem_singleton.mpr ⟨by decide, by decide, fun i hle hlt => hsecond i hlt hle⟩⟩

theorem scattered_least : IsLeast (clearBits scattered 0xC0200000) 33 :=
  isLeast_clearBits (by decide) (by decide) (by decide)

/-- The block of bit 33 of the second zone is taken. -/
theorem alloc_first_fit_scattered : ∃ m, Returns (pmmAlloc smallKernel scattered) (0x121000, m) ∧
    TakesBlock scattered m [0xC0102000, 0xC0200000] 0xC0200000 33 := by
  have hfirst : firstZone scattered [0xC0102000, 0xC0200000] = some 0xC0200000 := by decide
  have hends : ∀ z, firstZone scattered [0xC0102000, 0xC0200000] = some z →
      (zoneField scattered z .length).toNat ≤ 0xFFFFFFE0 ∨ ∃ i ∈ clearBits scattered z, i < 0xFFFFFFE0 := by
    rintro z hz
    obtain rfl := Option.some.inj (hfirst.symm.trans hz)
    exact Or.inl (by decide)
  obtain ⟨⟨p, m⟩, hr, hblock, _⟩ := alloc_first_fit scattered_chain scattered_apart scattered_padded hends
  obtain ⟨_, hp, htakes⟩ := hblock 0xC0200000 33 hfirst scattered_least
  have haddr : zoneField scattered 0xC0200000 .start + 4096 * BitVec.ofNat 32 33 = 0x121000 := by decide
  rw [haddr] at hp
  obtain rfl := hp
  exact ⟨m, hr, htakes⟩

/-- The word scan of a bitmap that reaches into the last word there could be, all of whose bits are set: the offset goes from the last word
back to the first. -/
theorem scanWords_diverges {m : Mem} {bitmap length : BitVec 32} (hlen : 0xFFFFFFE0 < length.toNat)
    (hset : ∀ n < 2 ^ 32, m.bit bitmap n = true) :
    Diverges (loop (fun i => m.load (bitmap + 4 * (i / word)) = 0xFFFFFFFF ∧ i < length) (fun i => pure (i + word)) 0) := by
  refine diverges_loop (fun i => i.toNat % 32 = 0) ?_ ?_ rfl
  · intro i hmod
    have hi := i.isLt
    refine decide_eq_true ⟨(word_full hmod).mpr (fun t ht => hset _ (by omega)), ?_⟩
    rw [BitVec.lt_def]
    omega
  · intro i s hmod hs
    rw [← returns_pure.mp hs]
    simp only [word]
    bv_omega

/-- A zone of `2 ^ 32 - 31` blocks, all of them used, in a memory that is all ones below the end of the kernel. -/
def hugeZone : Mem := fun a => if a < 0xC0102000 then 0xFFFFFFFF else ([
  (0xC0102004, 0xFFFFFFFF), (0xC0102008, 0xFFFFFFE1), (0xC010200C, 1), (0xC0102014, 0x8000000), (0xC0102018, 0x10000000)].lookup a).getD 0

theorem hugeZone_bit (i : Nat) (hi : i < 2 ^ 32) : zoneBit hugeZone 0xC0102000 i = true := by
  have hbitmap : zoneField hugeZone 0xC0102000 .bitmap = 0x10000000 := by decide
  have hones : ∀ t < 32, (0xFFFFFFFF#32).getLsbD t = true := by decide
  have hbase : (0x10000000 : BitVec 32).toNat = 0x10000000 := rfl
  have hlt : Mem.cell 0x10000000 (i / 32) < 0xC0102000 := by
    rw [BitVec.lt_def, Mem.toNat_cell (by omega), hbase]
    change 0x10000000 + 4 * (i / 32) < 0xC0102000
    omega
  rw [zoneBit, hbitmap, Mem.bit, Mem.load, hugeZone, if_pos hlt]
  exact hones _ (Nat.mod_lt _ (by decide))

theorem hugeZone_chain : ZoneChain hugeZone smallKernel.memoryZones [0xC0102000] := by
  have hnext : zoneField hugeZone 0xC0102000 .nextZone = 0 := by decide
  refine .cons (by decide) ?_
  change ZoneChain hugeZone (zoneField hugeZone 0xC0102000 .nextZone) []
  rw [hnext]
  exact .nil

/-- In a full bitmap that long the search for a block never ends. -/
theorem alloc_scan_wraps : ZoneChain hugeZone smallKernel.memoryZones [0xC0102000] ∧ ZonesApart hugeZone [0xC0102000] ∧
    PaddedZone hugeZone 0xC0102000 ∧ firstZone hugeZone [0xC0102000] = some 0xC0102000 ∧ clearBits hugeZone 0xC0102000 = ∅ ∧
    ∀ r, ¬Returns (pmmAlloc smallKernel hugeZone) r := by
  have hfirst : firstZone hugeZone [0xC0102000] = some 0xC0102000 := by decide
  have hwords : 32 * (zoneField hugeZone 0xC0102000 .bitmapWords).toNat = 2 ^ 32 := by decide
  have hhint : zoneField hugeZone 0xC0102000 .lastOffset = 0 := by decide
  refine ⟨hugeZone_chain, ?_, ⟨hhint, by decide, ?_⟩, hfirst, ?_, ?_⟩
  · apply ZonesApart.of_bounds <;> simp only [List.forall_mem_singleton] <;> decide
  · intro i _ hi
    exact hugeZone_bit i (hwords ▸ hi)
  · exact clearBits_eq_empty (fun i hi => hugeZone_bit i (hwords ▸ hi))
  · intro r hr
    unfold pmmAlloc at hr
    obtain ⟨zone, hzone, hr⟩ := returns_bind.mp hr
    obtain rfl := hzone.unique hugeZone_chain.search
    rw [hfirst, Option.getD_some, if_neg (by decide), hhint] at hr
    obtain ⟨i, hi, _⟩ := returns_bind.mp hr
    exact (scanWords_diverges (by decide) hugeZone_bit).not_returns i hi

end LumOS
