import LumOS.Pmm.Mirror

/-!
# What the reservation sets

After `init_pmm` the bits of a zone that stand for blocks are those of the blocks that meet the reserved range, and that of the block at
address 0; the padding is set (`reservation_exact_iff`). The exceptions come from a reservation that ends one bit behind a bitmap: the
last bit is then the lowest of the next zone's start. When such a bit is set is a matter of the lengths of the entry and of where the
reserved range ends (`reservation_in_bitmap_iff`).
-/

namespace LumOS

open Comp

/-! ## The bits of a zone after `init_pmm` -/

section

variable {k : Kernel} {es : List MmapEntry} {p : MmapEntry × Bool}

theorem placed_of_marks (hfit : Fits k.kernelEnd (cellsOf (newZones es))) (hp : p ∈ marks k es) : Placed k es :=
  ⟨List.ne_nil_of_mem (marks_usable hp), hfit⟩

theorem markedZone_used (p : MmapEntry × Bool) (i : Nat) :
    (markedZone p).used i = (decide (p.1.blocks ≤ i) || decide (p.1.baseLow = 0 ∧ i = 0)) := by
  obtain ⟨e, b⟩ := p
  cases b <;> rfl

theorem markedZone_end (p : MmapEntry × Bool) : (markedZone p).end_ = p.1.baseLow + p.1.lengthLow - 1 := by
  obtain ⟨e, b⟩ := p
  cases b <;> rfl

/-- A block is used after `init_pmm` when it is the first of a zone made for address 0, or its bit is in the range that is set. -/
theorem builtFrom_used_iff {i : Nat} (hi : i < p.1.blocks) :
    (builtFrom k es p).used i = true ↔ (p.1.baseLow = 0 ∧ i = 0) ∨
      ((markedZone p).overlaps k.resStart (k.resEnd (structuresSize es)) = true ∧
        ((markedZone p).startbit k.resStart).toNat ≤ i ∧
        i < ((markedZone p).endbit (k.resEnd (structuresSize es))).toNat + 1) := by
  have hlt : ¬p.1.blocks ≤ i := by omega
  rw [builtFrom, Zone.reserved]
  by_cases ho : (markedZone p).overlaps k.resStart (k.resEnd (structuresSize es)) = true
  · rw [if_pos ho]
    show (decide _ || (markedZone p).used i) = true ↔ _
    rw [markedZone_used, decide_eq_false hlt, Bool.false_or, Bool.or_eq_true, decide_eq_true_eq, decide_eq_true_eq, or_comm]
    exact or_congr_right (and_iff_right ho).symm
  · rw [if_neg ho, markedZone_used, decide_eq_false hlt, Bool.false_or, decide_eq_true_eq]
    exact (or_iff_left (fun h => ho h.1)).symm

/-- The bit range of a marked zone is a range, and ends one past the blocks at most. -/
theorem markedZone_rangeOk (hp : Placed k es) (hb : 1 ≤ p.1.blocks) :
    (markedZone p).RangeOk k.resStart (k.resEnd (structuresSize es)) :=
  p.1.rangeOk hb (resStart_le_resEnd hp) p.2

end

/-! ## The reservation is exact -/

/-- The block at an address meets the reserved range. -/
def MeetsReserved (k : Kernel) (es : List MmapEntry) (a : Nat) : Prop :=
  (Set.Icc a (a + 4095) ∩ reservedRange k es).Nonempty

theorem meetsReserved_iff {k : Kernel} {es : List MmapEntry} (hp : Placed k es) {a : Nat} :
    MeetsReserved k es a ↔ k.resStart.toNat ≤ a + 4095 ∧ a ≤ (k.resEnd (structuresSize es)).toNat := by
  have hle := resStart_le_resEnd hp
  rw [BitVec.le_def] at hle
  constructor
  · rintro ⟨x, ⟨h1, h2⟩, h3, h4⟩
    exact ⟨Nat.le_trans h3 h2, Nat.le_trans h1 h4⟩
  · rintro ⟨h1, h2⟩
    refine ⟨max a k.resStart.toNat, ⟨Nat.le_max_left _ _, ?_⟩, Nat.le_max_right _ _, ?_⟩
    · exact Nat.max_le.mpr ⟨Nat.le_add_right _ _, h1⟩
    · exact Nat.max_le.mpr ⟨h2, hle⟩

/-- The bitmap of the zone at `q` has the bits set of the blocks that meet the reserved range, the bit of the block at address 0 and
those that stand for no block, and no other. -/
structure ReservedExactly (k : Kernel) (es : List MmapEntry) (m : Mem) (q : BitVec 32) : Prop where
  blocks : ∀ i < (zoneField m q .length).toNat, (zoneBit m q i = true ↔
    MeetsReserved k es ((zoneField m q .start).toNat + 4096 * i) ∨ zoneField m q .start = 0 ∧ i = 0)
  padding : ∀ i, (zoneField m q .length).toNat ≤ i → i < 32 * (zoneField m q .bitmapWords).toNat → zoneBit m q i = true

/-- What keeps a zone right whose start the reservation before has raised by one: the block at address 0 is in it only when the
reserved range begins in the first 4097 bytes, and otherwise the reserved range does not begin where the last block ends. -/
structure RaisedOk (k : Kernel) (e : MmapEntry) : Prop where
  null : e.baseLow = 0 → k.resStart.toNat ≤ 4096
  other : e.baseLow ≠ 0 → ¬(k.resStart.toNat = e.base + e.len ∧ e.len % 4096 = 0)

section

variable {k : Kernel} {boot : Boot} {mbt : MultibootInfo} {es : List MmapEntry} {m₀ m : Mem}

theorem ZoneAt.reservedExactly_iff {base : BitVec 32} {h : Nat} {z : Zone} {next : BitVec 32} (hz : ZoneAt base m h z next) :
    ReservedExactly k es m (Mem.cell base h) ↔ ∀ i < z.length.toNat, (z.used i = true ↔
      MeetsReserved k es (z.start.toNat + 4096 * i) ∨ z.start = 0 ∧ i = 0) := by
  have hl := z.length_le_bits
  have hfield : ∀ f, zoneField m (Mem.cell base h) f = z.header base h next f := hz.header
  constructor
  · rintro ⟨hblocks, _⟩ i hi
    have := hblocks i (by rw [hfield]; exact hi)
    rwa [hz.zoneBit_eq (by omega), hfield] at this
  · intro hblocks
    refine ⟨?_, ?_⟩
    · intro i hi
      rw [hfield] at hi
      change i < z.length.toNat at hi
      rw [hz.zoneBit_eq (by omega), hfield]
      exact hblocks i hi
    · intro i hle hi
      rw [hfield] at hle hi
      rw [hz.zoneBit_eq hi]
      exact z.padded i hle

/-- The blocks that are used in the zone of a marked entry, for a start that the reservation before has left or changed. -/
theorem builtFrom_used (hp : Placed k es) {p : MmapEntry × Bool} (hbelow : p.1.base + p.1.len ≤ 2 ^ 32) (hb : 1 ≤ p.1.blocks)
    {i : Nat} (hi : i < p.1.blocks) : (builtFrom k es p).used i = true ↔ (p.1.baseLow = 0 ∧ i = 0) ∨
      (MeetsReserved k es ((markedZone p).start.toNat + 4096 * i) ∧ k.resStart.toNat < p.1.base + p.1.len) := by
  obtain ⟨h1, h2⟩ := p.1.low_of_below hbelow hb
  have hend : (markedZone p).end_.toNat + 1 = p.1.base + p.1.len := by
    rw [markedZone_end, h1, h2]
    rw [h1, h2] at hbelow
    simp only [MmapEntry.blocks] at hb
    bv_omega
  have hstart : (markedZone p).start.toNat ≤ p.1.base + 1 := by
    have hone := toNat_or_one p.1.baseLow
    rw [markedZone_start, h1]
    split <;> omega
  have hin : (markedZone p).start.toNat + 4096 * i ≤ (markedZone p).end_.toNat := by
    simp only [MmapEntry.blocks] at hi
    omega
  have hov : (markedZone p).overlaps k.resStart (k.resEnd (structuresSize es)) = true ↔ _ := decide_eq_true_iff
  have hlast : k.resStart.toNat ≤ (markedZone p).end_.toNat ↔ k.resStart.toNat < p.1.base + p.1.len := by omega
  rw [builtFrom_used_iff hi, meetsReserved_iff hp, and_assoc, ← hlast, hov]
  exact or_congr_right (reserved_bits (resStart_le_resEnd hp) hin)

/-- The reserved range does not end at address 0. -/
theorem resEnd_pos (hp : Placed k es) : 0 < (k.resEnd (structuresSize es)).toNat := by
  have h1 := k.offset_le
  have h2 := k.start_le
  have h3 := hp.fits.2
  have h4 := cellsOf_newZones_pos hp.usable_ne
  simp only [Kernel.resEnd, structuresSize, virtualKernelOffset] at h1 ⊢
  bv_omega

/-- A zone whose start was not changed has exactly the blocks used that meet the reserved range, and that at address 0. -/
theorem builtFrom_exact (hp : Placed k es) {p : MmapEntry × Bool} (hbelow : p.1.base + p.1.len ≤ 2 ^ 32) (hb : 1 ≤ p.1.blocks)
    (hstart : (markedZone p).start = p.1.baseLow) {i : Nat} (hi : i < p.1.blocks) : (builtFrom k es p).used i = true ↔
      MeetsReserved k es ((markedZone p).start.toNat + 4096 * i) ∨ (markedZone p).start = 0 ∧ i = 0 := by
  obtain ⟨h1, h2⟩ := p.1.low_of_below hbelow hb
  have hlast : MeetsReserved k es ((markedZone p).start.toNat + 4096 * i) → k.resStart.toNat < p.1.base + p.1.len := by
    rw [meetsReserved_iff hp, hstart]
    rintro ⟨hmeet, _⟩
    simp only [MmapEntry.blocks] at hi
    omega
  rw [builtFrom_used hp hbelow hb hi, and_iff_left_of_imp hlast, hstart, or_comm]

/-- The blocks of a zone that starts one behind its base, for a reserved range `first..last`: that each block has its bit set exactly when
it meets the range, though bit 0 is set for a base of 0 and none is for a range that starts at or behind the limit. -/
theorem raised_bits_iff {base len first last : Nat} (hb : 1 ≤ len / 4096) (hle : first ≤ last) (hpos : 0 < last) :
    (∀ i < len / 4096, ((base = 0 ∧ i = 0 ∨ (first ≤ base + 1 + 4096 * i + 4095 ∧ base + 1 + 4096 * i ≤ last) ∧ first < base + len) ↔
      first ≤ base + 1 + 4096 * i + 4095 ∧ base + 1 + 4096 * i ≤ last)) ↔
      (base = 0 → first ≤ 4096) ∧ (base ≠ 0 → ¬(first = base + len ∧ len % 4096 = 0)) := by
  constructor
  · intro hall
    refine ⟨?_, ?_⟩
    · intro h0
      have hfirst := ((hall 0 hb).mp (Or.inl ⟨h0, rfl⟩)).1
      omega
    · rintro h0 ⟨hend, hmod⟩
      -- the last block meets the reserved range, and no bit is set for it
      rcases (hall (len / 4096 - 1) (by omega)).mpr ⟨by omega, by omega⟩ with ⟨hbase, _⟩ | ⟨_, hlt⟩
      · exact h0 hbase
      · omega
  · rintro ⟨hz, ho⟩ i hi
    by_cases h0 : base = 0
    · have := hz h0
      omega
    · have := ho h0
      omega

/-- A zone whose start was raised by one has them exactly when `RaisedOk` holds of its entry. -/
theorem builtFrom_exact_raised (hp : Placed k es) {p : MmapEntry × Bool} (hbelow : p.1.base + p.1.len ≤ 2 ^ 32)
    (hb : 1 ≤ p.1.blocks) (hstart : (markedZone p).start.toNat = p.1.base + 1) :
    (∀ i < p.1.blocks, ((builtFrom k es p).used i = true ↔
      MeetsReserved k es ((markedZone p).start.toNat + 4096 * i) ∨ (markedZone p).start = 0 ∧ i = 0)) ↔ RaisedOk k p.1 := by
  obtain ⟨h1, h2⟩ := p.1.low_of_below hbelow hb
  have hne : (markedZone p).start ≠ 0 := by
    intro h0
    rw [h0] at hstart
    have hzero : (0 : BitVec 32).toNat = 0 := rfl
    omega
  have hnull := p.1.baseLow_eq_zero_iff hbelow hb
  have hblocks : p.1.blocks = p.1.len / 4096 := by rw [MmapEntry.blocks, h2]
  have hok : RaisedOk k p.1 ↔ (p.1.base = 0 → k.resStart.toNat ≤ 4096) ∧
      (p.1.base ≠ 0 → ¬(k.resStart.toNat = p.1.base + p.1.len ∧ p.1.len % 4096 = 0)) := by
    rw [ne_eq, ← hnull]
    exact ⟨fun h => ⟨h.null, h.other⟩, fun h => ⟨h.1, h.2⟩⟩
  rw [hok, ← raised_bits_iff (hblocks ▸ hb) (resStart_le_resEnd hp) (resEnd_pos hp), ← hblocks]
  refine forall₂_congr fun i hi => ?_
  rw [builtFrom_used hp hbelow hb hi, meetsReserved_iff hp, hstart, hnull,
    or_iff_left (fun h : (markedZone p).start = 0 ∧ i = 0 => hne h.1)]

/-- On a memory map of disjoint entries below 4 GiB on which `init_pmm` returns, the bitmaps of all zones are exact precisely when
`RaisedOk` holds of the entries whose zones' starts the reservation has raised. -/
theorem reservation_exact_iff (hmap : MemoryMap boot mbt es) (hd : DisjointMap es)
    (hfit : Fits k.kernelEnd (cellsOf (newZones es))) (hr : Returns (initPmm k boot mbt m₀) m) :
    (∀ q, BuiltZone k es m q → ReservedExactly k es m q) ↔
      ∀ p ∈ marks k es, p.2 = true → p.1.baseLow.toNat % 2 = 0 → RaisedOk k p.1 := by
  rw [forall_built_iff hmap hfit hr (fun h z next hz => hz.reservedExactly_iff)]
  refine forall₂_congr ?_
  intro p hmem
  have hu := marks_usable hmem
  have hp := placed_of_marks hfit hmem
  have hbelow := hd.below p.1 (usable_type hu).1 (usable_type hu).2
  have hb := initPmm_blocks hmap hr p.1 hu
  rw [toNat_builtFrom_length, builtFrom_start]
  by_cases hstart : (markedZone p).start = p.1.baseLow
  · have hodd := (markedZone_start_eq_iff p).mp hstart
    refine iff_of_true (fun i hi => builtFrom_exact hp hbelow hb hstart hi) ?_
    intro hmark heven
    rw [hodd hmark] at heven
    cases heven
  · have hraised : p.2 = true ∧ p.1.baseLow.toNat % 2 = 0 := by
      rw [markedZone_start_eq_iff, Classical.not_imp] at hstart
      exact ⟨hstart.1, by omega⟩
    have hone := toNat_or_one p.1.baseLow
    have h1 := (p.1.low_of_below hbelow hb).1
    rw [builtFrom_exact_raised hp hbelow hb (by rw [markedZone_start, if_pos hraised.1, h1]; omega)]
    exact ⟨fun h _ _ => h, fun h => h hraised.1 hraised.2⟩

end

/-- A memory map whose one block is in the kernel and one is not. -/
def kernelZone : List MmapEntry := [⟨20, 0x1000, 0, 0x1000, 0, 1⟩, ⟨20, 0x100800, 0, 0x1000, 0, 1⟩]

theorem kernelZone_disjoint : DisjointMap kernelZone where
  below := by decide
  disjoint := by simp [kernelZone, MmapEntry.range, MmapEntry.base, MmapEntry.len]

/-- No start was changed. -/
theorem reservation_exact_kernelZone : ∃ m q,
    Returns (initPmm smallKernel (bootOf 0x9000 kernelZone) (mapInfo 0x9000 kernelZone) (fun _ => 0)) m ∧
      BuiltZone smallKernel kernelZone m q ∧ zoneBit m q 0 = true ∧ ReservedExactly smallKernel kernelZone m q := by
  obtain ⟨m, hm, hbit⟩ := exists_init smallKernel (bootOf 0x9000 kernelZone) (mapInfo 0x9000 kernelZone) 40
    (fun m => zoneBit m (zoneAfter m smallKernel.memoryZones 1) 0) true (by decide)
  have hq : BuiltZone smallKernel kernelZone m (zoneAfter m smallKernel.memoryZones 1) := ⟨1, by decide, rfl⟩
  have hmarks : ∀ p ∈ marks smallKernel kernelZone, ¬p.2 = true := by decide
  exact ⟨m, _, hm, hq, hbit, (reservation_exact_iff (memoryMap_bootOf (by decide) (by decide)) kernelZone_disjoint
    ⟨by decide, by decide⟩ hm).mpr (fun p hp h => absurd h (hmarks p hp)) _ hq⟩

/-- A memory map of 32 blocks and half a block that the kernel's structures reach into, and of three blocks from address 0 on. -/
def tailZone : List MmapEntry := [⟨20, 0xE2000, 0, 0x20800, 0, 1⟩, ⟨20, 0, 0, 0x3000, 0, 1⟩]

theorem tailZone_disjoint : DisjointMap tailZone where
  below := by decide
  disjoint := by simp [tailZone, MmapEntry.range, MmapEntry.base, MmapEntry.len]

/-- The second zone starts at 1, its first block is used and does not meet the reserved range. -/
theorem reservation_inexact : MemoryMap (bootOf 0x9000 tailZone) (mapInfo 0x9000 tailZone) tailZone ∧ DisjointMap tailZone ∧
    ∃ m q, Returns (initPmm smallKernel (bootOf 0x9000 tailZone) (mapInfo 0x9000 tailZone) (fun _ => 0)) m ∧
      BuiltZone smallKernel tailZone m q ∧ ¬ReservedExactly smallKernel tailZone m q := by
  obtain ⟨m, hm, hx⟩ := exists_init smallKernel (bootOf 0x9000 tailZone) (mapInfo 0x9000 tailZone) 40
    (fun m => ([zoneField m (zoneAfter m smallKernel.memoryZones 1) .start,
      zoneField m (zoneAfter m smallKernel.memoryZones 1) .length],
      zoneBit m (zoneAfter m smallKernel.memoryZones 1) 0)) (([1, 3], true)) (by decide)
  simp only [Prod.mk.injEq, List.cons.injEq, and_true] at hx
  obtain ⟨⟨hstart, hlen⟩, hbit⟩ := hx
  refine ⟨memoryMap_bootOf (by decide) (by decide), tailZone_disjoint, m, _, hm, ⟨1, by decide, rfl⟩, fun h => ?_⟩
  have hblock := (h.blocks 0 (by rw [hlen]; decide)).mp hbit
  rw [hstart, meetsReserved_iff ⟨by decide, by decide, by decide⟩] at hblock
  exact absurd hblock (by decide)

end LumOS
