import LumOS.Pmm.Built
import LumOS.Pmm.Safety

/-!
# What the zones say of the memory map

Whether the zones are the memory that the map describes. The walk skips an entry above 4 GiB only when the low word of its base is 0;
for any other it builds a zone from the low words, which is somewhere else (`only_ram_iff`). The list starts at a fixed address, and so
there is a zone in it also when no entry is usable (`zones_mirror_iff`).
-/

namespace LumOS

open Comp

section

variable {k : Kernel} {es : List MmapEntry} {p : MmapEntry × Bool}

theorem builtFrom_shape (k : Kernel) (es : List MmapEntry) (p : MmapEntry × Bool) :
    (builtFrom k es p).shape = (markedZone p).shape :=
  Zone.reserved_shape _ _ _

theorem builtFrom_start (k : Kernel) (es : List MmapEntry) (p : MmapEntry × Bool) :
    (builtFrom k es p).start = (markedZone p).start :=
  congrArg Shape.start (builtFrom_shape k es p)

theorem markedZone_length (p : MmapEntry × Bool) : (markedZone p).length = p.1.lengthLow / blockSize := by
  obtain ⟨e, b⟩ := p
  cases b <;> rfl

theorem builtFrom_length (k : Kernel) (es : List MmapEntry) (p : MmapEntry × Bool) :
    (builtFrom k es p).length = p.1.lengthLow / blockSize :=
  (congrArg Shape.length (builtFrom_shape k es p)).trans (markedZone_length p)

theorem toNat_builtFrom_length (k : Kernel) (es : List MmapEntry) (p : MmapEntry × Bool) :
    (builtFrom k es p).length.toNat = p.1.blocks := by
  rw [builtFrom_length, p.1.toNat_length]

theorem builtFrom_end (k : Kernel) (es : List MmapEntry) (p : MmapEntry × Bool) :
    (builtFrom k es p).end_ = p.1.baseLow + p.1.lengthLow - 1 := by
  rw [show (builtFrom k es p).end_ = (markedZone p).end_ from congrArg Shape.end_ (builtFrom_shape k es p)]
  obtain ⟨e, b⟩ := p
  cases b <;> rfl

theorem builtFrom_bitmapWords (k : Kernel) (es : List MmapEntry) (p : MmapEntry × Bool) :
    (builtFrom k es p).bitmapWords.toNat = (p.1.blocks + 31) / 32 := by
  have hwords : (builtFrom k es p).bitmapWords = p.1.zone.bitmapWords := by
    rw [show (builtFrom k es p).bitmapWords = (markedZone p).bitmapWords from congrArg Shape.bitmapWords (builtFrom_shape k es p)]
    obtain ⟨e, b⟩ := p
    cases b <;> rfl
  rw [hwords, p.1.toNat_bitmapWords]

/-- The start of a marked zone is its entry's base, or one more. -/
theorem markedZone_start (p : MmapEntry × Bool) : (markedZone p).start = if p.2 then p.1.baseLow ||| 1 else p.1.baseLow := by
  obtain ⟨e, b⟩ := p
  cases b <;> rfl

theorem markedZone_start_eq_iff (p : MmapEntry × Bool) :
    (markedZone p).start = p.1.baseLow ↔ (p.2 = true → p.1.baseLow.toNat % 2 = 1) := by
  rw [markedZone_start]
  by_cases hb : p.2 = true
  · have hone := toNat_or_one p.1.baseLow
    rw [if_pos hb]
    constructor
    · intro h _
      rw [h] at hone
      omega
    · intro h
      apply BitVec.eq_of_toNat_eq
      have hodd := h hb
      omega
  · rw [if_neg hb]
    exact iff_of_true rfl (fun h => absurd h hb)

end

/-! ## Only memory is tracked -/

/-- The block at a physical address is inside a type 1 entry. -/
def InRam (es : List MmapEntry) (a : Nat) : Prop := ∃ e ∈ es, e.type = 1 ∧ Set.Icc a (a + 4095) ⊆ e.range

/-- The blocks of a zone that starts at its entry's base are inside the entry. -/
theorem inRam_of_base {es : List MmapEntry} {e : MmapEntry} (he : e ∈ usable es) {i : Nat} (hi : i < e.blocks) :
    InRam es (e.base + 4096 * i) := by
  obtain ⟨hmem, ht⟩ := usable_type he
  refine ⟨e, hmem, ht, ?_⟩
  rintro x ⟨h1, h2⟩
  simp only [MmapEntry.blocks] at hi
  refine ⟨by omega, ?_⟩
  simp only [MmapEntry.len]
  omega

/-- On any memory map on which `init_pmm` returns, all blocks of all zones are inside type 1 entries exactly when those are that belong
to a zone which does not start at the base of its entry: one of an entry above 4 GiB, or one whose start the reservation of the zone
before has changed. -/
theorem only_ram_iff {k : Kernel} {boot : Boot} {mbt : MultibootInfo} {es : List MmapEntry} {m₀ m : Mem}
    (hmap : MemoryMap boot mbt es) (hfit : Fits k.kernelEnd (cellsOf (newZones es))) (hr : Returns (initPmm k boot mbt m₀) m) :
    (∀ q, BuiltZone k es m q → ∀ i < (zoneField m q .length).toNat, InRam es ((zoneField m q .start).toNat + 4096 * i)) ↔
      ∀ p ∈ marks k es, (markedZone p).start.toNat ≠ p.1.base →
        ∀ i < p.1.blocks, InRam es ((markedZone p).start.toNat + 4096 * i) := by
  rw [forall_built_iff hmap hfit hr (Q := fun z => ∀ i < z.length.toNat, InRam es (z.start.toNat + 4096 * i))]
  · simp only [toNat_builtFrom_length, builtFrom_start]
    refine forall₂_congr ?_
    intro p hp
    by_cases hbase : (markedZone p).start.toNat = p.1.base
    · refine iff_of_true ?_ (fun hne => absurd hbase hne)
      intro i hi
      rw [hbase]
      exact inRam_of_base (marks_usable hp) hi
    · exact ⟨fun h _ => h, fun h => h hbase⟩
  · intro h z next hz
    rw [hz.header .length, hz.header .start]
    rfl

/-- Both zones of `twoZones` start at their entry's base. -/
theorem only_ram_twoZones : ∃ m, Returns (initPmm smallKernel (bootOf 0x9000 twoZones) (mapInfo 0x9000 twoZones) (fun _ => 0)) m ∧
    ∀ q, BuiltZone smallKernel twoZones m q → ∀ i < (zoneField m q .length).toNat,
      InRam twoZones ((zoneField m q .start).toNat + 4096 * i) := by
  obtain ⟨m, hm, _⟩ := exists_init smallKernel (bootOf 0x9000 twoZones) (mapInfo 0x9000 twoZones) 40 (fun _ => ()) ()
    (by decide)
  have hbase : ∀ p ∈ marks smallKernel twoZones, (markedZone p).start.toNat = p.1.base := by decide
  refine ⟨m, hm, (only_ram_iff twoZones_memoryMap twoZones_placed.fits hm).mpr ?_⟩
  intro p hp hne
  exact absurd (hbase p hp) hne

/-- A memory map of two blocks at 4 KiB, and of two at 5 GiB. -/
def highZone : List MmapEntry := [⟨20, 0x1000, 0, 0x2000, 0, 1⟩, ⟨20, 0x40000000, 1, 0x2000, 0, 1⟩]

/-- The second zone starts at 1 GiB, where there is no memory. -/
theorem tracked_not_ram : MemoryMap (bootOf 0x9000 highZone) (mapInfo 0x9000 highZone) highZone ∧
    ∃ m q, Returns (initPmm smallKernel (bootOf 0x9000 highZone) (mapInfo 0x9000 highZone) (fun _ => 0)) m ∧
      BuiltZone smallKernel highZone m q ∧ 0 < (zoneField m q .length).toNat ∧
      ¬InRam highZone ((zoneField m q .start).toNat + 4096 * 0) := by
  obtain ⟨m, hm, hx⟩ := exists_init smallKernel (bootOf 0x9000 highZone) (mapInfo 0x9000 highZone) 40
    (fun m => (zoneField m (zoneAfter m smallKernel.memoryZones 1) .start,
      zoneField m (zoneAfter m smallKernel.memoryZones 1) .length)) ((0x40000000, 2)) (by decide)
  obtain ⟨hstart, hlen⟩ := Prod.mk.inj hx
  refine ⟨memoryMap_bootOf (by decide) (by decide), m, _, hm, ⟨1, by decide, rfl⟩, by rw [hlen]; decide, ?_⟩
  rw [hstart]
  rintro ⟨e, he, _, hsub⟩
  have hlow : 0x40000000 ∈ e.range := hsub ⟨by decide, by decide⟩
  simp only [highZone, List.mem_cons, List.not_mem_nil, or_false] at he
  rcases he with rfl | rfl
  · exact absurd hlow.2 (by decide)
  · exact absurd hlow.1 (by decide)

/-! ## The list mirrors the map -/

/-- The type 1 entries below 4 GiB. -/
def lowRam (es : List MmapEntry) : List MmapEntry :=
  es.filter (fun e => e.type = 1 ∧ e.base < 2 ^ 32 ∧ e.base + e.len ≤ 2 ^ 32)

/-- The zone at an address has the start, the end, the length and the bitmap size that its entry says. -/
structure Describes (m : Mem) (zone : BitVec 32) (e : MmapEntry) : Prop where
  start : zoneField m zone .start = e.baseLow
  end_ : zoneField m zone .end_ = e.baseLow + e.lengthLow - 1
  length : (zoneField m zone .length).toNat = e.lengthLow.toNat / 4096
  bitmapWords : (zoneField m zone .bitmapWords).toNat = ((zoneField m zone .length).toNat + 31) / 32

/-- The same of a zone that is not in memory. -/
def Zone.MadeFrom (z : Zone) (e : MmapEntry) : Prop :=
  z.start = e.baseLow ∧ z.end_ = e.baseLow + e.lengthLow - 1 ∧ z.length.toNat = e.lengthLow.toNat / 4096 ∧
    z.bitmapWords.toNat = (z.length.toNat + 31) / 32

/-- The list at `zone` has one zone for each entry, in their order, and ends there. -/
def Mirrors (m : Mem) (zone : BitVec 32) : List MmapEntry → Prop
  | [] => zone = 0
  | e :: es => zone ≠ 0 ∧ Describes m zone e ∧ Mirrors m (zoneField m zone .nextZone) es

section

variable {k : Kernel} {boot : Boot} {mbt : MultibootInfo} {es : List MmapEntry} {m₀ m : Mem}

theorem ZoneAt.describes_iff {base : BitVec 32} {h : Nat} {z : Zone} {next : BitVec 32} (hz : ZoneAt base m h z next)
    (e : MmapEntry) : Describes m (Mem.cell base h) e ↔ z.MadeFrom e := by
  have hfield : ∀ f, zoneField m (Mem.cell base h) f = z.header base h next f := hz.header
  constructor
  · rintro ⟨h1, h2, h3, h4⟩
    simp only [hfield, Zone.header] at h1 h2 h3 h4
    exact ⟨h1, h2, h3, h4⟩
  · rintro ⟨h1, h2, h3, h4⟩
    constructor <;> simp only [hfield, Zone.header]
    · exact h1
    · exact h2
    · exact h3
    · exact h4

/-- A list of zones in memory mirrors the entries from which its zones are made. -/
theorem mirrors_iff {base : BitVec 32} {n : Nat} (hfit : Fits base n) {zs : List Zone} :
    ∀ {h : Nat} {us : List MmapEntry}, ZonesAt base m h zs → h + cellsOf zs ≤ n →
    (Mirrors m (ptrTo base h zs) us ↔ List.Forall₂ Zone.MadeFrom zs us) := by
  induction zs with
  | nil =>
    intro h us _ _
    cases us with
    | nil => exact iff_of_true rfl .nil
    | cons e us =>
      refine iff_of_false ?_ ?_
      · rintro ⟨hne, _⟩
        exact hne rfl
      · intro hall
        cases hall
  | cons z zs ih =>
    intro h us hz hn
    simp only [cellsOf] at hn
    have h8 := z.eight_le_cells
    have hne : Mem.cell base h ≠ 0 := hfit.cell_ne_zero (by omega)
    cases us with
    | nil =>
      refine iff_of_false hne ?_
      intro hall
      cases hall
    | cons e us =>
      have hnext : zoneField m (Mem.cell base h) .nextZone = ptrTo base (h + z.cells) zs := hz.1.header .nextZone
      rw [List.forall₂_cons, ← hz.1.describes_iff, ← ih hz.2 (by omega), ← hnext]
      exact and_iff_right hne

/-- The type 1 entries below 4 GiB are usable. -/
theorem lowRam_eq (es : List MmapEntry) :
    lowRam es = (usable es).filter (fun e => e.base < 2 ^ 32 ∧ e.base + e.len ≤ 2 ^ 32) := by
  rw [usable, List.filter_filter, lowRam]
  refine List.filter_congr ?_
  intro e _
  rw [Bool.eq_iff_iff]
  simp only [MmapEntry.skipped, Bool.and_eq_true, Bool.not_eq_true', decide_eq_true_eq, decide_eq_false_iff_not]
  constructor
  · rintro ⟨ht, hbase, hend⟩
    have hhigh : e.baseHigh = 0 := by
      simp only [MmapEntry.base] at hbase
      bv_omega
    refine ⟨⟨hbase, hend⟩, ?_⟩
    rintro (⟨_, hne⟩ | hne)
    · exact hne hhigh
    · exact hne ht
  · rintro ⟨⟨hbase, hend⟩, hskip⟩
    refine ⟨?_, hbase, hend⟩
    by_contra ht
    exact hskip (Or.inr ht)

/-- When the usable entries have blocks, all of them are in `lowRam` exactly when they end below 4 GiB. -/
theorem length_lowRam_iff (hb : ∀ e ∈ usable es, 1 ≤ e.blocks) :
    (lowRam es).length = (usable es).length ↔ ∀ e ∈ usable es, e.base + e.len ≤ 2 ^ 32 := by
  rw [lowRam_eq, List.length_filter_eq_length_iff]
  refine forall₂_congr ?_
  intro e he
  have hblocks := hb e he
  simp only [MmapEntry.blocks] at hblocks
  rw [decide_eq_true_eq]
  refine and_iff_right_of_imp ?_
  intro hend
  simp only [MmapEntry.len] at hend
  omega

/-- The zone of a marked entry is made from it, but for a start that was changed. -/
theorem builtFrom_madeFrom_iff (p : MmapEntry × Bool) :
    (builtFrom k es p).MadeFrom p.1 ↔ (p.2 = true → p.1.baseLow.toNat % 2 = 1) := by
  rw [Zone.MadeFrom, builtFrom_start, markedZone_start_eq_iff]
  refine and_iff_left ⟨builtFrom_end k es p, toNat_builtFrom_length k es p, ?_⟩
  rw [builtFrom_bitmapWords, toNat_builtFrom_length]

/-- The zones are made from the usable entries when no start was changed. -/
theorem initialZones_madeFrom_iff : List.Forall₂ Zone.MadeFrom (initialZones k es) (usable es) ↔ NoSpill k es := by
  rw [initialZones_eq_marks, ← marks_fst (k := k), List.forall₂_map_left_iff, List.forall₂_map_right_iff, List.forall₂_same,
    noSpill_iff_marks]
  refine forall₂_congr ?_
  intro p _
  exact builtFrom_madeFrom_iff p

/-- When `init_pmm` returns on a well-formed memory map, the list of zones mirrors the type 1 entries below 4 GiB exactly when there is
a usable entry, all usable entries are below 4 GiB and no reservation changes the start of the next zone. -/
theorem zones_mirror_iff (hwf : WellFormed boot mbt es) (hfit : Fits k.kernelEnd (cellsOf (newZones es)))
    (hr : Returns (initPmm k boot mbt m₀) m) :
    Mirrors m k.memoryZones (lowRam es) ↔
      usable es ≠ [] ∧ (∀ e ∈ usable es, e.base + e.len ≤ 2 ^ 32) ∧ NoSpill k es := by
  have hb := initPmm_blocks hwf.memoryMap hr
  by_cases hne : usable es = []
  · -- the list starts at the end of the kernel, also when nothing was built there
    refine iff_of_false ?_ (fun h => h.1 hne)
    rw [lowRam_eq, hne]
    exact k.memoryZones_ne_zero
  · have hz := initPmm_zones hwf.memoryMap hfit hr
    have hcells : cellsOf (initialZones k es) = cellsOf (newZones es) := cellsOf_initialZones k es
    rw [k.memoryZones_eq (initialZones_ne k hne), mirrors_iff hfit hz (by rw [hcells]; exact Nat.le_of_eq (Nat.zero_add _)), and_iff_right hne,
      ← length_lowRam_iff hb]
    have heq : (lowRam es).length = (usable es).length → lowRam es = usable es := by
      intro hlen
      rw [lowRam_eq] at hlen ⊢
      exact List.filter_sublist.eq_of_length hlen
    constructor
    · intro h
      have hlen : (lowRam es).length = (usable es).length := by
        rw [← h.length_eq, length_initialZones]
      rw [heq hlen, initialZones_madeFrom_iff] at h
      exact ⟨hlen, h⟩
    · rintro ⟨hlen, hn⟩
      rw [heq hlen, initialZones_madeFrom_iff]
      exact hn

end

/-- The zones of `twoZones` mirror its entries. -/
theorem zones_mirror_twoZones : ∃ m,
    Returns (initPmm smallKernel (bootOf 0x9000 twoZones) (mapInfo 0x9000 twoZones) (fun _ => 0)) m ∧
      Mirrors m smallKernel.memoryZones (lowRam twoZones) := by
  obtain ⟨m, hm, _⟩ := exists_init smallKernel (bootOf 0x9000 twoZones) (mapInfo 0x9000 twoZones) 40 (fun _ => ()) ()
    (by decide)
  exact ⟨m, hm, (zones_mirror_iff (wellFormed_bootOf (by decide) (by decide)) twoZones_placed.fits hm).mpr
    ⟨by decide, by decide, twoZones_noSpill⟩⟩

/-- A memory map of one reserved entry. -/
def noRam : List MmapEntry := [⟨20, 0xF0000, 0, 0x10000, 0, 2⟩]

/-- No entry is usable, and the list of zones is not empty. -/
theorem zones_not_mirror : WellFormed (bootOf 0x9000 noRam) (mapInfo 0x9000 noRam) noRam ∧ lowRam noRam = [] ∧
    ∃ m, Returns (initPmm smallKernel (bootOf 0x9000 noRam) (mapInfo 0x9000 noRam) (fun _ => 0)) m ∧
      ¬Mirrors m smallKernel.memoryZones (lowRam noRam) := by
  obtain ⟨m, hm, _⟩ := exists_init smallKernel (bootOf 0x9000 noRam) (mapInfo 0x9000 noRam) 40 (fun _ => ()) ()
    (by decide)
  have hempty : lowRam noRam = [] := by decide
  refine ⟨wellFormed_bootOf (by decide) (by decide), hempty, m, hm, ?_⟩
  rw [hempty]
  exact smallKernel.memoryZones_ne_zero

end LumOS
