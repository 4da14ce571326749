import LumOS.Pmm.Alloc

/-!
# The walk of the memory map

The entries of a memory map are those the walk visits (`MemoryMap`). A walk that returns has met no usable entry without a block,
since `unset_bits` does not return for one, and has left one zone for each usable entry, in the map's order (`walk_ensures`).
-/

namespace LumOS

open Comp

/-! ## The entries of a memory map -/

/-- The entries from an address up to `stop`, each found by the size field of the one before. -/
inductive MapEntries (boot : Boot) (stop : BitVec 32) : BitVec 32 → List MmapEntry → Prop where
  | done {p : BitVec 32} (h : ¬p < stop) : MapEntries boot stop p []
  | entry {p : BitVec 32} {es : List MmapEntry} (h : p < stop)
      (rest : MapEntries boot stop ((boot.entry p).next p) es) : MapEntries boot stop p (boot.entry p :: es)

/-- `es` are the entries of the memory map that `mbt` describes. -/
def MemoryMap (boot : Boot) (mbt : MultibootInfo) (es : List MmapEntry) : Prop :=
  MapEntries boot mbt.mmapEnd mbt.mmapStart es

/-- The entries the walk does not skip. -/
def usable (es : List MmapEntry) : List MmapEntry := es.filter (fun e => !e.skipped)

theorem usable_of_skipped {e : MmapEntry} {es : List MmapEntry} (h : e.skipped = true) : usable (e :: es) = usable es := by
  simp [usable, h]

theorem usable_of_not_skipped {e : MmapEntry} {es : List MmapEntry} (h : e.skipped = false) : usable (e :: es) = e :: usable es := by
  simp [usable, h]

namespace MmapEntry

/-- The number of whole blocks in an entry. -/
def blocks (e : MmapEntry) : Nat := e.lengthLow.toNat / 4096

theorem toNat_length (e : MmapEntry) : (e.lengthLow / blockSize).toNat = e.blocks := by
  simp [blocks, blockSize, BitVec.toNat_udiv]

theorem blocks_lt (e : MmapEntry) : e.blocks < 2 ^ 20 := by
  have := e.lengthLow.isLt
  simp only [blocks]
  omega

end MmapEntry

/-- `CEIL` of a number of blocks and the word size. -/
theorem toNat_ceil_word {x : BitVec 32} (hx : x.toNat < 2 ^ 20) : (ceil x word).toNat = (x.toNat + 31) / 32 := by
  have hm := toNat_mod_word x
  rw [ceil, BitVec.toNat_add, toNat_div_word]
  by_cases h : x % word = 0
  · rw [h] at hm
    have h0 : (0 : BitVec 32).toNat = 0 := rfl
    simp only [h, ne_eq, not_true_eq_false, if_false]
    omega
  · have hne : x.toNat % 32 ≠ 0 := by
      intro h0
      apply h
      apply BitVec.eq_of_toNat_eq
      rw [hm, h0]
      rfl
    have h1 : (1 : BitVec 32).toNat = 1 := rfl
    simp only [h, ne_eq, not_false_eq_true, if_true]
    omega

/-- The zone the walk builds from an entry: its blocks free but the one at address 0. -/
def MmapEntry.zone (e : MmapEntry) : Zone where
  start := e.baseLow
  end_ := e.baseLow + e.lengthLow - 1
  length := e.lengthLow / blockSize
  free := e.lengthLow / blockSize
  lastOffset := 0
  bitmapWords := ceil (e.lengthLow / blockSize) word
  used := fun i => decide (e.blocks ≤ i) || decide (e.baseLow = 0 ∧ i = 0)
  length_le := by rw [e.toNat_length]; exact Nat.le_of_lt e.blocks_lt
  length_le_bits := by
    rw [toNat_ceil_word (by rw [e.toNat_length]; exact e.blocks_lt), e.toNat_length]
    omega
  padded := fun i hi => by
    rw [e.toNat_length] at hi
    simp [hi]

theorem MmapEntry.toNat_bitmapWords (e : MmapEntry) : e.zone.bitmapWords.toNat = (e.blocks + 31) / 32 := by
  rw [← e.toNat_length]
  exact toNat_ceil_word (by rw [e.toNat_length]; exact e.blocks_lt)

/-- The zones of the usable entries. -/
def newZones (es : List MmapEntry) : List Zone := (usable es).map MmapEntry.zone

/-- `pmm_structures_size` after the walk. -/
def structuresSize (es : List MmapEntry) : BitVec 32 := BitVec.ofNat 32 (4 * cellsOf (newZones es))

/-! ## A new zone -/

section

variable {base : BitVec 32} {m m' : Mem} {h : Nat}

/-- The bitmap of a zone follows its header. -/
theorem cell_add_sizeofZone (base : BitVec 32) (h : Nat) : Mem.cell base h + sizeofZone = Mem.cell base (h + 8) := by
  rw [Mem.cell_add]
  rfl

/-- The fields that `init_pmm` writes, read back. -/
theorem zoneField_writeHeader (m : Mem) (base : BitVec 32) (h : Nat) (e : MmapEntry) (f : Field) :
    zoneField (writeHeader m (Mem.cell base h) e) (Mem.cell base h) f = e.zone.header base h 0 f := by
  have hb := cell_add_sizeofZone base h
  cases f <;> simp [writeHeader, zoneField_setZoneField, Zone.header, MmapEntry.zone, hb]

theorem bit_writeHeader {e : MmapEntry} {n : Nat} (hh : h + 8 ≤ Mem.cells) (hn : n < 32 * Mem.cells)
    (hout : n < 32 * h ∨ 32 * (h + 8) ≤ n) : (writeHeader m (Mem.cell base h) e).bit base n = m.bit base n := by
  have hf : ∀ f : Field, n / 32 ≠ h + f.index := by
    intro f
    have := f.index_lt
    omega
  simp only [writeHeader]
  rw [bit_setZoneField hh hn (hf _), bit_setZoneField hh hn (hf _), bit_setZoneField hh hn (hf _),
    bit_setZoneField hh hn (hf _), bit_setZoneField hh hn (hf _), bit_setZoneField hh hn (hf _),
    bit_setZoneField hh hn (hf _), bit_setZoneField hh hn (hf _)]

/-- A range of bits behind a header leaves the header. -/
theorem zoneField_filled {lo hi : Nat} {v : Bool} (hm : Filled base m m' lo hi v) (hh : h + 8 ≤ Mem.cells)
    (hlo : 32 * (h + 8) ≤ lo) (f : Field) :
    zoneField m' (Mem.cell base h) f = zoneField m (Mem.cell base h) f := by
  have hf := f.index_lt
  rw [zoneField_cell, zoneField_cell, hm.load_cell (by omega) (by omega)]

/-- The memory `m'` has the header of an entry's zone, and a bitmap with the blocks' bits clear and the padding set; the rest is as
in `m`. -/
structure Blank (base : BitVec 32) (h : Nat) (e : MmapEntry) (m m' : Mem) : Prop where
  header : ∀ f, zoneField m' (Mem.cell base h) f = e.zone.header base h 0 f
  bits : ∀ n < 32 * Mem.cells, 32 * (h + 8) ≤ n → n < 32 * (h + (8 + e.zone.bitmapWords.toNat)) →
    m'.bit base n = decide (32 * (h + 8) + e.blocks ≤ n)
  outside : ∀ n < 32 * Mem.cells, n < 32 * h ∨ 32 * (h + (8 + e.zone.bitmapWords.toNat)) ≤ n → m'.bit base n = m.bit base n

/-- The block at address 0 is taken, in a zone that starts there. -/
theorem Blank.start_zero {e : MmapEntry} {m m' : Mem} (hm : Blank base h e m m') (hs : e.baseLow = 0) (he : 1 ≤ e.blocks)
    (hwords : e.zone.bitmapWords.toNat = (e.blocks + 31) / 32) (hc : h + e.zone.cells < Mem.cells) :
    ZoneAt base (setBit m' (Mem.cell base (h + 8)) 0) h e.zone 0 ∧
      ∀ n < 32 * Mem.cells, n < 32 * h ∨ 32 * (h + e.zone.cells) ≤ n →
        (setBit m' (Mem.cell base (h + 8)) 0).bit base n = m.bit base n := by
  simp only [Zone.cells] at hc ⊢
  have hzero : (0 : BitVec 32).toNat = 0 := rfl
  have hbit : ∀ n < 32 * Mem.cells, (setBit m' (Mem.cell base (h + 8)) 0).bit base n =
      if n = 32 * (h + 8) then true else m'.bit base n := by
    intro n hn
    exact bit_setBit m' 0 (by rw [hzero]; omega) hn
  refine ⟨⟨?_, ?_⟩, ?_⟩
  · intro f
    have hf := f.index_lt
    rw [← hm.header f, zoneField_cell, zoneField_cell]
    refine Mem.load_cell_ext (fun n h1 h2 => ?_)
    rw [hbit n (by omega), if_neg (by omega)]
  · intro i hi
    rw [hbit _ (by omega)]
    by_cases hi0 : i = 0
    · subst hi0
      simp [MmapEntry.zone, hs]
    · rw [if_neg (by omega), hm.bits _ (by omega) (by omega) (by omega)]
      simp [MmapEntry.zone, hi0]
  · intro n hn ho
    rw [hbit n hn, if_neg (by omega), hm.outside n hn ho]

/-- A zone that starts elsewhere has no more bits set. -/
theorem Blank.start_ne_zero {e : MmapEntry} {m m' : Mem} (hm : Blank base h e m m') (hs : e.baseLow ≠ 0)
    (hc : h + e.zone.cells < Mem.cells) : ZoneAt base m' h e.zone 0 := by
  simp only [Zone.cells] at hc
  refine ⟨hm.header, ?_⟩
  intro i hi
  have hn : ¬(e.baseLow = 0 ∧ i = 0) := fun h0 => hs h0.1
  rw [hm.bits _ (by omega) (by omega) (by omega)]
  simp only [MmapEntry.zone, hn, decide_false, Bool.or_false, decide_eq_decide]
  omega

/-- A zone of at least one block is initialised: it is in memory, and the memory outside of it is as it was. -/
theorem initZone_ensures (m : Mem) {e : MmapEntry} (he : 1 ≤ e.blocks) (hc : h + e.zone.cells < Mem.cells) :
    Ensures (initZone m (Mem.cell base h) e) (fun m' => ZoneAt base m' h e.zone 0 ∧
      ∀ n < 32 * Mem.cells, n < 32 * h ∨ 32 * (h + e.zone.cells) ≤ n → m'.bit base n = m.bit base n) := by
  have hlen : e.zone.length.toNat = e.blocks := e.toNat_length
  have hlt := e.blocks_lt
  have hwords := e.toNat_bitmapWords
  have hcells := hc
  simp only [Zone.cells] at hcells
  have hlast : (e.zone.length - 1).toNat + 1 = e.blocks := by
    have h1 : (1 : BitVec 32).toNat = 1 := rfl
    bv_omega
  have hpad : (e.zone.bitmapWords * 32 - 1).toNat + 1 = 32 * e.zone.bitmapWords.toNat := by
    bv_omega
  have hhead := zoneField_writeHeader m base h e
  unfold initZone
  simp only [hhead .bitmap, hhead .length, Zone.header]
  -- the bits of the blocks are cleared
  refine Ensures.bind (unsetBits_ensures _ base (h + 8) (Nat.zero_le _) (by omega) (by omega)) ?_
  intro m₁ hm₁
  have hhead₁ : ∀ f, zoneField m₁ (Mem.cell base h) f = e.zone.header base h 0 f := by
    intro f
    rw [zoneField_filled hm₁ (by omega) (by omega), hhead]
  simp only [hhead₁ .bitmap, hhead₁ .length, hhead₁ .bitmapWords, Zone.header]
  -- the padding is set
  refine Ensures.bind (setBits_ensures m₁ base (h + 8) (by omega) (by omega) (by omega)) ?_
  intro m₂ hm₂
  have hzero : (0 : BitVec 32).toNat = 0 := rfl
  have hblank : Blank base h e m m₂ := by
    refine ⟨?_, ?_, ?_⟩
    · intro f
      rw [zoneField_filled hm₂ (by omega) (by omega), hhead₁]
    · intro n hn h1 h2
      rw [hm₂ n hn]
      by_cases hb : 32 * (h + 8) + e.blocks ≤ n
      · rw [if_pos (by omega)]
        simp [hb]
      · rw [if_neg (by omega), hm₁ n hn, if_pos (by omega)]
        simp [hb]
    · intro n hn ho
      rw [hm₂ n hn, if_neg (by omega), hm₁ n hn, if_neg (by omega), bit_writeHeader (by omega) hn (by omega)]
  simp only [hblank.header .start, hblank.header .bitmap, Zone.header]
  by_cases hs : e.baseLow = 0
  · rw [if_pos (show e.zone.start = 0 from hs)]
    exact ensures_pure (hblank.start_zero hs he hwords hc)
  · rw [if_neg (show ¬e.zone.start = 0 from hs)]
    exact ensures_pure ⟨hblank.start_ne_zero hs hc, hblank.outside⟩

end

/-- A zone without a block is not initialised: the end of its blocks is the largest number. -/
theorem initZone_diverges (m : Mem) (zone : BitVec 32) {e : MmapEntry} (he : e.blocks = 0) :
    Diverges (initZone m zone e) := by
  have hhead := zoneField_writeHeader m zone 0 e
  simp only [Mem.cell_zero] at hhead
  have hlen : e.zone.length = 0 := by
    apply BitVec.eq_of_toNat_eq
    rw [show e.zone.length.toNat = e.blocks from e.toNat_length, he]
    rfl
  unfold initZone
  simp only [hhead .bitmap, hhead .length, Zone.header]
  rw [hlen]
  exact (fillBits_diverges _ _ _ _).bind _

/-! ## Linking the zones -/

section

variable {base : BitVec 32} {m m' : Mem} {h : Nat}

/-- The link of a zone in memory is replaced. -/
theorem ZoneAt.setNext {z : Zone} {next : BitVec 32} (hz : ZoneAt base m h z next) (hc : h + z.cells ≤ Mem.cells)
    (v : BitVec 32) : ZoneAt base (setZoneField m (Mem.cell base h) .nextZone v) h z v := by
  simp only [Zone.cells] at hc
  refine ⟨fun f => ?_, fun i hi => ?_⟩
  · rw [zoneField_setZoneField, hz.header f]
    cases f <;> rfl
  · rw [bit_setZoneField (by omega) (by omega) (by simp only [Field.index]; omega)]
    exact hz.bits i hi

/-- A zone is appended to a list in memory: the last zone of the list has been linked to it, and the memory of the zones before
is as it was. -/
theorem ZonesAt.snoc {z y : Zone} : ∀ {pre : List Zone} {h : Nat}, ZonesAt base m h (pre ++ [z]) →
    ZoneAt base m' (h + cellsOf pre) z (Mem.cell base (h + cellsOf pre + z.cells)) →
    ZoneAt base m' (h + cellsOf pre + z.cells) y 0 →
    (∀ n, 32 * h ≤ n → n < 32 * (h + cellsOf pre) → m'.bit base n = m.bit base n) →
    ZonesAt base m' h (pre ++ [z] ++ [y]) := by
  intro pre
  induction pre with
  | nil =>
    intro h _ hz hy _
    exact ⟨hz, hy, trivial⟩
  | cons x pre ih =>
    intro h hzs hz hy hm
    simp only [cellsOf, ← Nat.add_assoc] at hz hy hm
    have h8 := x.eight_le_cells
    refine ⟨?_, ih hzs.2 hz hy (fun n h1 h2 => hm n (by omega) h2)⟩
    have hx := hzs.1
    have hp : ptrTo base (h + x.cells) (pre ++ [z] ++ [y]) = ptrTo base (h + x.cells) (pre ++ [z]) := by
      rw [List.append_assoc]
      exact ptrTo_append_cons _ pre _ [] z z
    show ZoneAt base m' h x (ptrTo base (h + x.cells) (pre ++ [z] ++ [y]))
    rw [hp]
    exact hx.congr (fun n h1 h2 => hm n h1 (by omega))

end

/-- What the walk keeps: the zones built so far are in memory, `current_zone` is the last of them and `pmm_structures_size` is
what they take. -/
structure WalkInv (base : BitVec 32) (zs : List Zone) (w : Walk) : Prop where
  zones : ZonesAt base w.mem 0 zs
  current : (zs = [] ∧ w.currentZone = 0) ∨ ∃ pre z, zs = pre ++ [z] ∧ w.currentZone = Mem.cell base (cellsOf pre)
  size : w.pmmStructuresSize = BitVec.ofNat 32 (4 * cellsOf zs)

/-- The size of one more zone. -/
theorem size_snoc (n : Nat) (z : Zone) :
    BitVec.ofNat 32 (4 * n) + (sizeofZone + z.bitmapWords * 4) = BitVec.ofNat 32 (4 * (n + z.cells)) := by
  apply BitVec.eq_of_toNat_eq
  simp only [Zone.cells, sizeofZone]
  bv_omega

/-- The address behind a zone, as `init_pmm` computes it. -/
theorem cell_behind (base : BitVec 32) (h : Nat) (z : Zone) :
    Mem.cell base h + sizeofZone + z.bitmapWords * 4 = Mem.cell base (h + z.cells) := by
  rw [cell_add_sizeofZone, Zone.cells, ← Nat.add_assoc, Mem.cell_add base (h + 8)]
  congr 1
  apply BitVec.eq_of_toNat_eq
  bv_omega

/-- The link to a new zone: it is behind the last one, and once a zone is there the list is longer by that zone. -/
theorem linkZone_snoc (k : Kernel) {zs : List Zone} {w : Walk} (hw : WalkInv k.kernelEnd zs w)
    (hfit : Fits k.kernelEnd (cellsOf zs)) :
    (linkZone k w.mem w.currentZone).2 = Mem.cell k.kernelEnd (cellsOf zs) ∧
      ∀ m' y, ZoneAt k.kernelEnd m' (cellsOf zs) y 0 →
        (∀ n < 32 * cellsOf zs, m'.bit k.kernelEnd n = (linkZone k w.mem w.currentZone).1.bit k.kernelEnd n) →
        ZonesAt k.kernelEnd m' 0 (zs ++ [y]) := by
  obtain ⟨hzs, ⟨rfl, hcur⟩ | ⟨pre, z, rfl, hcur⟩, _⟩ := hw
  · rw [hcur, linkZone, if_pos rfl]
    refine ⟨(Mem.cell_zero _).symm, fun m' y hy _ => ?_⟩
    exact ⟨hy, trivial⟩
  · have h8 := z.eight_le_cells
    have hlt := hfit.lt_cells
    have hza : ZoneAt k.kernelEnd w.mem (cellsOf pre) z 0 := by
      simpa [ptrTo] using hzs.middle
    have hcells : cellsOf (pre ++ [z]) = cellsOf pre + z.cells := by simp [cellsOf]
    rw [hcells] at hlt hfit ⊢
    rw [hcur, linkZone, if_neg (hfit.cell_ne_zero (by omega)), hza.header .bitmapWords, Zone.header, cell_behind]
    have hset := hza.setNext (by omega) (Mem.cell k.kernelEnd (cellsOf pre + z.cells))
    refine ⟨by simp only [hset.header .nextZone, Zone.header], fun m' y hy hm => ?_⟩
    simp only at hm
    refine ZonesAt.snoc hzs ?_ (by simpa using hy) (fun n _ h2 => ?_)
    · simp only [Nat.zero_add]
      exact hset.congr (fun n _ h2 => hm n h2)
    · rw [hm n (by omega), bit_setZoneField (by omega) (by omega) (by simp only [Field.index]; omega)]

/-- A turn of the walk at a usable entry with a block adds the entry's zone. -/
theorem walkStep_ensures (k : Kernel) (boot : Boot) {zs : List Zone} {w : Walk} (hw : WalkInv k.kernelEnd zs w)
    (hs : (boot.entry w.sect).skipped = false) (he : 1 ≤ (boot.entry w.sect).blocks)
    (hfit : Fits k.kernelEnd (cellsOf zs + (boot.entry w.sect).zone.cells)) :
    Ensures (walkStep k boot w) (fun w' => w'.sect = (boot.entry w.sect).next w.sect ∧
      WalkInv k.kernelEnd (zs ++ [(boot.entry w.sect).zone]) w') := by
  unfold walkStep
  simp only
  generalize boot.entry w.sect = e at hs he hfit ⊢
  have hfit' : Fits k.kernelEnd (cellsOf zs) := ⟨hfit.1, by have := hfit.2; omega⟩
  obtain ⟨hlink, hsnoc⟩ := linkZone_snoc k hw hfit'
  rw [if_neg (by simp [hs]), hlink]
  refine Ensures.bind (initZone_ensures _ he hfit.lt_cells) ?_
  rintro m' ⟨hz, hm⟩
  refine ensures_pure ⟨rfl, hsnoc m' _ hz (fun n hn => hm n ?_ (Or.inl hn)), Or.inr ⟨zs, _, rfl, rfl⟩, ?_⟩
  · have := hfit'.lt_cells
    omega
  · have hc : cellsOf (zs ++ [e.zone]) = cellsOf zs + e.zone.cells := by simp [cellsOf]
    simp only [hz.header .bitmapWords, Zone.header]
    rw [hw.size, size_snoc, hc]

/-- A turn of the walk at an entry that is skipped changes nothing but the address. -/
theorem walkStep_skipped (k : Kernel) (boot : Boot) {w : Walk} (hs : (boot.entry w.sect).skipped = true) :
    walkStep k boot w = pure { w with sect := (boot.entry w.sect).next w.sect } := by
  simp [walkStep, hs]

/-- A turn of the walk that returns goes to the next entry, and its own has a block if it is usable. -/
theorem walkStep_returns {k : Kernel} {boot : Boot} {w u : Walk} (hu : Returns (walkStep k boot w) u) :
    u.sect = (boot.entry w.sect).next w.sect ∧ ((boot.entry w.sect).skipped = false → 1 ≤ (boot.entry w.sect).blocks) := by
  by_cases hs : (boot.entry w.sect).skipped = true
  · rw [walkStep_skipped k boot hs] at hu
    rw [← returns_pure.mp hu]
    exact ⟨rfl, fun hf => by rw [hs] at hf; cases hf⟩
  · unfold walkStep at hu
    simp only at hu
    rw [if_neg hs] at hu
    obtain ⟨m', hm', hu⟩ := returns_bind.mp hu
    rw [← returns_pure.mp hu]
    refine ⟨rfl, fun _ => ?_⟩
    by_contra hb
    exact (initZone_diverges _ _ (by omega)).not_returns m' hm'

/-- A turn of the walk at an entry that is not usable or has a block returns, wherever the zone is. -/
theorem exists_walkStep (k : Kernel) {boot : Boot} {w : Walk}
    (he : (boot.entry w.sect).skipped = false → 1 ≤ (boot.entry w.sect).blocks) : ∃ u, Returns (walkStep k boot w) u := by
  by_cases hs : (boot.entry w.sect).skipped = true
  · rw [walkStep_skipped k boot hs]
    exact ⟨_, returns_pure.mpr rfl⟩
  · have hcells : 0 + (boot.entry w.sect).zone.cells < Mem.cells := by
      have hlt := (boot.entry w.sect).blocks_lt
      simp only [Zone.cells, MmapEntry.toNat_bitmapWords, Mem.cells]
      omega
    rcases hlink : linkZone k w.mem w.currentZone with ⟨m, zone⟩
    have hinit : ∃ m', Returns (initZone m zone (boot.entry w.sect)) m' := by
      rw [← Mem.cell_zero zone]
      obtain ⟨m', hm', _⟩ := initZone_ensures m (he (by simpa using hs)) hcells
      exact ⟨m', hm'⟩
    obtain ⟨m', hm'⟩ := hinit
    unfold walkStep
    simp only
    rw [if_neg hs, hlink]
    exact ⟨_, returns_bind.mpr ⟨m', hm', returns_pure.mpr rfl⟩⟩

/-- A walk that returns has met no usable entry without a block. -/
theorem walk_blocks {k : Kernel} {boot : Boot} {stop : BitVec 32} {w w' : Walk}
    (h : Returns (loop (fun w => w.sect < stop) (walkStep k boot) w) w') :
    ∀ {es : List MmapEntry}, MapEntries boot stop w.sect es → ∀ e ∈ usable es, 1 ≤ e.blocks := by
  refine h.loop_induct (P := fun s _ => ∀ {es : List MmapEntry}, MapEntries boot stop s.sect es →
    ∀ e ∈ usable es, 1 ≤ e.blocks) ?_ ?_
  · intro s hc es hes
    cases hes with
    | done _ => intro e he; cases he
    | entry hlt _ => exact absurd hlt (of_decide_eq_false hc)
  · intro s u t hc hu ih es hes
    cases hes with
    | done hge => exact absurd (of_decide_eq_true hc) hge
    | entry _ rest =>
      have hnext := walkStep_returns hu
      intro e he
      simp only [usable, List.mem_filter, List.mem_cons] at he
      obtain ⟨rfl | he, hns⟩ := he
      · exact hnext.2 (by simpa using hns)
      · exact ih (hnext.1 ▸ rest) e (List.mem_filter.mpr ⟨he, hns⟩)

/-- When every usable entry has a block and the zones fit, the walk returns and has built their zones. -/
theorem walk_ensures {k : Kernel} {boot : Boot} {stop : BitVec 32} {p : BitVec 32} {es : List MmapEntry}
    (hes : MapEntries boot stop p es) (hblocks : ∀ e ∈ usable es, 1 ≤ e.blocks) :
    ∀ {zs : List Zone} {w : Walk}, w.sect = p → WalkInv k.kernelEnd zs w →
      Fits k.kernelEnd (cellsOf zs + cellsOf (newZones es)) →
      Ensures (loop (fun w => w.sect < stop) (walkStep k boot) w) (WalkInv k.kernelEnd (zs ++ newZones es)) := by
  induction hes with
  | done hge =>
    intro zs w hp hw _
    refine ⟨w, returns_loop_exit ?_, by simpa [newZones, usable] using hw⟩
    rw [hp]
    exact decide_eq_false hge
  | @entry p es hlt _ ih =>
    intro zs w hp hw hfit
    subst hp
    by_cases hs : (boot.entry w.sect).skipped = true
    · have hu : usable (boot.entry w.sect :: es) = usable es := usable_of_skipped hs
      rw [newZones, hu, ← newZones] at hfit ⊢
      rw [hu] at hblocks
      obtain ⟨w', hw', hq⟩ := ih hblocks (w := { w with sect := (boot.entry w.sect).next w.sect }) rfl
        ⟨hw.zones, hw.current, hw.size⟩ hfit
      exact ⟨w', returns_loop_turn (decide_eq_true hlt) (by rw [walkStep_skipped k boot hs]; exact returns_pure.mpr rfl) hw', hq⟩
    · rw [Bool.not_eq_true] at hs
      have hu : usable (boot.entry w.sect :: es) = boot.entry w.sect :: usable es := usable_of_not_skipped hs
      rw [newZones, hu, List.map_cons, ← newZones] at hfit ⊢
      rw [hu] at hblocks
      simp only [cellsOf] at hfit
      obtain ⟨u, hu', hsect, hinv⟩ := walkStep_ensures k boot hw hs (hblocks _ (by simp))
        ⟨hfit.1, by have := hfit.2; omega⟩
      obtain ⟨w', hw', hq⟩ := ih (fun e he => hblocks e (List.mem_cons_of_mem _ he)) hsect hinv
        ⟨hfit.1, by have := hfit.2; rw [cellsOf_append]; simp only [cellsOf]; omega⟩
      exact ⟨w', returns_loop_turn (decide_eq_true hlt) hu' hw', by simpa using hq⟩

end LumOS
