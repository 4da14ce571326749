import LumOS.Pmm.Walk

/-!
# Reserving the kernel's blocks, and `init_pmm` as a whole

The reservation sets a range of bits in each zone that the reserved range overlaps. The range ends at the block of the zone's last
byte; a zone that ends in part of a block and whose blocks fill the words of its bitmap has no bit for that block, and the bit
that is set is the lowest bit of the word behind the bitmap, the `start` of the next zone (`Zone.spills`, `Zone.bump`). What
`init_pmm` leaves is `initialZones`.
-/

namespace LumOS

open Comp

namespace Zone

/-- The test of `init_pmm` for a zone that the reserved range overlaps. -/
def overlaps (z : Zone) (resStart resEnd : BitVec 32) : Bool :=
  (resStart ≤ z.start ∧ resEnd ≥ z.start) ∨ (resStart ≥ z.start ∧ resStart ≤ z.end_)

/-- `startbit` -/
def startbit (z : Zone) (resStart : BitVec 32) : BitVec 32 :=
  getOffset z.start (if z.start > resStart then z.start else resStart)

/-- `endbit` -/
def endbit (z : Zone) (resEnd : BitVec 32) : BitVec 32 :=
  getOffset z.start (if z.end_ < resEnd then z.end_ else resEnd)

/-- The zone with its reserved blocks used. -/
def reserved (z : Zone) (resStart resEnd : BitVec 32) : Zone :=
  if z.overlaps resStart resEnd then
    z.reserve (fun j => decide ((z.startbit resStart).toNat ≤ j ∧ j < (z.endbit resEnd).toNat + 1))
  else z

/-- The reservation sets the bit behind the bitmap. -/
def spills (z : Zone) (resStart resEnd : BitVec 32) : Bool :=
  z.overlaps resStart resEnd ∧ 32 * z.bitmapWords.toNat ≤ (z.endbit resEnd).toNat

/-- The zone with the lowest bit of its start set, when the zone before it spilt. -/
def bump (z : Zone) (b : Bool) : Zone := if b then { z with start := z.start ||| 1 } else z

@[simp] theorem bump_false (z : Zone) : z.bump false = z := rfl

@[simp] theorem bump_cells (z : Zone) (b : Bool) : (z.bump b).cells = z.cells := by
  cases b <;> rfl

@[simp] theorem reserved_cells (z : Zone) (resStart resEnd : BitVec 32) : (z.reserved resStart resEnd).cells = z.cells := by
  unfold reserved
  split <;> rfl

/-- The range of bits is a range, and it ends one past the blocks at most. -/
def RangeOk (z : Zone) (resStart resEnd : BitVec 32) : Prop :=
  z.overlaps resStart resEnd = true →
    (z.startbit resStart).toNat ≤ (z.endbit resEnd).toNat ∧ (z.endbit resEnd).toNat ≤ z.length.toNat

end Zone

/-- A list of zones with the first one's start changed when the zone before it spilt. -/
def bumpHead (b : Bool) : List Zone → List Zone
  | [] => []
  | z :: zs => z.bump b :: zs

theorem bumpHead_false (zs : List Zone) : bumpHead false zs = zs := by
  cases zs <;> rfl

/-- The reservation on a list of zones; `b` says whether the zone before the list spilt. -/
def reserveZones (resStart resEnd : BitVec 32) : Bool → List Zone → List Zone
  | _, [] => []
  | b, z :: zs => (z.bump b).reserved resStart resEnd :: reserveZones resStart resEnd ((z.bump b).spills resStart resEnd) zs

@[simp] theorem cellsOf_reserveZones (resStart resEnd : BitVec 32) (b : Bool) (zs : List Zone) :
    cellsOf (reserveZones resStart resEnd b zs) = cellsOf zs := by
  induction zs generalizing b with
  | nil => rfl
  | cons z zs ih => simp [reserveZones, cellsOf, ih]

/-- A zone after the reservation is a zone before it, with its start changed or not, and its reserved blocks used. -/
theorem mem_reserveZones {resStart resEnd : BitVec 32} {zs : List Zone} {b : Bool} {z : Zone}
    (h : z ∈ reserveZones resStart resEnd b zs) : ∃ y ∈ zs, ∃ b', z = (y.bump b').reserved resStart resEnd := by
  induction zs generalizing b with
  | nil => cases h
  | cons y ys ih =>
    rcases List.mem_cons.mp h with rfl | h
    · exact ⟨y, List.mem_cons_self, b, rfl⟩
    · obtain ⟨x, hx, b', he⟩ := ih h
      exact ⟨x, List.mem_cons_of_mem y hx, b', he⟩

/-- Setting the lowest bit adds one to an even number. -/
theorem toNat_or_one (x : BitVec 32) : (x ||| 1).toNat = x.toNat + (1 - x.toNat % 2) := by
  have h : (x ||| 1).toNat = x.toNat ||| 1 := by simp
  have hd : (x.toNat ||| 1) / 2 = x.toNat / 2 := by rw [Nat.or_div_two]; simp
  have hm : (x.toNat ||| 1) % 2 = 1 := Nat.or_mod_two_eq_one.mpr (Or.inr rfl)
  rw [h]
  omega

section

variable {base : BitVec 32} {m m' : Mem} {h : Nat} {z : Zone} {next resStart resEnd : BitVec 32}

/-- The reservation of one zone in memory: the zone's blocks are used, and of the bits outside of its bitmap only the one behind it
can change. -/
theorem reserveZone_ensures (hz : ZoneAt base m h z next) (hc : h + z.cells < Mem.cells) (hok : z.RangeOk resStart resEnd) :
    Ensures (reserveZone resStart resEnd m (Mem.cell base h)) (fun m' =>
      ZoneAt base m' h (z.reserved resStart resEnd) next ∧
      ∀ n < 32 * Mem.cells, n < 32 * h ∨ 32 * (h + z.cells) ≤ n →
        m'.bit base n = (m.bit base n || decide (n = 32 * (h + z.cells) ∧ z.spills resStart resEnd = true))) := by
  have hl := z.length_le
  have hlb := z.length_le_bits
  unfold reserveZone
  simp only [hz.header .start, hz.header .end_, hz.header .bitmap, Zone.header]
  by_cases ho : z.overlaps resStart resEnd = true
  · have hov := of_decide_eq_true ho
    obtain ⟨hle, hend⟩ := hok ho
    have hcells : z.cells = 8 + z.bitmapWords.toNat := rfl
    rw [if_pos hov]
    have hset : Ensures (setBits m (Mem.cell base (h + 8)) (z.startbit resStart) (z.endbit resEnd)) _ :=
      setBits_ensures m base (h + 8) (by omega) (by omega) (by omega)
    refine hset.imp ?_
    intro m' hm
    refine ⟨?_, fun n hn hout => ?_⟩
    · rw [Zone.reserved, if_pos ho]
      exact hz.filled (by omega) hm
    · rw [hm n hn]
      by_cases hr : 32 * (h + 8) + (z.startbit resStart).toNat ≤ n ∧ n < 32 * (h + 8) + (z.endbit resEnd).toNat + 1
      · have hn' : n = 32 * (h + z.cells) := by omega
        have hs : z.spills resStart resEnd = true := decide_eq_true ⟨ho, by omega⟩
        rw [if_pos hr]
        simp [hn', hs]
      · rw [if_neg hr]
        have hs : ¬(n = 32 * (h + z.cells) ∧ z.spills resStart resEnd = true) := by
          rintro ⟨hn', hs⟩
          have := (of_decide_eq_true hs).2
          omega
        rw [decide_eq_false hs, Bool.or_false]
  · have hov := of_decide_eq_false (Bool.not_eq_true _ ▸ ho)
    rw [if_neg hov]
    refine ensures_pure ⟨?_, fun n _ _ => ?_⟩
    · rw [Zone.reserved, if_neg ho]
      exact hz
    · have hs : ¬(n = 32 * (h + z.cells) ∧ z.spills resStart resEnd = true) := by
        rintro ⟨_, hs⟩
        exact ho (of_decide_eq_true hs).1
      rw [decide_eq_false hs, Bool.or_false]

/-- The lowest bit of a zone's start is the lowest bit of the zone's cells. -/
theorem ZoneAt.bump {b : Bool} (hz : ZoneAt base m h z next) (hc : h + z.cells ≤ Mem.cells)
    (hm : ∀ n < 32 * Mem.cells, 32 * h ≤ n → m'.bit base n = (m.bit base n || decide (n = 32 * h ∧ b = true))) :
    ZoneAt base m' h (z.bump b) next := by
  have h8 := z.eight_le_cells
  have hcells : z.cells = 8 + z.bitmapWords.toNat := rfl
  have hother : ∀ n < 32 * Mem.cells, 32 * h < n → m'.bit base n = m.bit base n := by
    intro n hn hlt
    rw [hm n hn (by omega), decide_eq_false (by omega), Bool.or_false]
  cases b with
  | false =>
    refine hz.congr (fun n h1 h2 => ?_)
    rw [hm n (by omega) h1]
    simp
  | true =>
    refine ⟨fun f => ?_, fun i hi => ?_⟩
    · by_cases hf : f = .start
      · subst hf
        have hstart := hz.header .start
        rw [zoneField_cell] at hstart ⊢
        simp only [Field.index, Nat.add_zero] at hstart ⊢
        rw [Mem.load_cell_or_one (m := m), hstart]
        · rfl
        · intro n h1 h2
          rw [hm n (by omega) h1]
          simp
      · have hidx : 0 < f.index := by cases f <;> first | exact absurd rfl hf | decide
        have hlt := f.index_lt
        rw [zoneField_cell, Mem.load_cell_ext (m := m), ← zoneField_cell, hz.header f]
        · cases f <;> first | rfl | exact absurd rfl hf
        · intro n h1 h2
          exact hother n (by omega) (by omega)
    · change i < 32 * z.bitmapWords.toNat at hi
      rw [hother _ (by omega) (by omega), hz.bits i hi]
      rfl

/-- The bit behind a bitmap is the lowest bit of the next zone's start. -/
theorem ZonesAt.bumpHead {zs : List Zone} {b : Bool} (hz : ZonesAt base m h zs) (hc : h + cellsOf zs ≤ Mem.cells)
    (hm : ∀ n < 32 * Mem.cells, 32 * h ≤ n → m'.bit base n = (m.bit base n || decide (n = 32 * h ∧ b = true))) :
    ZonesAt base m' h (bumpHead b zs) := by
  cases zs with
  | nil => trivial
  | cons y ys =>
    have h8 := y.eight_le_cells
    simp only [cellsOf] at hc
    refine ⟨?_, ?_⟩
    · rw [Zone.bump_cells]
      exact hz.1.bump (by omega) hm
    · rw [Zone.bump_cells]
      refine hz.2.congr (fun n h1 h2 => ?_)
      rw [hm n (by omega) (by omega), decide_eq_false (by omega), Bool.or_false]

/-- The reservation of the first zone of a list in memory: the zone behind it is changed when the first one spills. -/
theorem ZonesAt.reserveHead {zs : List Zone} {b : Bool} (hz : ZonesAt base m h (LumOS.bumpHead b (z :: zs)))
    (hc : h + cellsOf (z :: zs) < Mem.cells) (hok : (z.bump b).RangeOk resStart resEnd) :
    Ensures (reserveZone resStart resEnd m (Mem.cell base h)) (fun m' =>
      ZoneAt base m' h ((z.bump b).reserved resStart resEnd) (ptrTo base (h + z.cells) zs) ∧
      ZonesAt base m' (h + z.cells) (LumOS.bumpHead ((z.bump b).spills resStart resEnd) zs) ∧
      ∀ n < 32 * h, m'.bit base n = m.bit base n) := by
  obtain ⟨hza, hzs⟩ := hz
  rw [Zone.bump_cells] at hza hzs
  simp only [cellsOf] at hc
  refine (reserveZone_ensures hza (by rw [Zone.bump_cells]; omega) hok).imp ?_
  rintro m' ⟨hz', hbits⟩
  rw [Zone.bump_cells] at hbits
  refine ⟨hz', hzs.bumpHead (by omega) (fun n hn h1 => hbits n hn (Or.inr h1)), ?_⟩
  intro n hn
  have h8 := z.eight_le_cells
  rw [hbits n (by omega) (Or.inl hn), decide_eq_false (by omega), Bool.or_false]

/-- The reservation along a list of zones in memory, the first of them changed when the zone before it spilt. -/
theorem reserveLoop_ensures {n : Nat} (hfit : Fits base n) {zs : List Zone} :
    ∀ {m : Mem} {h : Nat} {b : Bool}, ZonesAt base m h (bumpHead b zs) → h + cellsOf zs ≤ n →
    (∀ z ∈ zs, ∀ b, (z.bump b).RangeOk resStart resEnd) →
    Ensures (loop (fun (_, zone) => zone ≠ 0)
      (fun (m, zone) => do
        let m ← reserveZone resStart resEnd m zone
        return (m, zoneField m zone .nextZone)) (m, ptrTo base h zs))
      (fun s => ZonesAt base s.1 h (reserveZones resStart resEnd b zs) ∧ ∀ n < 32 * h, s.1.bit base n = m.bit base n) := by
  induction zs with
  | nil =>
    intro m h b _ _ _
    exact ⟨_, returns_loop_exit (by simp [ptrTo]), trivial, fun _ _ => rfl⟩
  | cons z zs ih =>
    intro m h b hz hn hok
    have hlt := hfit.lt_cells
    have h8 := z.eight_le_cells
    obtain ⟨m₁, hm₁, hz₁, htail, hfr₁⟩ := hz.reserveHead (by omega) (hok z (by simp) b)
    simp only [cellsOf] at hn
    obtain ⟨s, hs, hzs, hfr⟩ := ih htail (by omega) (fun y hy => hok y (List.mem_cons_of_mem z hy))
    have hnext : zoneField m₁ (ptrTo base h (z :: zs)) .nextZone = ptrTo base (h + z.cells) zs := hz₁.header .nextZone
    refine ⟨s, returns_loop_turn (decide_eq_true (hfit.cell_ne_zero (by omega)))
      (returns_bind.mpr ⟨m₁, hm₁, returns_pure.mpr rfl⟩) (by rw [hnext]; exact hs), ⟨?_, ?_⟩, ?_⟩
    · rw [Zone.reserved_cells, Zone.bump_cells]
      have hp : ptrTo base (h + z.cells) (reserveZones resStart resEnd ((z.bump b).spills resStart resEnd) zs) =
          ptrTo base (h + z.cells) zs := by
        cases zs <;> rfl
      rw [hp]
      refine hz₁.congr (fun n _ h2 => ?_)
      rw [Zone.reserved_cells, Zone.bump_cells] at h2
      exact hfr n h2
    · rw [Zone.reserved_cells, Zone.bump_cells]
      exact hzs
    · intro n hn'
      rw [hfr n (by omega), hfr₁ n hn']

end

/-! ## The zones of the memory map -/

/-- The last byte of an entry's zone is in its last block, or in the part of a block behind it. -/
theorem MmapEntry.zone_span (e : MmapEntry) (he : 1 ≤ e.blocks) :
    (e.zone.end_ - e.zone.start).toNat + 1 = e.lengthLow.toNat := by
  have hlt := e.lengthLow.isLt
  simp only [MmapEntry.blocks] at he
  simp only [MmapEntry.zone]
  bv_omega

theorem toNat_getOffset (start target : BitVec 32) : (getOffset start target).toNat = (target - start).toNat / 4096 := by
  simp [getOffset, blockSize, BitVec.toNat_udiv]

/-- The first and the last reserved byte of a zone that the reserved range overlaps, as distances from the zone's start. -/
theorem reserved_range {start end_ resStart resEnd : BitVec 32} (hle : resStart ≤ resEnd)
    (ho : (resStart ≤ start ∧ resEnd ≥ start) ∨ (resStart ≥ start ∧ resStart ≤ end_)) :
    ((if start > resStart then start else resStart) - start).toNat ≤ ((if end_ < resEnd then end_ else resEnd) - start).toNat ∧
      ((if end_ < resEnd then end_ else resEnd) - start).toNat ≤ (end_ - start).toNat := by
  by_cases h1 : start > resStart <;> by_cases h2 : end_ < resEnd <;>
    simp only [h1, h2, if_true, if_false] <;> bv_omega

/-- The bit range of an entry's zone is within its bitmap and the bit behind it, also when the zone before it spilt. -/
theorem MmapEntry.rangeOk (e : MmapEntry) (he : 1 ≤ e.blocks) {resStart resEnd : BitVec 32} (hle : resStart ≤ resEnd)
    (b : Bool) : (e.zone.bump b).RangeOk resStart resEnd := by
  intro ho
  have hspan := e.zone_span he
  have hlen : (e.zone.bump b).length.toNat = e.lengthLow.toNat / 4096 := by
    cases b <;> exact e.toNat_length
  have hbump : ((e.zone.bump b).end_ - (e.zone.bump b).start).toNat < e.lengthLow.toNat := by
    cases b with
    | false =>
      rw [Zone.bump_false]
      omega
    | true =>
      have hone := toNat_or_one e.zone.start
      have hlow : 4096 ≤ e.lengthLow.toNat := by simp only [MmapEntry.blocks] at he; omega
      simp only [Zone.bump, if_true]
      bv_omega
  obtain ⟨h1, h2⟩ := reserved_range hle (of_decide_eq_true ho)
  simp only [Zone.startbit, Zone.endbit, toNat_getOffset, hlen]
  omega

/-! ## `init_pmm` -/

/-- The zones `init_pmm` leaves. -/
def initialZones (k : Kernel) (es : List MmapEntry) : List Zone :=
  reserveZones k.resStart (k.resEnd (structuresSize es)) false (newZones es)

/-- The structures of a map with a usable entry take some memory. -/
theorem cellsOf_newZones_pos {es : List MmapEntry} (hne : usable es ≠ []) : 8 ≤ cellsOf (newZones es) :=
  eight_le_cellsOf (List.map_eq_nil_iff.not.mpr hne)

theorem initialZones_ne (k : Kernel) {es : List MmapEntry} (hne : usable es ≠ []) : initialZones k es ≠ [] := by
  intro h
  have hpos := cellsOf_newZones_pos hne
  rw [← cellsOf_reserveZones k.resStart (k.resEnd (structuresSize es)) false, ← initialZones, h] at hpos
  exact absurd hpos (by decide)

/-- The walk along a list of zones in memory ends. -/
theorem printZones_ensures {base : BitVec 32} {m : Mem} {n : Nat} (hfit : Fits base n) {zs : List Zone} :
    ∀ {h : Nat}, ZonesAt base m h zs → h + cellsOf zs ≤ n → Ensures (printZones m (ptrTo base h zs)) (fun _ => True) := by
  suffices ∀ {h : Nat}, ZonesAt base m h zs → h + cellsOf zs ≤ n →
      Returns (loop (fun zone => zone ≠ 0) (fun zone => pure (zoneField m zone .nextZone)) (ptrTo base h zs)) 0 by
    intro h hz hn
    exact ⟨(), returns_bind.mpr ⟨0, this hz hn, returns_pure.mpr rfl⟩, trivial⟩
  induction zs with
  | nil =>
    intro h _ _
    exact returns_loop_exit (by simp [ptrTo])
  | cons z zs ih =>
    intro h hz hn
    have h8 := z.eight_le_cells
    simp only [cellsOf] at hn
    have hnext : zoneField m (ptrTo base h (z :: zs)) .nextZone = ptrTo base (h + z.cells) zs := hz.1.header .nextZone
    refine returns_loop_turn (decide_eq_true (hfit.cell_ne_zero (by omega))) (returns_pure.mpr rfl) ?_
    rw [hnext]
    exact ih hz.2 (by omega)

/-- The reserved range is a range, when the structures fit. -/
theorem resStart_le_of_fits {k : Kernel} {es : List MmapEntry} (hne : usable es ≠ [])
    (hfit : Fits k.kernelEnd (cellsOf (newZones es))) : k.resStart ≤ k.resEnd (structuresSize es) := by
  have h1 := k.offset_le
  have h2 := k.start_le
  have h3 := hfit.2
  have h4 := cellsOf_newZones_pos hne
  simp only [Kernel.resStart, Kernel.resEnd, structuresSize, virtualKernelOffset] at h1 ⊢
  bv_omega

/-- The bit ranges of the new zones are in their bitmaps and the bits behind them. -/
theorem newZones_rangeOk {es : List MmapEntry} (hblocks : ∀ e ∈ usable es, 1 ≤ e.blocks) {resStart resEnd : BitVec 32}
    (hle : resStart ≤ resEnd) : ∀ z ∈ newZones es, ∀ b, (z.bump b).RangeOk resStart resEnd := by
  intro z hz b
  obtain ⟨e, he, rfl⟩ := List.mem_map.mp hz
  exact e.rangeOk (hblocks e he) hle b

/-- The walk from the start of the memory map builds the zones of its usable entries. -/
theorem walk_newZones {k : Kernel} {boot : Boot} {mbt : MultibootInfo} {es : List MmapEntry} (m₀ : Mem)
    (hmap : MemoryMap boot mbt es) (hfit : Fits k.kernelEnd (cellsOf (newZones es))) (hblocks : ∀ e ∈ usable es, 1 ≤ e.blocks) :
    Ensures (walk k boot mbt m₀) (WalkInv k.kernelEnd (newZones es)) := by
  have hstart : WalkInv k.kernelEnd [] ⟨mbt.mmapStart, m₀, 0, 0⟩ := ⟨trivial, Or.inl ⟨rfl, rfl⟩, rfl⟩
  have hfit' : Fits k.kernelEnd (cellsOf [] + cellsOf (newZones es)) := by
    rw [cellsOf, Nat.zero_add]
    exact hfit
  have hwalk := walk_ensures hmap hblocks (w := ⟨mbt.mmapStart, m₀, 0, 0⟩) rfl hstart hfit'
  rw [List.nil_append] at hwalk
  unfold walk
  exact hwalk

/-- `init_pmm` on a map with a usable entry, all of whose usable entries have blocks and whose structures fit below the end of the
address space, returns, and the zones are in memory. -/
theorem initPmm_ensures {k : Kernel} {boot : Boot} {mbt : MultibootInfo} {es : List MmapEntry} (m₀ : Mem)
    (hflags : mbt.flags &&& mbtFlagIsMmap ≠ 0) (hmap : MemoryMap boot mbt es) (hne : usable es ≠ [])
    (hfit : Fits k.kernelEnd (cellsOf (newZones es))) (hblocks : ∀ e ∈ usable es, 1 ≤ e.blocks) :
    Ensures (initPmm k boot mbt m₀) (fun m => ZonesAt k.kernelEnd m 0 (initialZones k es)) := by
  have hnew : newZones es ≠ [] := List.map_eq_nil_iff.not.mpr hne
  have hcells : cellsOf (initialZones k es) = cellsOf (newZones es) := cellsOf_reserveZones _ _ _ _
  unfold initPmm
  rw [if_neg hflags]
  -- the walk builds the zones
  refine Ensures.bind (walk_newZones m₀ hmap hfit hblocks) ?_
  intro w hw
  -- the reservation goes along them
  refine Ensures.bind (Q := fun m => ZonesAt k.kernelEnd m 0 (initialZones k es)) ?_ ?_
  · have hzero : ZonesAt k.kernelEnd w.mem 0 (bumpHead false (newZones es)) := by
      rw [bumpHead_false]
      exact hw.zones
    unfold reserveKernel
    rw [k.memoryZones_eq hnew, hw.size]
    refine Ensures.bind (reserveLoop_ensures hfit hzero (Nat.le_of_eq (Nat.zero_add _))
      (newZones_rangeOk hblocks (resStart_le_of_fits hne hfit))) ?_
    rintro ⟨m, _⟩ ⟨hz, _⟩
    exact ensures_pure hz
  · intro m hm
    rw [k.memoryZones_eq (initialZones_ne k hne)]
    refine Ensures.bind (printZones_ensures hfit hm (Nat.le_of_eq (by rw [hcells, Nat.zero_add]))) ?_
    intro _ _
    exact ensures_pure hm

/-- `init_pmm` goes on to the reservation only when the memory map is there and the walk of it has returned. -/
theorem initPmm_walk {k : Kernel} {boot : Boot} {mbt : MultibootInfo} {m₀ m : Mem} (hr : Returns (initPmm k boot mbt m₀) m) :
    mbt.flags &&& mbtFlagIsMmap ≠ 0 ∧ ∃ w, Returns (walk k boot mbt m₀) w := by
  unfold initPmm at hr
  by_cases hflags : mbt.flags &&& mbtFlagIsMmap = 0
  · rw [if_pos hflags] at hr
    exact absurd hr not_returns_diverge
  · rw [if_neg hflags] at hr
    obtain ⟨w, hw, _⟩ := returns_bind.mp hr
    exact ⟨hflags, w, hw⟩

/-- When `init_pmm` returns, every usable entry has a block. -/
theorem initPmm_blocks {k : Kernel} {boot : Boot} {mbt : MultibootInfo} {m₀ m : Mem} {es : List MmapEntry}
    (hmap : MemoryMap boot mbt es) (hr : Returns (initPmm k boot mbt m₀) m) : ∀ e ∈ usable es, 1 ≤ e.blocks := by
  obtain ⟨_, w, hw⟩ := initPmm_walk hr
  exact walk_blocks hw hmap

/-- When `init_pmm` returns on a map with a usable entry whose structures fit below the end of the address space, every usable entry
has a block, and the zones are in memory. -/
theorem initPmm_returns {k : Kernel} {boot : Boot} {mbt : MultibootInfo} {m₀ m : Mem} {es : List MmapEntry}
    (hmap : MemoryMap boot mbt es) (hne : usable es ≠ []) (hfit : Fits k.kernelEnd (cellsOf (newZones es)))
    (hr : Returns (initPmm k boot mbt m₀) m) :
    (∀ e ∈ usable es, 1 ≤ e.blocks) ∧ ZonesAt k.kernelEnd m 0 (initialZones k es) := by
  have hblocks := initPmm_blocks hmap hr
  exact ⟨hblocks, (initPmm_ensures m₀ (initPmm_walk hr).1 hmap hne hfit hblocks).of_returns hr⟩

end LumOS
