import LumOS.Pmm.FirstFit

/-!
# `pmm_free` undoes `pmm_alloc`

A block that `pmm_alloc` takes from the first zone, given back at once, leaves the memory as it was, word for word, on a map whose zones
lie apart (`free_undoes_alloc`).
-/

namespace LumOS

open Comp

/-- A bit that was not set, set and cleared again. -/
theorem or_and_not_one_shift {w : BitVec 32} {t : Nat} (ht : t < 32) (hw : w.getLsbD t = false) :
    (w ||| 1#32 <<< t) &&& ~~~(1#32 <<< t) = w := by
  refine BitVec.eq_of_getLsbD_eq fun i hi => ?_
  rw [getLsbD_and_not_one_shift _ _ _ ht, getLsbD_or_one_shift _ _ _ ht]
  by_cases h : i = t
  · subst h
    simp [hw]
  · simp [h]

/-- Where the bit of an offset is in its bitmap. -/
theorem unsetBit_eq (m : Mem) (bitmap i : BitVec 32) : unsetBit m bitmap i = m.store (Mem.cell bitmap (i.toNat / 32))
    (m.load (Mem.cell bitmap (i.toNat / 32)) &&& ~~~(1#32 <<< (i % word).toNat)) := by
  rw [unsetBit, word_addr_zero]

/-- A bit that was not set is set and a counter is lowered, and then the other way round. -/
theorem restore {m : Mem} {bitmap zone i : BitVec 32} (hu : m.bit bitmap i.toNat = false)
    (hne : Mem.cell bitmap (i.toNat / 32) ≠ Mem.cell zone Field.free.index) {v : BitVec 32} (hv : v = zoneField m zone .free) :
    setZoneField (unsetBit (setZoneField (setBit m bitmap i) zone .free (v - 1)) bitmap i) zone .free (v - 1 + 1) = m := by
  have hword : (m.load (Mem.cell bitmap (i.toNat / 32)) ||| 1#32 <<< (i % word).toNat) &&& ~~~(1#32 <<< (i % word).toNat) =
      m.load (Mem.cell bitmap (i.toNat / 32)) := by
    rw [toNat_mod_word]
    exact or_and_not_one_shift (Nat.mod_lt _ (by decide)) hu
  rw [BitVec.sub_add_cancel, setBit_eq, unsetBit_eq]
  simp only [setZoneField]
  rw [Mem.load_store_of_ne _ _ hne, Mem.load_store_self, hword, Mem.store_comm _ hne, Mem.store_store, Mem.store_comm _ hne,
    Mem.store_store, hv, zoneField, Mem.store_load, Mem.store_load]

section

variable {k : Kernel} {boot : Boot} {mbt : MultibootInfo} {es : List MmapEntry} {c : Client} {m : Mem}

/-- What `pmm_alloc` writes: nothing, or one bit of the zone where it has found a block, and that zone's counter. -/
theorem pmmAlloc_writes {zs : List Zone} (hz : ZonesAt k.kernelEnd m 0 zs) (hne : zs ≠ []) (hfit : Fits k.kernelEnd (cellsOf zs))
    (hhint : ∀ z ∈ zs, z.lastOffset = 0) :
    Ensures (pmmAlloc k m) (fun r => r = (0, m) ∨ ∃ pre z suf, zs = pre ++ z :: suf ∧ ∃ i : BitVec 32, i.toNat < z.length.toNat ∧
      z.used i.toNat = false ∧ r = (z.address i.toNat, setZoneField (setBit m (Mem.cell k.kernelEnd (cellsOf pre + 8)) i)
        (Mem.cell k.kernelEnd (cellsOf pre)) .free (z.free - 1))) := by
  unfold pmmAlloc
  refine Ensures.bind (searchFree_ensures hz hne hfit) ?_
  rintro ptr (⟨rfl, -⟩ | ⟨pre, z, suf, rfl, -, -, hptr, rfl, hza⟩)
  · exact ensures_pure (Or.inl rfl)
  rw [if_neg hptr, hza.header .bitmap, hza.header .length, hza.header .lastOffset, Zone.header, Zone.header, Zone.header,
    hhint z (by simp)]
  have hl := z.length_le_bits
  refine findBlock_ensures (Or.inl (Nat.le_trans z.length_le (by decide))) hl ?_ (fun _ => Or.inl rfl) ?_
  · intro i hle hi
    rw [hza.bitmap_bit hi, z.padded i hle]
  · intro i hi hu _
    have hlt := hfit.lt_cells
    rw [cellsOf_append, cellsOf] at hlt
    simp only [Zone.cells] at hlt
    have hset := hza.setBit (by simp only [Zone.cells]; omega) (i := i) (by omega)
    have hfree : zoneField (setBit m (Mem.cell k.kernelEnd (cellsOf pre + 8)) i) (Mem.cell k.kernelEnd (cellsOf pre)) .free = z.free :=
      hset.header .free
    have hstart := (hz.take hfit hi).middle.header .start
    rw [hfree, Nat.zero_add] at hstart
    refine ensures_pure (Or.inr ⟨pre, z, suf, rfl, i, hi, ?_, ?_⟩)
    · rw [← hza.bitmap_bit (by omega), hu]
    · rw [hfree, hstart, z.address_toNat]
      rfl

theorem Tracked.limit_eq (t : Tracked) : t.zone.limit = t.init.limit := by
  rw [Zone.limit, Zone.limit, t.start_eq, t.length_eq]

/-- The calls leave the zones apart, and below the end of the address space. -/
theorem Tracks.apart {zs : List Zone} {s : ZoneState} {ts : List Tracked} (ht : Tracks zs s ts) (ho : Orderly zs) :
    s.zones.Pairwise Zone.Apart ∧ ∀ z ∈ s.zones, z.limit ≤ 2 ^ 32 := by
  have hapart := ho.apart
  have hlimit := ho.limit_le
  rw [← ht.init, List.pairwise_map] at hapart
  rw [← ht.init, List.forall_mem_map] at hlimit
  rw [← ht.zones, List.pairwise_map, List.forall_mem_map]
  refine ⟨hapart.imp ?_, fun t htm => ?_⟩
  · intro t u h
    rwa [Zone.Apart, t.limit_eq, u.limit_eq, t.start_eq, u.start_eq]
  · rw [t.limit_eq]
    exact hlimit t htm

/-- What `pmm_free` writes: one bit of the first zone, and that zone's counter. -/
theorem pmmFree_writes {z : Zone} {next a : BitVec 32} (hz : ZoneAt k.kernelEnd m 0 z next)
    (hin : ¬(z.start > a ∧ a > z.end_)) :
    Returns (pmmFree k m a) (setZoneField (unsetBit m (Mem.cell k.kernelEnd 8) (getOffset z.start a)) (Mem.cell k.kernelEnd 0) .free
      (zoneField (unsetBit m (Mem.cell k.kernelEnd 8) (getOffset z.start a)) (Mem.cell k.kernelEnd 0) .free + 1)) := by
  have hne := k.memoryZones_ne_zero
  have hstart : zoneField m (Mem.cell k.kernelEnd 0) .start = z.start := hz.header .start
  have hend : zoneField m (Mem.cell k.kernelEnd 0) .end_ = z.end_ := hz.header .end_
  have hbitmap : zoneField m (Mem.cell k.kernelEnd 0) .bitmap = Mem.cell k.kernelEnd 8 := hz.header .bitmap
  rw [k.memoryZones_cell] at hne
  unfold pmmFree
  rw [k.memoryZones_cell]
  refine returns_bind.mpr ⟨_, returns_loop_exit ?_, ?_⟩
  · rw [decide_eq_false_iff_not, hstart, hend]
    exact fun h => hin h.2
  · rw [if_neg hne, hstart, hbitmap]
    exact returns_pure.mpr rfl

/-- A block of the first zone that was not used, given back just after it has been taken. -/
theorem ZonesAt.pmmFree_take {z : Zone} {suf : List Zone} (hz : ZonesAt k.kernelEnd m 0 (z :: suf))
    (hfit : Fits k.kernelEnd (cellsOf (z :: suf))) {i : BitVec 32} (hi : i.toNat < z.length.toNat) (hu : z.used i.toNat = false)
    (hlimit : z.limit ≤ 2 ^ 32) (hin : ¬(z.start > z.address i.toNat ∧ z.address i.toNat > z.end_)) :
    Returns (pmmFree k (setZoneField (setBit m (Mem.cell k.kernelEnd 8) i) (Mem.cell k.kernelEnd 0) .free (z.free - 1))
      (z.address i.toNat)) m := by
  have hlt := hfit.lt_cells
  have hl := z.length_le_bits
  rw [cellsOf, Zone.cells] at hlt
  have hza : ZoneAt k.kernelEnd m 0 z (ptrTo k.kernelEnd z.cells suf) := by simpa using hz.1
  have hheader : z.free = zoneField m (Mem.cell k.kernelEnd 0) .free := (hza.header .free).symm
  have hset := hza.setBit (by simp only [Zone.cells]; omega) (i := i) (by omega)
  rw [Nat.zero_add] at hset
  have htake : ZoneAt k.kernelEnd _ 0 (z.take i.toNat) _ := hset.setFree (by simp only [Zone.cells, Zone.reserve]; omega) (z.free - 1)
  generalize hm' : setZoneField (setBit m (Mem.cell k.kernelEnd 8) i) (Mem.cell k.kernelEnd 0) .free (z.free - 1) = m' at htake
  have hoff : getOffset (z.take i.toNat).start (z.address i.toNat) = i := BitVec.eq_of_toNat_eq (z.getOffset_address hlimit hi)
  have hunset := htake.unsetBit (by rw [Zone.take_cells, Zone.cells]; omega) (i := i) hi
  have hfree : zoneField (unsetBit m' (Mem.cell k.kernelEnd 8) i) (Mem.cell k.kernelEnd 0) .free = z.free - 1 := hunset.header .free
  have hbit : m.bit (Mem.cell k.kernelEnd 8) i.toNat = false := by
    rw [← hu, ← hza.bitmap_bit (by omega)]
  -- the bitmap is behind the header
  have hapart : Mem.cell (Mem.cell k.kernelEnd 8) (i.toNat / 32) ≠ Mem.cell (Mem.cell k.kernelEnd 0) Field.free.index := by
    rw [Mem.cell_zero, Mem.cell, ← Mem.cell_add]
    have hfield := Field.free.index_lt
    intro hcell
    have := Mem.cell_inj (by omega) (by rw [Mem.cells]; omega) hcell
    omega
  have hwrites := pmmFree_writes (a := z.address i.toNat) htake hin
  rw [hoff, hfree, ← hm', restore hbit hapart hheader] at hwrites
  rwa [← hm']

/-- In every run on a memory map of disjoint entries below 4 GiB, whose structures fit and on which no reservation changes the next
zone's start, in which only blocks of the first zone are given back: what `pmm_alloc` has taken from the first zone can be given back at
once, and that leaves the memory as it was before. -/
theorem free_undoes_alloc {a : BitVec 32} (hmap : MemoryMap boot mbt es) (hd : DisjointMap es) (hp : Placed k es) (hn : NoSpill k es)
    (hc : (clientSystem k boot mbt ownedByZone).Reachable c) (ha : Returns (pmmAlloc k c.mem) (a, m))
    (hin : ownedByZone (zoneField c.mem k.memoryZones .start) (zoneField c.mem k.memoryZones .length) a) :
    Returns (pmmFree k m a) c.mem := by
  obtain ⟨hne, hin⟩ := hin
  have hb := client_blocks hmap hp hc
  obtain ⟨s, ts, hrep, hs, hts, -⟩ := client_tracked hmap hd hp hn (fun _ _ _ h => h) hc
  obtain ⟨hapart, hlimit⟩ := hts.apart (orderly_initialZones hd hn hb)
  have hfit := zone_fits hp hs
  have hz := hrep.1
  rcases (pmmAlloc_writes hz (zone_ne hp hs) hfit (zone_hint hs)).of_returns ha with h | ⟨pre, z, suf, hzones, i, hi, hu, h⟩
  · exact absurd (Prod.mk.inj h).1 hne
  obtain ⟨rfl, rfl⟩ := Prod.mk.inj h
  have hshaped := zone_shapes hs
  rw [hzones] at hz hfit hapart hlimit hshaped
  cases pre with
  | nil =>
    have hlim := hlimit z List.mem_cons_self
    have hoff : (getOffset z.start (z.address i.toNat)).toNat < z.length.toNat := by rwa [z.getOffset_address hlim hi]
    exact hz.pmmFree_take hfit hi hu hlim (hshaped.search hp hb hoff)
  | cons y pre =>
    -- the block would be in two zones
    rw [List.cons_append] at hz hapart
    rw [hz.first .start, hz.first .length] at hin
    have hy := y.covers_of_inZone (hlimit y (by simp)) hin
    have hzin := z.covers_address (hlimit z (by simp)) hi
    have hyz := (List.pairwise_cons.mp hapart).1 z (by simp)
    exact absurd hzin (hyz.not_covers hy)

end

/-- A memory map of one entry of two blocks. -/
def twoBlocks : List MmapEntry := [⟨20, 0x3800, 0, 0x2000, 0, 1⟩]

theorem twoBlocks_disjoint : DisjointMap twoBlocks where
  below := by decide
  disjoint := by simp [twoBlocks]

theorem twoBlocks_placed : Placed smallKernel twoBlocks := ⟨by decide, by decide, by decide⟩

theorem twoBlocks_noSpill : NoSpill smallKernel twoBlocks := by
  unfold NoSpill
  decide

theorem twoBlocks_memoryMap : MemoryMap (bootOf 0x9000 twoBlocks) (mapInfo 0x9000 twoBlocks) twoBlocks :=
  memoryMap_bootOf (by decide) (by decide)

/-- The second block of a zone of two. -/
theorem free_undoes_alloc_twoBlocks : ∃ (c : Client) (m : Mem), c.held = [0x3800] ∧
    Returns (pmmAlloc smallKernel c.mem) (0x4800, m) ∧ Returns (pmmFree smallKernel m 0x4800) c.mem := by
  obtain ⟨c, a, m, hc, ha, hx⟩ := exists_session_alloc smallKernel ownedByZone (bootOf 0x9000 twoBlocks)
    (mapInfo 0x9000 twoBlocks) 40 [.alloc] (fun c a _ => (c.held, a, zoneField c.mem smallKernel.memoryZones .start,
      zoneField c.mem smallKernel.memoryZones .length)) (([0x3800], 0x4800, 0x3800, 2)) (by decide)
  simp only [Prod.mk.injEq] at hx
  obtain ⟨hheld, rfl, hstart, hlength⟩ := hx
  refine ⟨c, m, hheld, ha, free_undoes_alloc twoBlocks_memoryMap twoBlocks_disjoint twoBlocks_placed twoBlocks_noSpill hc ha ?_⟩
  rw [hstart, hlength]
  decide

end LumOS
