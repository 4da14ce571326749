import LumOS.Pmm.Safety

/-!
# The free counters

`init_pmm` sets a zone's counter to its number of blocks and does not lower it for the blocks it then sets: the block at address 0
and the kernel's. A counter is too high by the number of these, for ever. So a counter agrees with its bitmap in every run when
there are no such blocks (`counters_agree`), and `pmm_alloc`, which looks for a block only in the first zone whose counter is not
0, runs out too early when a zone behind one with such blocks has unused ones (`alloc_null_full`).
-/

namespace LumOS

open Comp

/-- The number of unset bits among those that stand for blocks of a zone. -/
def freeBits (m : Mem) (zone : BitVec 32) : Nat :=
  Nat.count (fun i => zoneBit m zone i = false) (zoneField m zone .length).toNat

theorem ZoneAt.freeBits_eq {base : BitVec 32} {m : Mem} {h : Nat} {z : Zone} {next : BitVec 32} (hz : ZoneAt base m h z next) :
    freeBits m (Mem.cell base h) = z.unset := by
  have hl := z.length_le_bits
  have hbit : ∀ i < z.length.toNat, zoneBit m (Mem.cell base h) i = z.used i := fun i hi => hz.zoneBit_eq (by omega)
  rw [freeBits, hz.header .length, Zone.header, Zone.unset]
  refine Nat.le_antisymm (Nat.count_mono_left (fun i hi h => ?_)) (Nat.count_mono_left (fun i hi h => ?_))
  · rw [← hbit i hi]
    exact h
  · rw [hbit i hi]
    exact h

section

variable {k : Kernel} {boot : Boot} {mbt : MultibootInfo} {es : List MmapEntry} {c : Client}

/-- Which blocks of an entry's zone are used when `init_pmm` returns. -/
theorem taken_unset_iff (hp : Placed k es) {e : MmapEntry} (h : e.base + e.len ≤ 2 ^ 32) (hb : 1 ≤ e.blocks) :
    ((e.zone.reserved k.resStart (k.resEnd (structuresSize es))).taken = 0 ↔ ∀ i < e.blocks, ¬SetAtInit k es e i) ∧
      ((e.zone.reserved k.resStart (k.resEnd (structuresSize es))).unset = 0 ↔ ∀ i < e.blocks, SetAtInit k es e i) := by
  rw [Zone.taken_eq_zero, Zone.unset_eq_zero, (e.limit_le h hb _ _).2.1]
  constructor
  · refine forall₂_congr fun i hi => ?_
    rw [← used_reserved_iff hp h hb hi, Bool.not_eq_true]
  · refine forall₂_congr fun i hi => ?_
    rw [← used_reserved_iff hp h hb hi]

/-! ## Counters and bitmaps -/

/-- Every zone's counter is the number of its unset bits, in every run on a memory map of disjoint entries below 4 GiB where no
whole block is at address 0 or meets the reserved range, and in which only blocks of the first zone are given back. -/
theorem counters_agree {q : BitVec 32} (hmap : MemoryMap boot mbt es) (hd : DisjointMap es) (hp : Placed k es) (hn : NoSpill k es)
    (hset : ∀ e ∈ usable es, ∀ i < e.blocks, ¬SetAtInit k es e i) (hc : (clientSystem k boot mbt ownedByZone).Reachable c)
    (hq : InList c.mem k.memoryZones q) : (zoneField c.mem q .free).toNat = freeBits c.mem q := by
  have hb := client_blocks hmap hp hc
  obtain ⟨s, ts, hrep, hs, hts, _⟩ := client_tracked hmap hd hp hn (fun _ _ _ h => h) hc
  obtain ⟨pre, z, suf, hsplit, rfl⟩ := hrep.1.exists_of_inList (zone_ne hp hs) (zone_fits hp hs) hq
  have hza := (hsplit ▸ hrep.1).middle
  obtain ⟨tpre, t, tsuf, rfl, rfl, rfl, rfl⟩ := tracked_split (hts.zones.trans hsplit)
  have htaken : t.init.taken = 0 := by
    have hinit := hts.mem_init (t := t) (by simp)
    rw [initialZones_eq_map hn] at hinit
    obtain ⟨e, he, hez⟩ := List.mem_map.mp hinit
    have hbelow := hd.below e (usable_type he).1 (usable_type he).2
    rw [← hez]
    exact (taken_unset_iff hp hbelow (hb e he)).1.mpr (hset e he)
  rw [hza.freeBits_eq, hza.header .free, Zone.header, t.count, htaken, Nat.add_zero]

end

/-- After one block of `twoZones` has been given out. -/
theorem counters_agree_twoZones : ∃ c : Client, c.held = [0x1000] ∧
    (zoneField c.mem smallKernel.memoryZones .free).toNat = freeBits c.mem smallKernel.memoryZones := by
  obtain ⟨c, hc, hheld⟩ := exists_session smallKernel ownedByZone (bootOf 0x9000 twoZones)
    (mapInfo 0x9000 twoZones) 40 [.alloc] (Client.held) ([0x1000]) (by decide)
  exact ⟨c, hheld, counters_agree twoZones_memoryMap twoZones_disjoint twoZones_placed twoZones_noSpill
    (by unfold SetAtInit; decide) hc (.here (by decide))⟩

/-- A memory map of one block at address 0, and of one block behind it. -/
def nullZone : List MmapEntry := [⟨20, 0, 0, 0x1000, 0, 1⟩, ⟨20, 0x4000, 0, 0x1000, 0, 1⟩]

theorem nullZone_memoryMap : MemoryMap (bootOf 0x9000 nullZone) (mapInfo 0x9000 nullZone) nullZone :=
  memoryMap_bootOf (by decide) (by decide)

theorem nullZone_disjoint : DisjointMap nullZone where
  below := by decide
  disjoint := by simp [nullZone, MmapEntry.range, MmapEntry.base, MmapEntry.len]

/-- The zone at address 0 has the counter 1 and no unset bit when `init_pmm` returns. -/
theorem counters_disagree : MemoryMap (bootOf 0x9000 nullZone) (mapInfo 0x9000 nullZone) nullZone ∧ DisjointMap nullZone ∧
    ∃ (c : Client) (q : BitVec 32), (clientSystem smallKernel (bootOf 0x9000 nullZone) (mapInfo 0x9000 nullZone) notNull).Reachable c ∧
      c.held = [] ∧ InList c.mem smallKernel.memoryZones q ∧ zoneField c.mem q .free = 1 ∧ freeBits c.mem q = 0 := by
  obtain ⟨c, hc, hx⟩ := exists_session smallKernel notNull (bootOf 0x9000 nullZone)
    (mapInfo 0x9000 nullZone) 40 []
    (fun c => (c.held, zoneField c.mem smallKernel.memoryZones .free, freeBits c.mem smallKernel.memoryZones))
    (([], 1, 0)) (by decide)
  simp only [Prod.mk.injEq] at hx
  exact ⟨nullZone_memoryMap, nullZone_disjoint, c, smallKernel.memoryZones, hc, hx.1, .here (by decide), hx.2⟩

/-! ## Running out -/

section

variable {k : Kernel} {boot : Boot} {mbt : MultibootInfo} {es : List MmapEntry} {c : Client}

/-- When `pmm_alloc` returns `NULL` the zones are as before, and every counter is 0 or the first zone with another one is full. -/
theorem AllocStep.null {zs zs' : List Zone} (hne : ∀ z ∈ zs, ∀ i < z.length.toNat, z.used i = false → z.address i ≠ 0)
    (h : AllocStep zs 0 zs') : zs' = zs ∧ ((∀ z ∈ zs, z.free = 0) ∨
      ∃ pre z suf, zs = pre ++ z :: suf ∧ (∀ y ∈ pre, y.free = 0) ∧ z.free ≠ 0 ∧ ∀ j, z.used j = true) := by
  generalize ha : (0 : BitVec 32) = a at h
  cases h with
  | noZone hall => exact ⟨rfl, Or.inl (fun z hz => (hall z hz).trans ha.symm)⟩
  | noBlock hpre hz hfull =>
    exact ⟨rfl, Or.inr ⟨_, _, _, rfl, fun y hy => (hpre y hy).trans ha.symm, fun h => hz (h.trans ha), hfull⟩⟩
  | block _ _ hi hu _ => exact absurd ha.symm (hne _ (by simp) _ hi hu)

/-- A counter that is 0 belongs to a full zone. -/
theorem Tracked.unset_of_free {t : Tracked} (h : t.zone.free = 0) : t.zone.unset = 0 := by
  have hcount := t.count
  rw [h] at hcount
  have h0 : (0 : BitVec 32).toNat = 0 := rfl
  omega

/-- A full zone whose counter is not 0 had blocks used from the start. -/
theorem Tracked.taken_of_full {t : Tracked} (hfree : t.zone.free ≠ 0) (hfull : ∀ j, t.zone.used j = true) : t.init.taken ≠ 0 := by
  intro h0
  have hcount := t.count
  rw [h0, t.zone.unset_eq_zero.mpr (fun j _ => hfull j)] at hcount
  exact hfree (BitVec.eq_of_toNat_eq hcount)

/-- A zone that was full from the start is full. -/
theorem Tracked.unset_of_init {t : Tracked} (h : t.init.unset = 0) : t.zone.unset = 0 := by
  rw [Zone.unset_eq_zero] at h ⊢
  intro i hi
  rw [t.length_eq] at hi
  exact t.kept i (h i hi)

/-- When `pmm_alloc` returns `NULL` every zone is full, if every zone behind one with blocks used from the start was full from the
start. -/
theorem Tracks.full_of_null {zs zs' : List Zone} {s : ZoneState} {ts : List Tracked} (ho : Orderly zs)
    (hpair : zs.Pairwise (fun z y => z.taken ≠ 0 → y.unset = 0)) (ht : Tracks zs s ts) (h : AllocStep s.zones 0 zs') :
    zs' = s.zones ∧ ∀ t ∈ ts, t.zone.unset = 0 := by
  have hne : ∀ z ∈ s.zones, ∀ i < z.length.toNat, z.used i = false → z.address i ≠ 0 := by
    intro z hz i hi hu
    rw [← ht.zones] at hz
    obtain ⟨t, hmem, rfl⟩ := List.mem_map.mp hz
    rw [t.address_eq]
    refine ho.address_ne_zero (ht.mem_init hmem) (by rw [← t.length_eq]; exact hi) ?_
    by_contra hk
    rw [t.kept i (by simpa using hk)] at hu
    cases hu
  obtain ⟨hsame, hnull⟩ := h.null hne
  refine ⟨hsame, fun t hmem => ?_⟩
  rw [← ht.zones] at hnull
  rcases hnull with hall | ⟨pre, x, post, hsplit, hpre, hx, hfull⟩
  · exact Tracked.unset_of_free (hall t.zone (List.mem_map_of_mem hmem))
  · obtain ⟨tpre, u, tpost, rfl, rfl, rfl, rfl⟩ := tracked_split hsplit
    rcases List.mem_append.mp hmem with hmem | hmem
    · exact Tracked.unset_of_free (hpre t.zone (List.mem_map_of_mem hmem))
    rcases List.mem_cons.mp hmem with rfl | hmem
    · exact t.zone.unset_eq_zero.mpr (fun j _ => hfull j)
    · -- the full zone's counter is the number of its blocks used from the start
      rw [← ht.init, List.pairwise_map, List.pairwise_append] at hpair
      exact Tracked.unset_of_init ((List.pairwise_cons.mp hpair.2.1).1 t hmem (Tracked.taken_of_full hx hfull))

/-- When `pmm_alloc` returns `NULL`, every block of every zone is used, in every run on a memory map of disjoint entries below 4 GiB
where all blocks behind a zone with a block that is set from the start are set from the start, and in which only blocks of the
first zone are given back. -/
theorem alloc_null_full {m : Mem} {q : BitVec 32} {i : Nat} (hmap : MemoryMap boot mbt es) (hd : DisjointMap es)
    (hp : Placed k es) (hn : NoSpill k es)
    (hset : (usable es).Pairwise (fun e f => (∃ i < e.blocks, SetAtInit k es e i) → ∀ i < f.blocks, SetAtInit k es f i))
    (hc : (clientSystem k boot mbt ownedByZone).Reachable c) (ha : Returns (pmmAlloc k c.mem) (0, m))
    (hq : InList m k.memoryZones q) (hi : i < (zoneField m q .length).toNat) : zoneBit m q i = true := by
  have hb := client_blocks hmap hp hc
  obtain ⟨s, ts, hrep, hs, hts, _⟩ := client_tracked hmap hd hp hn (fun _ _ _ h => h) hc
  obtain ⟨zs, hstep, hz⟩ := client_alloc hp hrep hs ha
  have hpair : (initialZones k es).Pairwise (fun z y => z.taken ≠ 0 → y.unset = 0) := by
    rw [initialZones_eq_map hn, List.pairwise_map]
    refine List.Pairwise.imp_of_mem ?_ hset
    intro e f he hf h hne
    have hbe := hd.below e (usable_type he).1 (usable_type he).2
    have hbf := hd.below f (usable_type hf).1 (usable_type hf).2
    rw [ne_eq, (taken_unset_iff hp hbe (hb e he)).1] at hne
    refine (taken_unset_iff hp hbf (hb f hf)).2.mpr (h ?_)
    by_contra hno
    exact hne (fun i hi hset => hno ⟨i, hi, hset⟩)
  obtain ⟨rfl, hfull⟩ := hts.full_of_null (orderly_initialZones hd hn hb) hpair hstep
  obtain ⟨pre, z, suf, hsplit, rfl⟩ := hz.exists_of_inList (zone_ne hp hs) (zone_fits hp hs) hq
  have hza := (hsplit ▸ hz).middle
  obtain ⟨tpre, t, tsuf, rfl, rfl, rfl, rfl⟩ := tracked_split (hts.zones.trans hsplit)
  have hl := t.zone.length_le_bits
  rw [hza.header .length, Zone.header] at hi
  rw [hza.zoneBit_eq (by omega)]
  exact t.zone.unset_eq_zero.mp (hfull t (by simp)) i hi

end

/-- The three blocks of `twoZones` have been given out. -/
theorem alloc_null_full_twoZones : ∃ (c : Client) (m : Mem), c.held = [0x4800, 0x3800, 0x1000] ∧
    Returns (pmmAlloc smallKernel c.mem) (0, m) ∧ zoneBit m smallKernel.memoryZones 0 = true := by
  obtain ⟨c, a, m, hc, ha, hx⟩ := exists_session_alloc smallKernel ownedByZone (bootOf 0x9000 twoZones)
    (mapInfo 0x9000 twoZones) 40 [.alloc, .alloc, .alloc]
    (fun c a m => (c.held, a, zoneField m smallKernel.memoryZones .length))
    (([0x4800, 0x3800, 0x1000], 0, 1)) (by decide)
  simp only [Prod.mk.injEq] at hx
  obtain ⟨hheld, rfl, hlen⟩ := hx
  exact ⟨c, m, hheld, ha, alloc_null_full twoZones_memoryMap twoZones_disjoint twoZones_placed twoZones_noSpill
    (by unfold SetAtInit; decide) hc ha (.here (by decide)) (by rw [hlen]; decide)⟩

/-- The first call returns `NULL`, since the zone at address 0 is full and its counter is not 0, and the second zone's block is free. -/
theorem alloc_null_early : MemoryMap (bootOf 0x9000 nullZone) (mapInfo 0x9000 nullZone) nullZone ∧ DisjointMap nullZone ∧
    ∃ (c : Client) (m : Mem) (q : BitVec 32),
      (clientSystem smallKernel (bootOf 0x9000 nullZone) (mapInfo 0x9000 nullZone) notNull).Reachable c ∧
      Returns (pmmAlloc smallKernel c.mem) (0, m) ∧ InList m smallKernel.memoryZones q ∧ zoneField m q .length = 1 ∧
      zoneBit m q 0 = false := by
  obtain ⟨c, a, m, hc, ha, hx⟩ := exists_session_alloc smallKernel notNull (bootOf 0x9000 nullZone)
    (mapInfo 0x9000 nullZone) 40 []
    (fun _ a m => ([a, zoneField m smallKernel.memoryZones .nextZone, zoneField m 0xC0102024 .length],
      zoneBit m 0xC0102024 0))
    (([0, 0xC0102024, 1], false)) (by decide)
  simp only [Prod.mk.injEq, List.cons.injEq, and_true] at hx
  obtain ⟨⟨rfl, hq, hlen⟩, hbit⟩ := hx
  exact ⟨nullZone_memoryMap, nullZone_disjoint, c, m, 0xC0102024, hc, ha,
    .next (by decide) (by rw [hq]; exact .here (by decide)), hlen, hbit⟩

end LumOS
