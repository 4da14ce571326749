import LumOS.Pmm.Map
import LumOS.Pmm.Session

/-!
# Safety of the allocator

What a client of the PMM can rely on, over whole runs: a block that `pmm_alloc` returns is inside an entry of the memory map, off
the kernel and disjoint from every block the client holds (`alloc_safe`), and `pmm_free` gives back one block of one zone and
changes nothing else (`free_exact_iff`). Both hold as long as only blocks of the first zone are given back: the search of
`pmm_free` goes past a zone only when the address is below the zone's start and above its end, so it never leaves the first zone,
and an address of another zone is taken for an offset from the first zone's start.
-/

namespace LumOS

open Comp

section

variable {k : Kernel} {boot : Boot} {mbt : MultibootInfo} {es : List MmapEntry} {c : Client}

/-- The zones in a client's memory, with their past. -/
theorem client_tracked {ok : BitVec 32 → BitVec 32 → BitVec 32 → Prop} (hmap : MemoryMap boot mbt es) (hd : DisjointMap es)
    (hp : Placed k es) (hn : NoSpill k es) (hok : ∀ start length a, ok start length a → ownedByZone start length a)
    (h : (clientSystem k boot mbt ok).Reachable c) :
    ∃ s ts, Represents k c s ∧ (zoneSystem k es ok).Reachable s ∧ Tracks (initialZones k es) s ts ∧
      (poolSystem (poolOf (initialZones k es))).Reachable (outOf c.held) := by
  have ho := orderly_initialZones hd hn (client_blocks hmap hp h)
  obtain ⟨s, hs, hrep⟩ := (client_simulation hmap hp (fun _ _ _ h => (hok _ _ _ h).2)).reachable h
  obtain ⟨out, hout, rfl, ts, hts⟩ := (zone_pool_simulation ho hok).reachable hs
  exact ⟨s, ts, hrep, hs, hts, by rw [hrep.2]; exact hout⟩

/-- `pmm_alloc` in a client's memory is a step of the zones there. -/
theorem client_alloc {ok : BitVec 32 → BitVec 32 → BitVec 32 → Prop} (hp : Placed k es) {s : ZoneState} (hrep : Represents k c s)
    (hs : (zoneSystem k es ok).Reachable s) {a : BitVec 32} {m : Mem} (ha : Returns (pmmAlloc k c.mem) (a, m)) :
    ∃ zs, AllocStep s.zones a zs ∧ ZonesAt k.kernelEnd m 0 zs := by
  exact (pmmAlloc_ensures k hrep.1 (zone_ne hp hs) (zone_fits hp hs) (zone_hint hs)).of_returns ha

end

/-! ## What `pmm_alloc` returns -/

/-- The block at an address can be used by a client that holds `held`. -/
structure SafeBlock (k : Kernel) (es : List MmapEntry) (held : List (BitVec 32)) (a : BitVec 32) : Prop where
  inside : ∃ e ∈ es, e.type = 1 ∧ block a ⊆ e.range
  unreserved : Disjoint (block a) (reservedRange k es)
  apart : ∀ b ∈ held, b ≠ 0 → Disjoint (block a) (block b)

/-- Every address but `NULL` that `pmm_alloc` returns is that of a safe block, in every run on a memory map of disjoint entries
below 4 GiB in which only blocks of the first zone are given back. -/
theorem alloc_safe {k : Kernel} {boot : Boot} {mbt : MultibootInfo} {es : List MmapEntry} {c : Client} {a : BitVec 32} {m : Mem}
    (hmap : MemoryMap boot mbt es) (hd : DisjointMap es) (hp : Placed k es) (hn : NoSpill k es)
    (hc : (clientSystem k boot mbt ownedByZone).Reachable c) (ha : Returns (pmmAlloc k c.mem) (a, m)) (hne : a ≠ 0) :
    SafeBlock k es c.held a := by
  have hb := client_blocks hmap hp hc
  have ho := orderly_initialZones hd hn hb
  obtain ⟨s, ts, hrep, hs, hts, hout⟩ := client_tracked hmap hd hp hn (fun _ _ _ h => h) hc
  obtain ⟨zs, hstep, _⟩ := client_alloc hp hrep hs ha
  obtain ⟨_, _, ⟨rfl, _⟩ | ⟨_, hpool, hnot⟩⟩ := hts.alloc ho hstep
  · exact absurd rfl hne
  · obtain ⟨hin, hres⟩ := pool_block hp hd hn hb hpool
    refine ⟨hin, hres, fun b hb hb0 => ?_⟩
    rw [← hrep.2] at hnot
    exact pool_apart (pool_disjoint ho) hout hpool hnot b (mem_outOf.mpr ⟨hb, hb0⟩)

/-- A kernel of two pages at 1 MiB. -/
def smallKernel : Kernel := ⟨0xC0100000, 0xC0102000, by decide, by decide⟩

/-- A memory map of one block, and of two blocks that do not start at a multiple of the block size. -/
def twoZones : List MmapEntry := [⟨20, 0x1000, 0, 0x1000, 0, 1⟩, ⟨20, 0x3800, 0, 0x2000, 0, 1⟩]

theorem twoZones_memoryMap : MemoryMap (bootOf 0x9000 twoZones) (mapInfo 0x9000 twoZones) twoZones :=
  memoryMap_bootOf (by decide) (by decide)

theorem twoZones_disjoint : DisjointMap twoZones where
  below := by decide
  disjoint := by simp [twoZones, MmapEntry.range, MmapEntry.base, MmapEntry.len]

theorem twoZones_placed : Placed smallKernel twoZones := ⟨by decide, by decide, by decide⟩

theorem twoZones_noSpill : NoSpill smallKernel twoZones := by
  unfold NoSpill
  decide

/-- The second block that is given out is in the second entry. -/
theorem alloc_safe_second : ∃ (c : Client) (m : Mem), c.held = [0x1000] ∧ Returns (pmmAlloc smallKernel c.mem) (0x3800, m) ∧
    SafeBlock smallKernel twoZones c.held 0x3800 := by
  obtain ⟨c, a, m, hc, ha, hx⟩ := exists_session_alloc smallKernel ownedByZone (bootOf 0x9000 twoZones)
    (mapInfo 0x9000 twoZones) 40 [.alloc] (fun c a _ => (c.held, a))
    (([0x1000], 0x3800)) (by decide)
  obtain ⟨hheld, rfl⟩ := Prod.mk.inj hx
  exact ⟨c, m, hheld, ha, alloc_safe twoZones_memoryMap twoZones_disjoint twoZones_placed twoZones_noSpill hc ha (by decide)⟩

/-- When the second block is given back, its offset from the first zone's start is 2, and the next block given out is a third block of
the first zone, which has one. -/
theorem alloc_unsafe : MemoryMap (bootOf 0x9000 twoZones) (mapInfo 0x9000 twoZones) twoZones ∧ DisjointMap twoZones ∧
    ∃ (c : Client) (m : Mem),
      (clientSystem smallKernel (bootOf 0x9000 twoZones) (mapInfo 0x9000 twoZones) notNull).Reachable c ∧
      Returns (pmmAlloc smallKernel c.mem) (0x3000, m) ∧ ¬SafeBlock smallKernel twoZones c.held 0x3000 := by
  obtain ⟨c, a, m, hc, ha, hx⟩ := exists_session_alloc smallKernel notNull (bootOf 0x9000 twoZones)
    (mapInfo 0x9000 twoZones) 40 [.alloc, .alloc, .free 0x3800] (fun _ a _ => a)
    (0x3000) (by decide)
  subst hx
  refine ⟨twoZones_memoryMap, twoZones_disjoint, c, m, hc, ha, fun hsafe => ?_⟩
  obtain ⟨e, he, _, hsub⟩ := hsafe.inside
  have hlow : 0x3000 ∈ e.range := hsub ⟨by decide, by decide⟩
  simp only [twoZones, List.mem_cons, List.not_mem_nil, or_false] at he
  rcases he with rfl | rfl
  · exact absurd hlow.2 (by decide)
  · exact absurd hlow.1 (by decide)

/-! ## What `pmm_free` changes -/

/-- From `m` to `m'` block `i` of the zone at `q` is given back: its bit is cleared, the zone's counter is one more, and the rest of
the zone and the other zones are as they were. -/
structure FreesBlock (k : Kernel) (m m' : Mem) (q : BitVec 32) (i : Nat) : Prop where
  header : ∀ f, zoneField m' q f = if f = .free then zoneField m q .free + 1 else zoneField m q f
  bits : ∀ j < 32 * (zoneField m q .bitmapWords).toNat, zoneBit m' q j = if j = i then false else zoneBit m q j
  others : ∀ p, InList m k.memoryZones p → p ≠ q → (∀ f, zoneField m' p f = zoneField m p f) ∧
    ∀ j < 32 * (zoneField m p .bitmapWords).toNat, zoneBit m' p j = zoneBit m p j

section

variable {base : BitVec 32} {m m' : Mem}

/-- A zone that is in two memories at one place has the same fields and bits in both. -/
theorem ZoneAt.agree {h : Nat} {z : Zone} {next : BitVec 32} (hz : ZoneAt base m h z next) (hz' : ZoneAt base m' h z next) :
    (∀ f, zoneField m' (Mem.cell base h) f = zoneField m (Mem.cell base h) f) ∧
      ∀ j < 32 * (zoneField m (Mem.cell base h) .bitmapWords).toNat,
        zoneBit m' (Mem.cell base h) j = zoneBit m (Mem.cell base h) j := by
  refine ⟨fun f => by rw [hz.header f, hz'.header f], fun j hj => ?_⟩
  rw [hz.header .bitmapWords, Zone.header] at hj
  rw [hz.zoneBit_eq hj, hz'.zoneBit_eq hj]

/-- The first zone of a list in memory with a block given back. -/
theorem ZonesAt.frees {k : Kernel} {z : Zone} {suf : List Zone} {i : Nat} {hi : i < z.length.toNat}
    (hfit : Fits k.kernelEnd (cellsOf (z :: suf))) (hz : ZonesAt k.kernelEnd m 0 (z :: suf))
    (hz' : ZonesAt k.kernelEnd m' 0 (z.release i hi :: suf)) : FreesBlock k m m' k.memoryZones i := by
  rw [k.memoryZones_cell]
  refine ⟨fun f => ?_, fun j hj => ?_, fun p hp hne => ?_⟩
  · rw [hz'.1.header f, hz.1.header f, hz.1.header .free]
    cases f <;> rfl
  · rw [hz.1.header .bitmapWords, Zone.header] at hj
    rw [hz'.1.zoneBit_eq hj, hz.1.zoneBit_eq hj]
    by_cases he : j = i <;> simp [Zone.release, Zone.clear, Zone.withFree, he]
  · rw [k.memoryZones_cell] at hp
    obtain ⟨pre, y, ys, he, rfl⟩ := (inList_iff hfit hz (Nat.le_of_eq (Nat.zero_add _))).mp hp
    cases pre with
    | nil => exact absurd rfl hne
    | cons x pre =>
      obtain ⟨rfl, rfl⟩ := List.cons.inj he
      have hy : ZoneAt k.kernelEnd m (0 + cellsOf (z :: pre)) y _ := hz.middle
      have hy' : ZoneAt k.kernelEnd m' (0 + cellsOf (z.release i hi :: pre)) y _ := ZonesAt.middle hz'
      exact hy.agree hy'

end

/-- An address that is not both below the first zone and above it is freed there, whatever zone it is in. -/
theorem pmmFree_first {k : Kernel} {m : Mem} {a : BitVec 32} (h0 : k.memoryZones ≠ 0)
    (hin : ¬(zoneField m k.memoryZones .start > a ∧ a > zoneField m k.memoryZones .end_))
    (hmap : zoneField m k.memoryZones .bitmap = Mem.cell k.memoryZones 8) :
    Ensures (pmmFree k m a) (fun m' => zoneField m' k.memoryZones .free = zoneField m k.memoryZones .free + 1) := by
  unfold pmmFree
  refine Ensures.bind ⟨_, returns_loop_exit (decide_eq_false (fun h => hin h.2)), rfl⟩ ?_
  rintro ptr rfl
  rw [if_neg h0, hmap]
  refine ensures_pure ?_
  rw [zoneField_setZoneField, if_pos rfl]
  congr 1
  have hoff : (getOffset (zoneField m k.memoryZones .start) a).toNat < 2 ^ 20 := by
    have := (a - zoneField m k.memoryZones .start).isLt
    rw [toNat_getOffset]
    omega
  rw [zoneField, unsetBit, word_addr, Mem.load_store_cell, if_neg]
  · rfl
  · simp only [Field.index]
    omega
  · simp only [Mem.cells]
    omega
  · decide

/-- The address of a block of the zone at `q`, as `pmm_alloc` computes it. -/
def blockAddress (m : Mem) (q : BitVec 32) (i : Nat) : BitVec 32 := getAddress (zoneField m q .start) (BitVec.ofNat 32 i)

/-- No address is below a zone and above it at once, when the zone's entry is below 4 GiB. -/
theorem MmapEntry.zone_order {e : MmapEntry} (hbelow : e.base + e.len ≤ 2 ^ 32) (hb : 1 ≤ e.blocks) (a : BitVec 32) :
    ¬(e.zone.start > a ∧ a > e.zone.end_) := by
  obtain ⟨h1, h2⟩ := e.low_of_below hbelow hb
  have hspan := e.zone_span hb
  rw [h1, h2] at hbelow
  simp only [MmapEntry.blocks] at hb
  simp only [MmapEntry.zone] at hspan ⊢
  rintro ⟨h3, h4⟩
  bv_omega

section

variable {k : Kernel} {boot : Boot} {mbt : MultibootInfo} {es : List MmapEntry} {c : Client}

/-- The first zone of the list, in every run. -/
theorem client_first (hmap : MemoryMap boot mbt es) (hp : Placed k es)
    (hc : (clientSystem k boot mbt ownedByZone).Reachable c) :
    ∃ e z suf, e ∈ usable es ∧ ZonesAt k.kernelEnd c.mem 0 (z :: suf) ∧ Fits k.kernelEnd (cellsOf (z :: suf)) ∧
      z.shape = e.zone.shape := by
  obtain ⟨s, hs, hz, _⟩ := (client_simulation hmap hp (fun _ _ _ h => h.2)).reachable hc
  have hfit := zone_fits hp hs
  obtain ⟨e, z, suf, he, hzs, hshape⟩ := zone_head hp hs
  rw [hzs] at hz hfit
  exact ⟨e, z, suf, he, hz, hfit, hshape⟩

/-- A block of another zone is not given back: the first zone's counter goes up instead. -/
theorem not_frees_other {z : Zone} {suf : List Zone} {a q : BitVec 32} {i : Nat} {m : Mem}
    (hz : ZonesAt k.kernelEnd m 0 (z :: suf)) (hin : ¬(z.start > a ∧ a > z.end_)) (hq : q ≠ k.memoryZones) :
    ¬Ensures (pmmFree k m a) (fun m' => FreesBlock k m m' q i) := by
  intro hens
  have hstart : zoneField m k.memoryZones .start = z.start := hz.first .start
  have hend : zoneField m k.memoryZones .end_ = z.end_ := hz.first .end_
  have hbitmap : zoneField m k.memoryZones .bitmap = Mem.cell k.memoryZones 8 := hz.first .bitmap
  rw [← hstart, ← hend] at hin
  obtain ⟨m', hm, hfree⟩ := pmmFree_first k.memoryZones_ne_zero hin hbitmap
  have hothers := (hens.of_returns hm).others k.memoryZones (.here k.memoryZones_ne_zero) (Ne.symm hq)
  rw [hothers.1 .free] at hfree
  have h1 : (1 : BitVec 32).toNat = 1 := rfl
  bv_omega

/-- A block of the first zone is given back. -/
theorem frees_first {z : Zone} {suf : List Zone} {i : Nat} {m : Mem} (hz : ZonesAt k.kernelEnd m 0 (z :: suf))
    (hfit : Fits k.kernelEnd (cellsOf (z :: suf))) (hlim : z.limit ≤ 2 ^ 32) (hi : i < z.length.toNat)
    (hin : ¬(z.start > z.address i ∧ z.address i > z.end_)) :
    Ensures (pmmFree k m (z.address i)) (fun m' => FreesBlock k m m' k.memoryZones i) := by
  have hoff := z.getOffset_address hlim hi
  have hlt : (getOffset z.start (z.address i)).toNat < z.length.toNat := by
    rw [hoff]
    exact hi
  refine (pmmFree_ensures k hz hfit hin hlt).imp ?_
  intro m' hm
  have hfrees := hz.frees hfit hm
  rwa [hoff] at hfrees

end

/-- `pmm_free` of a block's address gives back that block and changes nothing else exactly when the block's zone is the first of the
list, in every run on a memory map of disjoint entries below 4 GiB in which only blocks of the first zone have been given back. -/
theorem free_exact_iff {k : Kernel} {boot : Boot} {mbt : MultibootInfo} {es : List MmapEntry} {c : Client} {q : BitVec 32} {i : Nat}
    (hmap : MemoryMap boot mbt es) (hd : DisjointMap es) (hp : Placed k es)
    (hc : (clientSystem k boot mbt ownedByZone).Reachable c) (hq : InList c.mem k.memoryZones q)
    (hi : i < (zoneField c.mem q .length).toNat) :
    Ensures (pmmFree k c.mem (blockAddress c.mem q i)) (fun m => FreesBlock k c.mem m q i) ↔ q = k.memoryZones := by
  obtain ⟨e, z, suf, he, hz, hfit, hshape⟩ := client_first hmap hp hc
  have hb := client_blocks hmap hp hc e he
  have hbelow := hd.below e (usable_type he).1 (usable_type he).2
  have hstart : z.start = e.zone.start := congrArg Shape.start hshape
  have hend : z.end_ = e.zone.end_ := congrArg Shape.end_ hshape
  have hlength : z.length = e.zone.length := congrArg Shape.length hshape
  have hin : ∀ a, ¬(z.start > a ∧ a > z.end_) := by
    intro a
    rw [hstart, hend]
    exact e.zone_order hbelow hb a
  constructor
  · intro hens
    by_contra hne
    exact not_frees_other hz (hin _) hne hens
  · intro heq
    subst heq
    have hlim : z.limit ≤ 2 ^ 32 := by
      have hreserved := e.zone.reserved_shape 0 0
      obtain ⟨_, _, hle⟩ := e.limit_le hbelow hb 0 0
      rw [Zone.limit, show (e.zone.reserved 0 0).start = e.zone.start from congrArg Shape.start hreserved,
        show (e.zone.reserved 0 0).length = e.zone.length from congrArg Shape.length hreserved, ← hstart, ← hlength] at hle
      exact Nat.le_trans hle hbelow
    have haddr : blockAddress c.mem k.memoryZones i = z.address i := by
      rw [blockAddress, hz.first .start]
      rfl
    rw [hz.first .length] at hi
    rw [haddr]
    exact frees_first hz hfit hlim hi (hin _)

/-- The block of the first zone is given back. -/
theorem free_exact_first : ∃ c : Client, c.held = [0x3800, 0x1000] ∧ blockAddress c.mem smallKernel.memoryZones 0 = 0x1000 ∧
    Ensures (pmmFree smallKernel c.mem (blockAddress c.mem smallKernel.memoryZones 0))
      (fun m => FreesBlock smallKernel c.mem m smallKernel.memoryZones 0) := by
  obtain ⟨c, hc, hx⟩ := exists_session smallKernel ownedByZone (bootOf 0x9000 twoZones)
    (mapInfo 0x9000 twoZones) 40 [.alloc, .alloc]
    (fun c => (c.held, blockAddress c.mem smallKernel.memoryZones 0, zoneField c.mem smallKernel.memoryZones .length))
    (([0x3800, 0x1000], 0x1000, 1)) (by decide)
  simp only [Prod.mk.injEq] at hx
  obtain ⟨hheld, haddr, hlen⟩ := hx
  exact ⟨c, hheld, haddr, (free_exact_iff twoZones_memoryMap twoZones_disjoint twoZones_placed hc (.here (by decide))
    (by rw [hlen]; decide)).mpr rfl⟩

/-- The block of the second zone is not given back: the second zone's counter stays 1. -/
theorem free_inexact : MemoryMap (bootOf 0x9000 twoZones) (mapInfo 0x9000 twoZones) twoZones ∧ DisjointMap twoZones ∧
    ∃ (c : Client) (q : BitVec 32),
      (clientSystem smallKernel (bootOf 0x9000 twoZones) (mapInfo 0x9000 twoZones) notNull).Reachable c ∧
      InList c.mem smallKernel.memoryZones q ∧ zoneField c.mem q .length = 2 ∧ blockAddress c.mem q 0 ∈ c.held ∧
      ¬Ensures (pmmFree smallKernel c.mem (blockAddress c.mem q 0)) (fun m => FreesBlock smallKernel c.mem m q 0) := by
  obtain ⟨c, hc, hx⟩ := exists_session smallKernel notNull (bootOf 0x9000 twoZones)
    (mapInfo 0x9000 twoZones) 40 [.alloc, .alloc]
    (fun c => (c.held, [zoneField c.mem smallKernel.memoryZones .nextZone, zoneField c.mem 0xC0102024 .length,
      blockAddress c.mem 0xC0102024 0, zoneField c.mem 0xC0102024 .free],
      ((pmmFree smallKernel c.mem 0x3800).run 40).map (fun m => zoneField m 0xC0102024 .free)))
    (([0x3800, 0x1000], [0xC0102024, 2, 0x3800, 1], some 1)) (by decide)
  simp only [Prod.mk.injEq, List.cons.injEq, and_true] at hx
  obtain ⟨hheld, ⟨hq, hlen, haddr, hfree⟩, hrun⟩ := hx
  refine ⟨twoZones_memoryMap, twoZones_disjoint, c, 0xC0102024, hc, .next (by decide) (by rw [hq]; exact .here (by decide)),
    hlen, by rw [haddr, hheld]; decide, fun hens => ?_⟩
  obtain ⟨m, hm, hmfree⟩ := Option.map_eq_some_iff.mp hrun
  rw [haddr] at hens
  have hcount := (hens.of_returns ⟨40, hm⟩).header .free
  rw [hmfree, if_pos rfl, hfree] at hcount
  exact absurd hcount (by decide)

end LumOS
