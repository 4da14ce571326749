import LumOS.Pmm.Calls
import LumOS.Pmm.FirstFit

/-!
# Addresses of no zone

What `pmm_free` does with an address that is in no zone. Its search goes on past a zone only when the address is below the zone's start
and above its end, so it falls off the end of the list only when all zones wrap around the end of the address space and the address is in
the gap of each (`rejected_iff`). On a memory map below 4 GiB no zone does, and every address is freed in the first one
(`calls_not_rejected`).
-/

namespace LumOS

open Comp

/-- The search of `pmm_free` for the zone of an address. -/
def freeZone (k : Kernel) (m : Mem) (addr : BitVec 32) : Comp (BitVec 32) :=
  loop (fun zone => zone ≠ 0 ∧ zoneField m zone .start > addr ∧ addr > zoneField m zone .end_)
    (fun zone => pure (zoneField m zone .nextZone)) k.memoryZones

/-- What `pmm_free` does with the zone it has found. -/
def freeIn (m : Mem) (addr zone : BitVec 32) : Comp Mem := do
  if zone = 0 then return m
  let offset := getOffset (zoneField m zone .start) addr
  let m := unsetBit m (zoneField m zone .bitmap) offset
  return setZoneField m zone .free (zoneField m zone .free + 1)

theorem pmmFree_eq (k : Kernel) (m : Mem) (addr : BitVec 32) : pmmFree k m addr = freeZone k m addr >>= freeIn m addr := rfl

/-- The address is in the zone: neither below its start nor above its end. -/
def ZoneHas (m : Mem) (zone addr : BitVec 32) : Prop := zoneField m zone .start ≤ addr ∧ addr ≤ zoneField m zone .end_

/-- The zone wraps around the end of the address space, and the address is between its end and its start. -/
def InGap (m : Mem) (zone addr : BitVec 32) : Prop := zoneField m zone .end_ < addr ∧ addr < zoneField m zone .start

/-- The headers of the zones of the list and the words of their bitmaps are as they were. -/
def ZonesKept (k : Kernel) (m m' : Mem) : Prop :=
  ∀ q, InList m k.memoryZones q → (∀ f, zoneField m' q f = zoneField m q f) ∧
    ∀ i < (zoneField m q .bitmapWords).toNat,
      m'.load (Mem.cell (zoneField m q .bitmap) i) = m.load (Mem.cell (zoneField m q .bitmap) i)

/-- `pmm_free` finds no zone for the address, and leaves the zones as they were. -/
structure Rejected (k : Kernel) (m : Mem) (addr : BitVec 32) : Prop where
  notFound : Returns (freeZone k m addr) 0
  kept : Ensures (pmmFree k m addr) (ZonesKept k m)

section

variable {k : Kernel} {m : Mem} {addr : BitVec 32}

theorem InList.cases {zone q : BitVec 32} (h : InList m zone q) : q = zone ∨ InList m (zoneField m zone .nextZone) q := by
  cases h with
  | here _ => exact .inl rfl
  | next _ hq => exact .inr hq

theorem InList.ne_zero {zone q : BitVec 32} (h : InList m zone q) : zone ≠ 0 := by
  cases h with
  | here hne => exact hne
  | next hne _ => exact hne

/-- Without a zone `pmm_free` leaves the memory. -/
theorem rejected_iff_notFound : Rejected k m addr ↔ Returns (freeZone k m addr) 0 := by
  constructor
  · intro h
    exact h.notFound
  · intro h
    refine ⟨h, m, ?_, fun q _ => ⟨fun _ => rfl, fun _ _ => rfl⟩⟩
    rw [pmmFree_eq]
    refine returns_bind.mpr ⟨0, h, ?_⟩
    rw [freeIn, if_pos rfl]
    exact returns_pure.mpr rfl

/-- The search falls off the end of a list exactly when the address is in the gap of each of its zones. -/
theorem ZoneChain.search_free {zone : BitVec 32} {qs : List (BitVec 32)} (h : ZoneChain m zone qs)
    (hgap : ∀ q ∈ qs, InGap m q addr) :
    Returns (loop (fun zone => zone ≠ 0 ∧ zoneField m zone .start > addr ∧ addr > zoneField m zone .end_)
      (fun zone => pure (zoneField m zone .nextZone)) zone) 0 := by
  induction h with
  | nil => exact returns_loop_exit (decide_eq_false (fun h => h.1 rfl))
  | cons hne _ ih =>
    obtain ⟨hfirst, hrest⟩ := List.forall_mem_cons.mp hgap
    exact returns_loop_turn (decide_eq_true ⟨hne, hfirst.2, hfirst.1⟩) (returns_pure.mpr rfl) (ih hrest)

theorem ZoneChain.head_mem {zone : BitVec 32} {qs : List (BitVec 32)} (h : ZoneChain m zone qs) (hne : zone ≠ 0) : zone ∈ qs := by
  cases h with
  | nil => exact absurd rfl hne
  | cons _ _ => exact List.mem_cons_self

/-- A search that falls off the end of the list has gone past each of its zones. -/
theorem exists_chain_of_search {zone t : BitVec 32}
    (h : Returns (loop (fun zone => zone ≠ 0 ∧ zoneField m zone .start > addr ∧ addr > zoneField m zone .end_)
      (fun zone => pure (zoneField m zone .nextZone)) zone) t) (ht : t = 0) :
    ∃ qs, ZoneChain m zone qs ∧ ∀ q ∈ qs, InGap m q addr := by
  revert ht
  refine h.loop_induct (P := fun zone t => t = 0 → ∃ qs, ZoneChain m zone qs ∧ ∀ q ∈ qs, InGap m q addr) ?_ ?_
  · rintro zone _ rfl
    exact ⟨[], .nil, fun q hq => absurd hq List.not_mem_nil⟩
  · intro zone next t hc hnext ih ht
    obtain ⟨hne, hstart, hend⟩ := of_decide_eq_true hc
    obtain ⟨qs, hchain, hgap⟩ := ih ht
    rw [← returns_pure.mp hnext] at hchain
    exact ⟨zone :: qs, .cons hne hchain, List.forall_mem_cons.mpr ⟨⟨hend, hstart⟩, hgap⟩⟩

end

/-- In every state of the memory, an address is rejected exactly when the list of zones ends and each of its zones wraps around the end of
the address space with the address in its gap. -/
theorem rejected_iff (k : Kernel) (m : Mem) (addr : BitVec 32) :
    Rejected k m addr ↔ ∃ qs, ZoneChain m k.memoryZones qs ∧ ∀ q ∈ qs, InGap m q addr := by
  rw [rejected_iff_notFound]
  constructor
  · intro h
    exact exists_chain_of_search h rfl
  · rintro ⟨qs, hchain, hgap⟩
    exact hchain.search_free hgap

/-! ## Runs -/

section

variable {k : Kernel} {boot : Boot} {mbt : MultibootInfo} {es : List MmapEntry} {ok : Mem → BitVec 32 → Prop} {m : Mem}

/-- The zones of the memory map are in memory in every run. -/
theorem calls_hasZones (hmap : MemoryMap boot mbt es) (hp : Placed k es) (hok : ∀ m a, ok m a → InFirst k m a)
    (hm : (callSystem k boot mbt ok).Reachable m) : (∀ e ∈ usable es, 1 ≤ e.blocks) ∧ ∃ zs, HasZones k es m zs := by
  refine hm.invariant (fun m => (∀ e ∈ usable es, 1 ≤ e.blocks) ∧ ∃ zs, HasZones k es m zs) ?_ ?_
  · rintro m ⟨m₀, hr⟩
    exact ⟨initPmm_blocks hmap hr, _, hasZones_init hmap hp hr⟩
  · rintro m m' _ ⟨hb, zs, hz⟩ hstep
    obtain ⟨zs', _, hz'⟩ := hz.step hp hb hok hstep
    exact ⟨hb, zs', hz'⟩

/-- On a memory map of disjoint entries below 4 GiB no address is rejected, in every run of calls that give back addresses of the first
zone's blocks. -/
theorem calls_not_rejected (hmap : MemoryMap boot mbt es) (hd : DisjointMap es) (hp : Placed k es)
    (hok : ∀ m a, ok m a → InFirst k m a) (hm : (callSystem k boot mbt ok).Reachable m) (addr : BitVec 32) :
    ¬Rejected k m addr := by
  obtain ⟨hb, zs, hz⟩ := calls_hasZones hmap hp hok hm
  obtain ⟨e, z, suf, he, rfl, hshape⟩ := hz.shaped.head hp
  have hmem : e ∈ usable es := List.mem_of_head? he
  have hbelow := hd.below e (usable_type hmem).1 (usable_type hmem).2
  have hstart : zoneField m k.memoryZones .start = e.zone.start := (hz.inMem.first .start).trans (congrArg Shape.start hshape)
  have hend : zoneField m k.memoryZones .end_ = e.zone.end_ := (hz.inMem.first .end_).trans (congrArg Shape.end_ hshape)
  intro h
  obtain ⟨qs, hchain, hgap⟩ := exists_chain_of_search h.notFound rfl
  have hfirst := hgap _ (hchain.head_mem k.memoryZones_ne_zero)
  rw [InGap, hstart, hend] at hfirst
  exact e.zone_order hbelow (hb e hmem) addr ⟨hfirst.2, hfirst.1⟩

end

/-- The address 0x800 is below both zones. `pmm_free` takes it for a block of the first zone, whose counter goes up from 1 to 2. -/
theorem foreign_not_rejected : ∃ m,
    (callSystem smallKernel (bootOf 0x9000 twoZones) (mapInfo 0x9000 twoZones) (InFirst smallKernel)).Reachable m ∧
      (∀ q, InList m smallKernel.memoryZones q → ¬ZoneHas m q 0x800) ∧
      zoneField m smallKernel.memoryZones .free = 1 ∧
      Ensures (pmmFree smallKernel m 0x800) (fun m' => zoneField m' smallKernel.memoryZones .free = 2) ∧
      ¬Rejected smallKernel m 0x800 := by
  obtain ⟨m, hm, hx⟩ := exists_calls smallKernel (InFirst smallKernel) (bootOf 0x9000 twoZones) (mapInfo 0x9000 twoZones) 40 []
    (fun m => ([zoneField m smallKernel.memoryZones .start, zoneField m smallKernel.memoryZones .free,
      zoneField m smallKernel.memoryZones .nextZone, zoneField m 0xC0102024 .start, zoneField m 0xC0102024 .nextZone],
      ((pmmFree smallKernel m 0x800).run 40).map (fun m' => zoneField m' smallKernel.memoryZones .free)))
    ([0x1000, 1, 0xC0102024, 0x3800, 0], some 2) (by decide)
  simp only [Prod.mk.injEq, List.cons.injEq, and_true] at hx
  obtain ⟨⟨hstart, hfree, hnext, hstart', hnext'⟩, hrun⟩ := hx
  obtain ⟨m', hm', hfree'⟩ := Option.map_eq_some_iff.mp hrun
  refine ⟨m, hm, ?_, hfree, ⟨m', ⟨40, hm'⟩, hfree'⟩, ?_⟩
  · intro q hq
    rcases hq.cases with rfl | hq
    · rw [ZoneHas, hstart]
      exact fun h => absurd h.1 (by decide)
    rw [hnext] at hq
    rcases hq.cases with rfl | hq
    · rw [ZoneHas, hstart']
      exact fun h => absurd h.1 (by decide)
    rw [hnext'] at hq
    exact absurd rfl hq.ne_zero
  · intro h
    have hkept := (h.kept.of_returns ⟨40, hm'⟩ smallKernel.memoryZones (.here (by decide))).1 .free
    rw [hfree, hfree'] at hkept
    exact absurd hkept (by decide)

end LumOS
