import LumOS.Pmm.Counters
import LumOS.Pmm.Packed

/-!
# What `pmm_alloc` still has to give

The blocks that calls of `pmm_alloc` one after the other return, from a state of a client on that gives back blocks of the first zone
only: those of the zones of the list that are not used, zone by zone and in order, up to and with the first zone whose counter is not the
number of its unset bits, and then `NULL` for ever (`allocs_drain`).
-/

namespace LumOS

open Comp

/-- Calls of `pmm_alloc`, one after the other: the values returned, and the memory left. -/
def pmmAllocs (k : Kernel) : Nat → Mem → Comp (List (BitVec 32) × Mem)
  | 0, m => pure ([], m)
  | n + 1, m => do
    let (a, m) ← pmmAlloc k m
    let (as, m) ← pmmAllocs k n m
    return (a :: as, m)

/-- The addresses of the blocks of a zone that are not used. -/
def unusedBlocks (m : Mem) (q : BitVec 32) : List (BitVec 32) :=
  ((List.range (zoneField m q .length).toNat).filter (fun i => zoneBit m q i = false)).map
    (fun i => getAddress (zoneField m q .start) (BitVec.ofNat 32 i))

/-- The blocks that are still to be given: a zone whose counter is not the number of its unset bits is the last. -/
def offered (m : Mem) : List (BitVec 32) → List (BitVec 32)
  | [] => []
  | q :: qs => unusedBlocks m q ++ if (zoneField m q .free).toNat = freeBits m q then offered m qs else []

/-- A list followed by `NULL`s, as far as its first values. -/
def padded (n : Nat) (as : List (BitVec 32)) : List (BitVec 32) := (List.range n).map (fun i => as.getD i 0)

theorem padded_nil (n : Nat) : padded (n + 1) [] = 0 :: padded n [] := by
  rw [padded, List.range_succ_eq_map, List.map_cons, List.map_map]
  rfl

theorem padded_cons (n : Nat) (a : BitVec 32) (as : List (BitVec 32)) : padded (n + 1) (a :: as) = a :: padded n as := by
  rw [padded, List.range_succ_eq_map, List.map_cons, List.map_map]
  rfl

/-- When the first of the numbers with a property loses it, the others are left. -/
theorem filter_range_least {n i : Nat} {p q : Nat → Bool} (hi : i < n) (hp : p i = true) (hleast : ∀ j < i, p j = false)
    (hq : ∀ j, q j = (p j && !decide (j = i))) : (List.range n).filter p = i :: (List.range n).filter q := by
  obtain ⟨m, rfl⟩ : ∃ m, n = i + (m + 1) := ⟨n - i - 1, by omega⟩
  have hbefore : ∀ r : Nat → Bool, (∀ j < i, r j = false) → (List.range i).filter r = [] := by
    intro r hr
    rw [List.filter_eq_nil_iff]
    intro j hj
    rw [hr j (List.mem_range.mp hj)]
    exact Bool.false_ne_true
  have hrest : (List.map (i + ·) (List.map Nat.succ (List.range m))).filter p =
      (List.map (i + ·) (List.map Nat.succ (List.range m))).filter q := by
    refine List.filter_congr fun j hj => ?_
    have hne : j ≠ i := by
      rintro rfl
      simp at hj
    rw [hq, decide_eq_false hne, Bool.not_false, Bool.and_true]
  rw [List.range_add, List.filter_append, List.filter_append, hbefore p hleast,
    hbefore q (fun j hj => by rw [hq, hleast j hj, Bool.false_and]), List.range_succ_eq_map, List.map_cons, Nat.add_zero,
    List.filter_cons_of_pos hp, List.filter_cons_of_neg (by simp [hq]), hrest]
  rfl

/-! ## Over zones -/

namespace Zone

/-- The addresses of the blocks that are not used. -/
def unusedBlocks (z : Zone) : List (BitVec 32) := ((List.range z.length.toNat).filter (fun i => z.used i = false)).map z.address

theorem unusedBlocks_eq_nil (z : Zone) : z.unusedBlocks = [] ↔ z.unset = 0 := by
  rw [unusedBlocks, List.map_eq_nil_iff, List.filter_eq_nil_iff, unset_eq_zero]
  simp

/-- The first of them is that of the first unset bit. -/
theorem unusedBlocks_take (z : Zone) {i : Nat} (hi : i < z.length.toNat) (hu : z.used i = false) (hleast : ∀ j < i, z.used j = true) :
    z.unusedBlocks = z.address i :: (z.take i).unusedBlocks := by
  have hfilter := filter_range_least (p := fun j => z.used j = false) (q := fun j => (z.take i).used j = false) hi
    (decide_eq_true hu) (fun j hj => decide_eq_false (by simp [hleast j hj])) ?_
  · rw [unusedBlocks, hfilter, List.map_cons]
    rfl
  · intro j
    show decide ((decide (j = i) || z.used j) = false) = _
    cases z.used j <;> by_cases hj : j = i <;> simp [hj]

end Zone

/-- The blocks that are still to be given. -/
def offeredBy : List Zone → List (BitVec 32)
  | [] => []
  | z :: zs => z.unusedBlocks ++ if z.free.toNat = z.unset then offeredBy zs else []

/-- Zones whose counter is 0 give nothing. -/
theorem offeredBy_append {pre suf : List Zone} (hpre : ∀ z ∈ pre, z.free = 0) (hcount : ∀ z ∈ pre, z.unset ≤ z.free.toNat) :
    offeredBy (pre ++ suf) = offeredBy suf := by
  induction pre with
  | nil => rfl
  | cons z pre ih =>
    rw [List.forall_mem_cons] at hpre hcount
    have hzero : z.free.toNat = 0 := congrArg BitVec.toNat hpre.1
    have hunset : z.unset = 0 := by
      have := hcount.1
      omega
    rw [List.cons_append, offeredBy, z.unusedBlocks_eq_nil.mpr hunset, hzero, hunset, if_pos rfl, List.nil_append, ih hpre.2 hcount.2]

/-- `pmm_alloc` gives the first of the blocks that are still to be given, or there is none. -/
theorem AllocStep.offeredBy {zs zs' : List Zone} {a : BitVec 32} (h : AllocStep zs a zs')
    (hcount : ∀ z ∈ zs, z.unset ≤ z.free.toNat) :
    (a = 0 ∧ zs' = zs ∧ LumOS.offeredBy zs = []) ∨
      LumOS.offeredBy zs = a :: LumOS.offeredBy zs' ∧ ∀ z ∈ zs', z.unset ≤ z.free.toNat := by
  cases h with
  | noZone hall =>
    refine Or.inl ⟨rfl, rfl, ?_⟩
    have hnone : LumOS.offeredBy (zs ++ []) = [] := offeredBy_append hall hcount
    rwa [List.append_nil] at hnone
  | @noBlock pre z suf hpre hz hfull =>
    rw [List.forall_mem_append, List.forall_mem_cons] at hcount
    have hunset : z.unset = 0 := z.unset_eq_zero.mpr (fun j _ => hfull j)
    have hfree : z.free.toNat ≠ 0 := fun h => hz (BitVec.eq_of_toNat_eq h)
    refine Or.inl ⟨rfl, rfl, ?_⟩
    rw [offeredBy_append hpre hcount.1, LumOS.offeredBy, z.unusedBlocks_eq_nil.mpr hunset, hunset, if_neg hfree, List.nil_append]
  | @block pre z suf i hpre hz hi hu hleast =>
    rw [List.forall_mem_append, List.forall_mem_cons] at hcount
    have hunset := z.unset_take hi hu
    have hone : (1 : BitVec 32).toNat = 1 := rfl
    have hzcount := hcount.2.1
    have hfree : (z.take i).free.toNat + 1 = z.free.toNat := by
      show (z.free - 1).toNat + 1 = z.free.toNat
      bv_omega
    refine Or.inr ⟨?_, ?_⟩
    · have hgoes : z.free.toNat = z.unset ↔ (z.take i).free.toNat = (z.take i).unset := by omega
      rw [offeredBy_append hpre hcount.1, offeredBy_append hpre hcount.1, LumOS.offeredBy, LumOS.offeredBy,
        z.unusedBlocks_take hi hu hleast, List.cons_append]
      simp only [hgoes]
    · rw [List.forall_mem_append, List.forall_mem_cons]
      exact ⟨hcount.1, by omega, hcount.2.2⟩

section

variable {k : Kernel} {boot : Boot} {mbt : MultibootInfo} {es : List MmapEntry} {c : Client}

/-- Calls of `pmm_alloc` return what the zones still have to give, and then `NULL`. -/
theorem Shaped.pmmAllocs_ensures (hp : Placed k es) (n : Nat) {zs : List Zone} {m : Mem} (hs : Shaped k es zs)
    (hz : ZonesAt k.kernelEnd m 0 zs) (hcount : ∀ z ∈ zs, z.unset ≤ z.free.toNat) :
    Ensures (pmmAllocs k n m) (fun r => r.1 = padded n (offeredBy zs)) := by
  induction n generalizing zs m with
  | zero => exact ensures_pure rfl
  | succ n ih =>
    refine Ensures.bind (hs.pmmAlloc_ensures hp hz) ?_
    rintro ⟨a, m'⟩ ⟨zs', hstep, hz'⟩
    rcases hstep.offeredBy hcount with ⟨rfl, rfl, hnone⟩ | ⟨hsome, hcount'⟩
    · refine Ensures.bind (ih hs hz' hcount) ?_
      rintro ⟨as, m''⟩ has
      rw [hnone, padded_nil, ← hnone]
      exact ensures_pure (congrArg (0 :: ·) has)
    · refine Ensures.bind (ih (hs.alloc hstep) hz' hcount') ?_
      rintro ⟨as, m''⟩ has
      rw [hsome, padded_cons]
      exact ensures_pure (congrArg (a :: ·) has)

/-! ## In memory -/

theorem ZoneAt.unusedBlocks_eq {base : BitVec 32} {m : Mem} {h : Nat} {z : Zone} {next : BitVec 32} (hz : ZoneAt base m h z next) :
    unusedBlocks m (Mem.cell base h) = z.unusedBlocks := by
  have hl := z.length_le_bits
  rw [unusedBlocks, hz.header .length, hz.header .start, Zone.unusedBlocks]
  refine congrArg (List.map _) (List.filter_congr fun i hi => ?_)
  have hlt : i < z.length.toNat := List.mem_range.mp hi
  rw [hz.zoneBit_eq (by omega)]

theorem ZonesAt.offered_eq {base : BitVec 32} {m : Mem} {h : Nat} {zs : List Zone} (hz : ZonesAt base m h zs) :
    offered m (zonePtrs base h zs) = offeredBy zs := by
  induction zs generalizing h with
  | nil => rfl
  | cons z zs ih =>
    rw [zonePtrs, offered, offeredBy, hz.1.unusedBlocks_eq, hz.1.freeBits_eq, hz.1.header .free, ih hz.2]
    rfl

/-- A zone is the start of one list at most. -/
theorem ZoneChain.unique {m : Mem} {zone : BitVec 32} {qs rs : List (BitVec 32)} (hq : ZoneChain m zone qs) (hr : ZoneChain m zone rs) :
    qs = rs := by
  induction hq generalizing rs with
  | nil =>
    cases hr with
    | nil => rfl
    | cons h _ => exact absurd rfl h
  | cons h _ ih =>
    cases hr with
    | nil => exact absurd rfl h
    | cons _ hrest => rw [ih hrest]

/-- A counter is no less than the number of the zone's unset bits. -/
theorem Tracks.unset_le {zs : List Zone} {s : ZoneState} {ts : List Tracked} (ht : Tracks zs s ts) :
    ∀ z ∈ s.zones, z.unset ≤ z.free.toNat := by
  rw [← ht.zones, List.forall_mem_map]
  intro t _
  rw [t.count]
  exact Nat.le_add_right _ _

/-- In every run on a memory map of disjoint entries below 4 GiB, whose structures fit and on which no reservation changes the next
zone's start, in which only blocks of the first zone are given back: calls of `pmm_alloc` one after the other return the blocks that are
not used, zone by zone and each zone's in order, up to and with the first zone whose counter is not the number of its unset bits, and from
then on `NULL`. -/
theorem allocs_drain (hmap : MemoryMap boot mbt es) (hd : DisjointMap es) (hp : Placed k es) (hn : NoSpill k es)
    (hc : (clientSystem k boot mbt ownedByZone).Reachable c) {qs : List (BitVec 32)} (hqs : ZoneChain c.mem k.memoryZones qs) (n : Nat) :
    Ensures (pmmAllocs k n c.mem) (fun r => r.1 = padded n (offered c.mem qs)) := by
  obtain ⟨s, ts, hrep, hs, hts, -⟩ := client_tracked hmap hd hp hn (fun _ _ _ h => h) hc
  have hshaped := zone_shapes hs
  have hchain := hrep.1.chain (by rw [Nat.zero_add]; exact zone_fits hp hs)
  rw [← k.memoryZones_eq (zone_ne hp hs)] at hchain
  rw [hqs.unique hchain, hrep.1.offered_eq]
  exact hshaped.pmmAllocs_ensures hp n hrep.1 hts.unset_le

end

/-- The block of the first zone is out: the two of the second are given, and then none. -/
theorem allocs_drain_twoZones : ∃ c : Client, c.held = [0x1000] ∧
    Ensures (pmmAllocs smallKernel 4 c.mem) (fun r => r.1 = [0x3800, 0x4800, 0, 0]) := by
  obtain ⟨c, hc, hx⟩ := exists_session smallKernel ownedByZone (bootOf 0x9000 twoZones)
    (mapInfo 0x9000 twoZones) 40 [.alloc] (fun c => (c.held, zoneField c.mem 0xC0102000 .nextZone, zoneField c.mem 0xC0102024 .nextZone,
      offered c.mem [0xC0102000, 0xC0102024])) (([0x1000], 0xC0102024, 0, [0x3800, 0x4800])) (by decide)
  simp only [Prod.mk.injEq] at hx
  obtain ⟨hheld, hnext, hlast, hoffered⟩ := hx
  have hchain : ZoneChain c.mem smallKernel.memoryZones [0xC0102000, 0xC0102024] := by
    refine .cons (by decide) ?_
    show ZoneChain c.mem (zoneField c.mem 0xC0102000 .nextZone) _
    rw [hnext]
    refine .cons (by decide) ?_
    rw [hlast]
    exact .nil
  have hdrain := allocs_drain twoZones_memoryMap twoZones_disjoint twoZones_placed twoZones_noSpill hc hchain 4
  rw [hoffered] at hdrain
  exact ⟨c, hheld, hdrain⟩

end LumOS
