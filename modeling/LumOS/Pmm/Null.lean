import LumOS.Pmm.Counters

/-!
# `NULL` as the failure value

The block at address 0 is used from the start, so that `pmm_alloc` returns 0 only when it fails. A client that gives back whatever
`pmm_alloc` returned can clear its bit: `pmm_free` of `NULL` does, when the first zone starts at address 0. The results here are for
any memory map on which `init_pmm` returns; entries may overlap, and pass 4 GiB.
-/

namespace LumOS

open Comp

/-- The client gives back any value it holds. -/
def anyValue (_start _length _addr : BitVec 32) : Prop := True

/-- The address is in a block of the zone, and not in the block at address 0. -/
def inZoneOffNull (start length addr : BitVec 32) : Prop := inZone start length addr ∧ ¬(start = 0 ∧ getOffset start addr = 0)

instance (start length addr : BitVec 32) : Decidable (anyValue start length addr) := inferInstanceAs (Decidable True)

instance (start length addr : BitVec 32) : Decidable (inZoneOffNull start length addr) :=
  inferInstanceAs (Decidable (inZone start length addr ∧ ¬(start = 0 ∧ getOffset start addr = 0)))

/-- No block of a usable entry starts at 4 GiB, where addresses wrap to 0. -/
def NoWrap (es : List MmapEntry) : Prop := ∀ e ∈ usable es, ∀ i < e.blocks, e.baseLow.toNat + 4096 * i ≠ 2 ^ 32

/-- The block at address 0 of a zone that starts there is used. -/
def NullUsed (zs : List Zone) : Prop := ∀ z ∈ zs, z.start = 0 → z.used 0 = true

section

variable {k : Kernel} {boot : Boot} {mbt : MultibootInfo} {es : List MmapEntry}

/-- A start that was changed is not 0. -/
theorem Zone.bump_start {z : Zone} {b : Bool} (h : (z.bump b).start.toNat % 2 = 0) : z.bump b = z := by
  cases b with
  | false => rfl
  | true =>
    exfalso
    have hone := toNat_or_one z.start
    change (z.start ||| 1).toNat % 2 = 0 at h
    omega

theorem nullUsed_initialZones (k : Kernel) (es : List MmapEntry) : NullUsed (initialZones k es) := by
  intro z hz h0
  obtain ⟨y, hy, b, rfl⟩ := mem_reserveZones hz
  obtain ⟨e, _, rfl⟩ := List.mem_map.mp hy
  have hs : (e.zone.bump b).start = 0 := by
    rw [← h0]
    exact (congrArg Shape.start (Zone.reserved_shape _ _ _)).symm
  have hb := Zone.bump_start (z := e.zone) (b := b) (by rw [hs]; rfl)
  rw [hb] at hs ⊢
  apply Zone.reserved_used
  have hlow : e.baseLow = 0 := hs
  show (_ || decide (e.baseLow = 0 ∧ 0 = 0)) = true
  rw [hlow]
  exact Bool.or_true _

theorem NullUsed.alloc {zs zs' : List Zone} {a : BitVec 32} (hz : NullUsed zs) (h : AllocStep zs a zs') : NullUsed zs' := by
  cases h with
  | noZone _ => exact hz
  | noBlock _ _ _ => exact hz
  | @block pre z suf i _ _ _ _ _ =>
    intro y hy h0
    rcases List.mem_append.mp hy with hy | hy
    · exact hz y (by simp [hy]) h0
    rcases List.mem_cons.mp hy with rfl | hy
    · show (decide (0 = i) || z.used 0) = true
      rw [hz z (by simp) h0, Bool.or_true]
    · exact hz y (by simp [hy]) h0

theorem NullUsed.free {z : Zone} {suf : List Zone} {a : BitVec 32} (hz : NullUsed (z :: suf))
    (hok : inZoneOffNull z.start z.length a) (hi : (getOffset z.start a).toNat < z.length.toNat) :
    NullUsed (z.release _ hi :: suf) := by
  intro y hy h0
  rcases List.mem_cons.mp hy with rfl | hy
  · have hoff : ¬0 = (getOffset z.start a).toNat := fun h => hok.2 ⟨h0, BitVec.eq_of_toNat_eq h.symm⟩
    show (!decide (0 = (getOffset z.start a).toNat) && z.used 0) = true
    rw [hz z (by simp) h0, decide_eq_false hoff]
    rfl
  · exact hz y (by simp [hy]) h0

/-- The block at address 0 stays used. -/
theorem nullUsed_run {s : ZoneState} (h : (zoneSystem k es inZoneOffNull).Reachable s) : NullUsed s.zones := by
  refine h.invariant (fun s => NullUsed s.zones) ?_ ?_
  · rintro s rfl
    exact nullUsed_initialZones k es
  · rintro s _ _ ih (⟨h⟩ | ⟨_, hok, hi⟩)
    · exact ih.alloc h
    · exact ih.free hok hi

/-- An unused block is not at address 0. -/
theorem address_ne_zero (hw : NoWrap es) {s : ZoneState} (h : (zoneSystem k es inZoneOffNull).Reachable s) {z : Zone}
    (hz : z ∈ s.zones) {i : Nat} (hi : i < z.length.toNat) (hu : z.used i = false) : z.address i ≠ 0 := by
  intro h0
  obtain ⟨e, he, b, hshape⟩ := zone_entry h hz
  have hs : z.start = (e.zone.bump b).start := congrArg Shape.start hshape
  have hlen : z.length.toNat = e.blocks := by
    rw [show z.length = (e.zone.bump b).length from congrArg Shape.length hshape]
    cases b <;> exact e.toNat_length
  have hle := z.length_le
  have hsum : z.start.toNat + 4096 * i = 0 ∨ z.start.toNat + 4096 * i = 2 ^ 32 := by
    have hnat := congrArg BitVec.toNat h0
    have hb : (4096 : BitVec 32).toNat = 4096 := rfl
    have hzero : (0 : BitVec 32).toNat = 0 := rfl
    simp only [Zone.address, getAddress, blockSize, BitVec.toNat_add, BitVec.toNat_mul, BitVec.toNat_ofNat, hb, hzero] at hnat
    omega
  rcases hsum with hsum | hsum
  · obtain rfl : i = 0 := by omega
    rw [nullUsed_run h z hz (BitVec.eq_of_toNat_eq (by simpa using hsum))] at hu
    cases hu
  · have hb := Zone.bump_start (z := e.zone) (b := b) (by rw [← hs]; omega)
    rw [hb] at hs
    refine hw e he i (by rw [← hlen]; exact hi) ?_
    rw [← hsum, hs]
    rfl

/-- In every run in which what is given back is in the first zone and not in a block at address 0, the block at address 0 stays
used, and `pmm_alloc` changes no counter and no bit of a bitmap when it returns `NULL`. -/
theorem null_unambiguous {c : Client} (hmap : MemoryMap boot mbt es) (hp : Placed k es) (hw : NoWrap es)
    (hc : (clientSystem k boot mbt inZoneOffNull).Reachable c) :
    (∀ q, InList c.mem k.memoryZones q → zoneField c.mem q .start = 0 → zoneBit c.mem q 0 = true) ∧
    ∀ m, Returns (pmmAlloc k c.mem) (0, m) → ∀ q, InList c.mem k.memoryZones q →
      zoneField m q .free = zoneField c.mem q .free ∧
      ∀ i < 32 * (zoneField c.mem q .bitmapWords).toNat, zoneBit m q i = zoneBit c.mem q i := by
  have hb := client_blocks hmap hp hc
  obtain ⟨s, hs, hrep⟩ := (client_simulation hmap hp (fun _ _ _ h => h.1)).reachable hc
  constructor
  · intro q hq h0
    obtain ⟨pre, z, suf, hsplit, rfl⟩ := hrep.1.exists_of_inList (zone_ne hp hs) (zone_fits hp hs) hq
    have hza := (hsplit ▸ hrep.1).middle
    have hmem : z ∈ s.zones := by simp [hsplit]
    obtain ⟨e, he, b, hshape⟩ := zone_entry hs hmem
    have hlen : z.length.toNat = e.blocks := by
      rw [show z.length = (e.zone.bump b).length from congrArg Shape.length hshape]
      cases b <;> exact e.toNat_length
    have hblocks := hb e he
    have hl := z.length_le_bits
    rw [hza.header .start] at h0
    rw [hza.zoneBit_eq (by omega)]
    exact nullUsed_run hs z hmem h0
  · intro m ha q hq
    obtain ⟨zs, hstep, hz⟩ := client_alloc hp hrep hs ha
    obtain ⟨rfl, _⟩ := hstep.null (fun z hz i hi hu => address_ne_zero hw hs hz hi hu)
    obtain ⟨pre, z, suf, hsplit, rfl⟩ := hrep.1.exists_of_inList (zone_ne hp hs) (zone_fits hp hs) hq
    obtain ⟨hfields, hbits⟩ := (hsplit ▸ hrep.1).middle.agree (hsplit ▸ hz).middle
    exact ⟨hfields .free, hbits⟩

end

/-- A memory map of three blocks from address 0 on. -/
def lowZone : List MmapEntry := [⟨20, 0, 0, 0x3000, 0, 1⟩]

/-- The blocks but the one at address 0 have been given out, one of them has come back and been given out again. -/
theorem null_unambiguous_lowZone : ∃ c : Client, c.held = [0x1000, 0x2000] ∧
    (∃ m, Returns (pmmAlloc smallKernel c.mem) (0, m)) ∧ zoneBit c.mem smallKernel.memoryZones 0 = true := by
  obtain ⟨c, a, m, hc, ha, hx⟩ := exists_session_alloc smallKernel inZoneOffNull (bootOf 0x9000 lowZone)
    (mapInfo 0x9000 lowZone) 40 [.alloc, .alloc, .free 0x1000, .alloc]
    (fun c a _ => (c.held, a, zoneField c.mem smallKernel.memoryZones .start)) (([0x1000, 0x2000], 0, 0))
    (by decide)
  simp only [Prod.mk.injEq] at hx
  obtain ⟨hheld, rfl, hstart⟩ := hx
  exact ⟨c, hheld, ⟨m, ha⟩, (null_unambiguous (memoryMap_bootOf (by decide) (by decide)) ⟨by decide, by decide, by decide⟩
    (by unfold NoWrap; decide) hc).1 _ (.here (by decide)) hstart⟩

/-- The `NULL` of a failed call is given back: the bit of the block at address 0 is cleared. -/
theorem null_ambiguous : MemoryMap (bootOf 0x9000 nullZone) (mapInfo 0x9000 nullZone) nullZone ∧
    ∃ (c : Client) (q : BitVec 32), (clientSystem smallKernel (bootOf 0x9000 nullZone) (mapInfo 0x9000 nullZone) anyValue).Reachable c ∧
      InList c.mem smallKernel.memoryZones q ∧ zoneField c.mem q .start = 0 ∧ zoneBit c.mem q 0 = false := by
  obtain ⟨c, hc, hx⟩ := exists_session smallKernel anyValue (bootOf 0x9000 nullZone)
    (mapInfo 0x9000 nullZone) 40 [.alloc, .free 0]
    (fun c => (zoneField c.mem smallKernel.memoryZones .start, zoneBit c.mem smallKernel.memoryZones 0))
    ((0, false)) (by decide)
  simp only [Prod.mk.injEq] at hx
  exact ⟨nullZone_memoryMap, c, smallKernel.memoryZones, hc, .here (by decide), hx⟩

end LumOS
