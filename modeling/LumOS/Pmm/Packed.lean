import LumOS.Pmm.Built
import LumOS.Pmm.FirstFit

/-!
# Where the structures lie

`init_pmm` places each zone behind the one before it, from what it reads of that one's `bitmapWords`, and adds up the sizes on the side.
The structures of the zones it creates lie back to back from the end of the kernel on (`BackToBack`), so they do not overlap and have no
gaps, and what it has added up is where they end (`initPmm_packed`).
-/

namespace LumOS

open Comp

/-! ## Structures back to back -/

/-- The zones' structures lie back to back from byte `a` up to byte `b`, each header with its own bitmap right behind it. -/
def BackToBack (m : Mem) (a b : Nat) : List (BitVec 32) → Prop
  | [] => a = b
  | q :: qs => q.toNat = a ∧ (zoneField m q .bitmap).toNat = a + 4 * 8 ∧
      BackToBack m (a + 4 * 8 + 4 * (zoneField m q .bitmapWords).toNat) b qs

/-- Where a zone's bitmap ends. -/
def structuresEnd (m : Mem) (q : BitVec 32) : Nat := q.toNat + 4 * 8 + 4 * (zoneField m q .bitmapWords).toNat

section

variable {m : Mem} {a b : Nat} {qs : List (BitVec 32)}

theorem BackToBack.le (h : BackToBack m a b qs) : a ≤ b := by
  induction qs generalizing a with
  | nil => exact Nat.le_of_eq h
  | cons q qs ih =>
    have hrest := ih h.2.2
    omega

theorem BackToBack.bounds (h : BackToBack m a b qs) : ∀ q ∈ qs, a ≤ q.toNat ∧
    (zoneField m q .bitmap).toNat = q.toNat + 4 * 8 ∧ structuresEnd m q ≤ b := by
  induction qs generalizing a with
  | nil => exact fun q hq => absurd hq List.not_mem_nil
  | cons q qs ih =>
    obtain ⟨hq, hbitmap, hrest⟩ := h
    have hle := hrest.le
    refine List.forall_mem_cons.mpr ⟨⟨Nat.le_of_eq hq.symm, ?_, ?_⟩, ?_⟩
    · rw [hbitmap, hq]
    · rw [structuresEnd, hq]
      exact hle
    · intro r hr
      obtain ⟨hge, hmap, hend⟩ := ih hrest r hr
      exact ⟨by omega, hmap, hend⟩

/-- Of two zones one ends before the other starts. -/
theorem BackToBack.order (h : BackToBack m a b qs) : ∀ q ∈ qs, ∀ r ∈ qs, q ≠ r →
    structuresEnd m q ≤ r.toNat ∨ structuresEnd m r ≤ q.toNat := by
  induction qs generalizing a with
  | nil => exact fun q hq => absurd hq List.not_mem_nil
  | cons p qs ih =>
    obtain ⟨hp, _, hrest⟩ := h
    have hbehind : ∀ r ∈ qs, structuresEnd m p ≤ r.toNat := by
      intro r hr
      rw [structuresEnd, hp]
      exact (hrest.bounds r hr).1
    intro q hq r hr hne
    rcases List.mem_cons.mp hq with rfl | hq'
    · rcases List.mem_cons.mp hr with rfl | hr'
      · exact absurd rfl hne
      · exact .inl (hbehind r hr')
    · rcases List.mem_cons.mp hr with rfl | hr'
      · exact .inr (hbehind q hq')
      · exact ih hrest q hq' r hr' hne

/-- Structures back to back do not overlap. -/
theorem BackToBack.apart (h : BackToBack m a b qs) (hb : b ≤ 2 ^ 32) : ZonesApart m qs := by
  have hbounds := h.bounds
  simp only [structuresEnd] at hbounds
  have horder := h.order
  simp only [structuresEnd] at horder
  refine ZonesApart.of_bounds ?_ ?_ ?_ ?_ ?_
  · intro q hq
    have := hbounds q hq
    omega
  · intro q hq
    have := hbounds q hq
    omega
  · intro q hq r hr hne
    have := horder q hq r hr hne
    omega
  · intro q hq r hr hne
    have h1 := hbounds q hq
    have h2 := hbounds r hr
    have h3 := horder q hq r hr hne
    omega
  · intro q hq r hr
    have h1 := hbounds q hq
    have h2 := hbounds r hr
    by_cases hne : q = r
    · subst hne
      omega
    · have h3 := horder q hq r hr hne
      omega

/-- The bytes of a zone's structures, header first. -/
theorem zoneBytes_eq {q : BitVec 32} (hmap : (zoneField m q .bitmap).toNat = q.toNat + 4 * 8) :
    headerBytes q ∪ bitmapBytes m q = Set.Ico q.toNat (structuresEnd m q) := by
  rw [headerBytes, bitmapBytes, hmap, structuresEnd]
  exact Set.Ico_union_Ico_eq_Ico (by omega) (by omega)

/-- Structures back to back have no gap. -/
theorem BackToBack.covers (h : BackToBack m a b qs) : {i | ∃ q ∈ qs, i ∈ headerBytes q ∪ bitmapBytes m q} = Set.Ico a b := by
  induction qs generalizing a with
  | nil =>
    rw [show b = a from h.symm, Set.Ico_self]
    exact Set.eq_empty_iff_forall_notMem.mpr (fun i hi => absurd hi.choose_spec.1 List.not_mem_nil)
  | cons q qs ih =>
    obtain ⟨hq, hmap, hrest⟩ := h
    have hbytes := zoneBytes_eq (m := m) (q := q) (by rw [hmap, hq])
    have hend : structuresEnd m q = a + 4 * 8 + 4 * (zoneField m q .bitmapWords).toNat := by rw [structuresEnd, hq]
    rw [hq, hend] at hbytes
    rw [← Set.Ico_union_Ico_eq_Ico (show a ≤ a + 4 * 8 + 4 * (zoneField m q .bitmapWords).toNat by omega) hrest.le, ← ih hrest,
      ← hbytes]
    ext i
    simp only [List.mem_cons, exists_eq_or_imp, Set.mem_ofPred_eq, Set.mem_union]

end

/-! ## The zones that `init_pmm` creates -/

/-- The addresses of zones that lie back to back from cell `h` on. -/
def zonePtrs (base : BitVec 32) (h : Nat) : List Zone → List (BitVec 32)
  | [] => []
  | z :: zs => Mem.cell base h :: zonePtrs base (h + z.cells) zs

section

variable {base : BitVec 32} {m : Mem} {h : Nat} {zs : List Zone}

/-- Zones in memory, each with a word of bitmap at least, lie back to back. -/
theorem ZonesAt.backToBack (hz : ZonesAt base m h zs) (hwords : ∀ z ∈ zs, 8 < z.cells)
    (hfit : Fits base (h + cellsOf zs)) :
    BackToBack m (base.toNat + 4 * h) (base.toNat + 4 * (h + cellsOf zs)) (zonePtrs base h zs) := by
  induction zs generalizing h with
  | nil => rfl
  | cons z zs ih =>
    obtain ⟨hfirst, hrest⟩ := hz
    rw [List.forall_mem_cons] at hwords
    rw [cellsOf, ← Nat.add_assoc] at hfit ⊢
    have hlimit := hfit.2
    have hcells : z.cells = 8 + z.bitmapWords.toNat := rfl
    have hword := hwords.1
    refine ⟨Mem.toNat_cell (by omega), ?_, ?_⟩
    · rw [hfirst.header .bitmap, Zone.header, Mem.toNat_cell (by omega)]
      omega
    · have hbehind : base.toNat + 4 * h + 4 * 8 + 4 * z.bitmapWords.toNat = base.toNat + 4 * (h + z.cells) := by
        omega
      rw [hfirst.header .bitmapWords, Zone.header, hbehind]
      exact ih hrest hwords.2 hfit

/-- Zones in memory are a list. -/
theorem ZonesAt.chain (hz : ZonesAt base m h zs) (hfit : Fits base (h + cellsOf zs)) :
    ZoneChain m (ptrTo base h zs) (zonePtrs base h zs) := by
  induction zs generalizing h with
  | nil => exact .nil
  | cons z zs ih =>
    obtain ⟨hfirst, hrest⟩ := hz
    rw [cellsOf, ← Nat.add_assoc] at hfit
    refine .cons ?_ ?_
    · intro hzero
      have hcells := z.eight_le_cells
      have hlimit := hfit.2
      have hpos := hfit.1
      have hnat := congrArg BitVec.toNat hzero
      change (Mem.cell base h).toNat = 0 at hnat
      rw [Mem.toNat_cell (by omega)] at hnat
      omega
    · show ZoneChain m (zoneField m (Mem.cell base h) .nextZone) _
      rw [hfirst.header .nextZone]
      exact ih hrest hfit

end

/-- The reservation leaves the zones where they are. -/
theorem zonePtrs_reserveZones (base : BitVec 32) (resStart resEnd : BitVec 32) {b : Bool} {h : Nat} {zs : List Zone} :
    zonePtrs base h (reserveZones resStart resEnd b zs) = zonePtrs base h zs := by
  induction zs generalizing b h with
  | nil => rfl
  | cons z zs ih =>
    rw [reserveZones, zonePtrs, zonePtrs, Zone.reserved_cells, Zone.bump_cells, ih]

theorem length_zonePtrs {base : BitVec 32} {h : Nat} {zs : List Zone} : (zonePtrs base h zs).length = zs.length := by
  induction zs generalizing h with
  | nil => rfl
  | cons z zs ih => rw [zonePtrs, List.length_cons, List.length_cons, ih]

/-- The structures of the zones `qs` are the list that starts at `memory_zones`; they lie back to back from the end of the kernel on, do
not overlap, and take all of the given number of bytes there, so that the reserved range ends with their last byte. -/
structure Packed (k : Kernel) (m : Mem) (size : BitVec 32) (qs : List (BitVec 32)) : Prop where
  chain : qs ≠ [] → ZoneChain m k.memoryZones qs
  backToBack : BackToBack m k.kernelEnd.toNat (k.kernelEnd.toNat + size.toNat) qs
  apart : ZonesApart m qs
  covers : {i | ∃ q ∈ qs, i ∈ headerBytes q ∪ bitmapBytes m q} = Set.Ico k.kernelEnd.toNat (k.kernelEnd.toNat + size.toNat)
  resEnd : qs ≠ [] → (k.resEnd size).toNat + virtualKernelOffset.toNat + 1 = k.kernelEnd.toNat + size.toNat

section

variable {k : Kernel} {m : Mem} {zs : List Zone}

/-- The size of zones that fit is a 32-bit number. -/
theorem toNat_size (hfit : Fits k.kernelEnd (cellsOf zs)) : (BitVec.ofNat 32 (4 * cellsOf zs)).toNat = 4 * cellsOf zs := by
  have hbase := hfit.1
  have hlimit := hfit.2
  rw [BitVec.toNat_ofNat]
  exact Nat.mod_eq_of_lt (by omega)

/-- The reserved range ends with the last byte of the structures. -/
theorem toNat_resEnd (hfit : Fits k.kernelEnd (cellsOf zs)) (hne : zs ≠ []) :
    (k.resEnd (BitVec.ofNat 32 (4 * cellsOf zs))).toNat + virtualKernelOffset.toNat + 1 = k.kernelEnd.toNat + 4 * cellsOf zs := by
  have hoffset := k.offset_le
  have hstart := k.start_le
  have hlimit := hfit.2
  have hsize := toNat_size hfit
  have hpos := eight_le_cellsOf hne
  simp only [Kernel.resEnd, virtualKernelOffset] at hoffset ⊢
  bv_omega

/-- Zones in memory from the end of the kernel on are packed. -/
theorem ZonesAt.packed (hz : ZonesAt k.kernelEnd m 0 zs) (hwords : ∀ z ∈ zs, 8 < z.cells) (hfit : Fits k.kernelEnd (cellsOf zs)) :
    Packed k m (BitVec.ofNat 32 (4 * cellsOf zs)) (zonePtrs k.kernelEnd 0 zs) := by
  have hne : zonePtrs k.kernelEnd 0 zs ≠ [] → zs ≠ [] := by
    rintro hptrs rfl
    exact hptrs rfl
  have hfit' : Fits k.kernelEnd (0 + cellsOf zs) := by
    rw [Nat.zero_add]
    exact hfit
  have hsize := toNat_size hfit
  have hback := hz.backToBack hwords hfit'
  rw [Nat.mul_zero, Nat.add_zero, Nat.zero_add, ← hsize] at hback
  have hlimit := hfit.2
  rw [← hsize] at hlimit
  refine ⟨?_, hback, hback.apart hlimit, hback.covers, ?_⟩
  · intro hptrs
    rw [k.memoryZones_eq (hne hptrs)]
    exact hz.chain hfit'
  · intro hptrs
    rw [toNat_resEnd hfit (hne hptrs), hsize]

end

section

variable {k : Kernel} {boot : Boot} {mbt : MultibootInfo} {es : List MmapEntry}

/-- The zone of an entry with a block has a word of bitmap. -/
theorem newZones_cells (hblocks : ∀ e ∈ usable es, 1 ≤ e.blocks) : ∀ z ∈ newZones es, 8 < z.cells := by
  intro z hz
  obtain ⟨e, he, rfl⟩ := List.mem_map.mp hz
  have hpos := hblocks e he
  rw [Zone.cells, e.toNat_bitmapWords]
  omega

theorem initialZones_cells (hblocks : ∀ e ∈ usable es, 1 ≤ e.blocks) : ∀ z ∈ initialZones k es, 8 < z.cells := by
  intro z hz
  obtain ⟨y, hy, b, rfl⟩ := mem_reserveZones hz
  rw [Zone.reserved_cells, Zone.bump_cells]
  exact newZones_cells hblocks y hy

/-- The walk of a memory map whose usable entries have a block each, and whose structures fit below the end of the address space, returns.
The structures of its zones, one for each of these entries, are packed, and they are still when `init_pmm` returns. -/
theorem initPmm_packed (hmap : MemoryMap boot mbt es) (hblocks : ∀ e ∈ usable es, 1 ≤ e.blocks)
    (hfit : Fits k.kernelEnd (cellsOf (newZones es))) (m₀ : Mem) :
    ∃ w qs, Returns (walk k boot mbt m₀) w ∧ qs.length = (usable es).length ∧ Packed k w.mem w.pmmStructuresSize qs ∧
      (∀ m, Returns (initPmm k boot mbt m₀) m → Packed k m w.pmmStructuresSize qs) ∧
      (mbt.flags &&& mbtFlagIsMmap ≠ 0 → usable es ≠ [] → ∃ m, Returns (initPmm k boot mbt m₀) m) := by
  obtain ⟨w, hw, hinv⟩ := walk_newZones (k := k) m₀ hmap hfit hblocks
  refine ⟨w, zonePtrs k.kernelEnd 0 (newZones es), hw, ?_, ?_, ?_, ?_⟩
  · rw [length_zonePtrs, newZones, List.length_map]
  · rw [hinv.size]
    exact hinv.zones.packed (newZones_cells hblocks) hfit
  · intro m hm
    have hcells := cellsOf_initialZones k es
    have hpacked := (initPmm_zones hmap hfit hm).packed (initialZones_cells hblocks) (by rw [hcells]; exact hfit)
    rw [hcells, initialZones, zonePtrs_reserveZones] at hpacked
    rw [hinv.size]
    exact hpacked
  · intro hflags hne
    obtain ⟨m, hm, _⟩ := initPmm_ensures m₀ hflags hmap hne hfit hblocks
    exact ⟨m, hm⟩

end

/-- `init_pmm` returns on `twoZones`, with two zones that are packed. -/
theorem initPmm_packed_twoZones :
    ∃ m w qs, Returns (walk smallKernel (bootOf 0x9000 twoZones) (mapInfo 0x9000 twoZones) (fun _ => 0)) w ∧
      Returns (initPmm smallKernel (bootOf 0x9000 twoZones) (mapInfo 0x9000 twoZones) (fun _ => 0)) m ∧
      qs.length = 2 ∧ Packed smallKernel w.mem w.pmmStructuresSize qs ∧ Packed smallKernel m w.pmmStructuresSize qs := by
  obtain ⟨w, qs, hw, hlen, hwalk, hinit, hreturns⟩ :=
    initPmm_packed (k := smallKernel) twoZones_memoryMap (by decide) twoZones_placed.fits (fun _ => 0)
  obtain ⟨m, hm⟩ := hreturns (by decide) (by decide)
  exact ⟨m, w, qs, hw, hm, hlen, hwalk, hinit m hm⟩

end LumOS
