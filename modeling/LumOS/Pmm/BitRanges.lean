import LumOS.Pmm.Exact

/-!
# The ranges of bits that the reservation sets

`initPmmTraced` is `init_pmm` with the arguments of the calls of `set_bits` that the reservation makes (`reserveZone_eq`,
`traces_initPmm`). Each range is a range, and it ends in the zone's bitmap, exactly when no zone of a multiple of 32 blocks ends in part
of a block that the reserved range meets (`reservation_in_bitmap_iff`): such a part has a bit number, one more than the last block's,
and no bit in the bitmap.
-/

namespace LumOS

open Comp

/-! ## The calls of `set_bits` -/

/-- A call of `set_bits` for a zone: where the zone is, the words in its bitmap, and the two offsets. -/
structure SetBitsCall where
  zone : BitVec 32
  bitmapWords : BitVec 32
  startbit : BitVec 32
  endbit : BitVec 32
  deriving DecidableEq

/-- The call of `set_bits` that the reservation makes for a zone, if it makes one. -/
def reserveCall (resStart resEnd : BitVec 32) (m : Mem) (zone : BitVec 32) : List SetBitsCall :=
  let start := zoneField m zone .start
  let end_ := zoneField m zone .end_
  if (resStart ≤ start ∧ resEnd ≥ start) ∨ (resStart ≥ start ∧ resStart ≤ end_) then
    [{ zone := zone
       bitmapWords := zoneField m zone .bitmapWords
       startbit := getOffset start (if start > resStart then start else resStart)
       endbit := getOffset start (if end_ < resEnd then end_ else resEnd) }]
  else []

/-- The reservation of a zone is its call of `set_bits`. -/
theorem reserveZone_eq (resStart resEnd : BitVec 32) (m : Mem) (zone : BitVec 32) :
    reserveZone resStart resEnd m zone =
      match reserveCall resStart resEnd m zone with
      | [] => pure m
      | c :: _ => setBits m (zoneField m zone .bitmap) c.startbit c.endbit := by
  unfold reserveZone reserveCall
  simp only
  split <;> rfl

/-- `init_pmm`, with the calls of `set_bits` that the reservation makes. -/
def initPmmTraced (k : Kernel) (boot : Boot) (mbt : MultibootInfo) (m : Mem) : Comp (Mem × List SetBitsCall) :=
  if mbt.flags &&& mbtFlagIsMmap = 0 then diverge
  else do
    let w ← walk k boot mbt m
    let resEnd := k.resEnd w.pmmStructuresSize
    let ((m, _), turns) ← visits (fun (_, zone) => zone ≠ 0)
      (fun (m, zone) => do
        let m ← reserveZone k.resStart resEnd m zone
        return (m, zoneField m zone .nextZone))
      (w.mem, k.memoryZones)
    printZones m k.memoryZones
    return (m, turns.flatMap (fun (m, zone) => reserveCall k.resStart resEnd m zone))

/-- With the calls `init_pmm` does what it does without. -/
theorem traces_initPmm (k : Kernel) (boot : Boot) (mbt : MultibootInfo) (m₀ : Mem) :
    Traces (initPmm k boot mbt m₀) (initPmmTraced k boot mbt m₀) := by
  unfold initPmm initPmmTraced reserveKernel
  refine .ite traces_diverge (.bind fun w => ?_)
  rw [bind_bind]
  exact .visits fun s vs => .bind fun _ => traces_pure _ _

/-! ## The calls for a list of zones -/

/-- The calls of `set_bits` for a list of zones from cell `h` on; `b` says whether the zone before the list spilt. -/
def reserveCalls (base resStart resEnd : BitVec 32) : Bool → Nat → List Zone → List SetBitsCall
  | _, _, [] => []
  | b, h, z :: zs =>
    (if (z.bump b).overlaps resStart resEnd then
      [⟨Mem.cell base h, z.bitmapWords, (z.bump b).startbit resStart, (z.bump b).endbit resEnd⟩] else []) ++
      reserveCalls base resStart resEnd ((z.bump b).spills resStart resEnd) (h + z.cells) zs

section

variable {base resStart resEnd : BitVec 32}

theorem ZoneAt.reserveCall (resStart resEnd : BitVec 32) {m : Mem} {h : Nat} {z : Zone} {next : BitVec 32} (hz : ZoneAt base m h z next) :
    LumOS.reserveCall resStart resEnd m (Mem.cell base h) =
      if z.overlaps resStart resEnd then
        [⟨Mem.cell base h, z.bitmapWords, z.startbit resStart, z.endbit resEnd⟩] else [] := by
  unfold LumOS.reserveCall
  simp only [hz.header .start, hz.header .end_, hz.header .bitmapWords, Zone.header]
  by_cases ho : z.overlaps resStart resEnd = true
  · rw [if_pos ho, if_pos (of_decide_eq_true ho)]
    rfl
  · rw [if_neg ho, if_neg (of_decide_eq_false (Bool.not_eq_true _ ▸ ho))]

/-- The reservation along a list of zones in memory makes the calls for the list. -/
theorem reserveLoop_calls {n : Nat} (hfit : Fits base n) {zs : List Zone} :
    ∀ {m : Mem} {h : Nat} {b : Bool} {turns : List (Mem × BitVec 32)} {t : Mem × BitVec 32}, ZonesAt base m h (bumpHead b zs) →
    h + cellsOf zs ≤ n → (∀ z ∈ zs, ∀ b, (z.bump b).RangeOk resStart resEnd) →
    Visits (fun (_, zone) => zone ≠ 0)
      (fun (m, zone) => do
        let m ← reserveZone resStart resEnd m zone
        return (m, zoneField m zone .nextZone)) (m, ptrTo base h zs) turns t →
    turns.flatMap (fun (m, zone) => LumOS.reserveCall resStart resEnd m zone) = reserveCalls base resStart resEnd b h zs := by
  induction zs with
  | nil =>
    intro m h b turns t _ _ _ hv
    cases hv with
    | exit _ => rfl
    | turn hc _ _ => exact absurd rfl (of_decide_eq_true hc)
  | cons z zs ih =>
    intro m h b turns t hz hn hok hv
    have hlt := hfit.lt_cells
    have h8 := z.eight_le_cells
    have hstep := hz.reserveHead (by omega) (hok z (by simp) b)
    simp only [cellsOf] at hn
    cases hv with
    | exit hc => exact absurd (hfit.cell_ne_zero (by omega)) (of_decide_eq_false hc)
    | @turn _ u _ vs hc hu hv =>
      obtain ⟨m₁, hm₁, hu⟩ := returns_bind.mp hu
      obtain ⟨hz₁, htail, _⟩ := hstep.of_returns hm₁
      have hnext : zoneField m₁ (Mem.cell base h) .nextZone = ptrTo base (h + z.cells) zs := hz₁.header .nextZone
      have hu' : (m₁, ptrTo base (h + z.cells) zs) = u := by
        rw [← hnext]
        exact returns_pure.mp hu
      rw [← hu'] at hv
      have hcall := hz.1.reserveCall resStart resEnd
      rw [List.flatMap_cons, ih htail (by omega) (fun y hy => hok y (List.mem_cons_of_mem z hy)) hv, reserveCalls]
      refine congrArg (· ++ _) (hcall.trans ?_)
      cases b <;> rfl

/-- What holds of the calls for the zones of some entries is what holds of the bit ranges of the marked ones. -/
theorem forall_reserveCalls_iff {P : BitVec 32 → BitVec 32 → BitVec 32 → Prop} {us : List MmapEntry} : ∀ {b : Bool} {h : Nat},
    (∀ c ∈ reserveCalls base resStart resEnd b h (us.map MmapEntry.zone), P c.bitmapWords c.startbit c.endbit) ↔
      ∀ p ∈ spillMarks resStart resEnd b us, (markedZone p).overlaps resStart resEnd = true →
        P (markedZone p).bitmapWords ((markedZone p).startbit resStart) ((markedZone p).endbit resEnd) := by
  induction us with
  | nil =>
    intro b h
    exact iff_of_true (fun c hc => absurd hc List.not_mem_nil) (fun p hp => absurd hp List.not_mem_nil)
  | cons e us ih =>
    intro b h
    rw [List.map_cons, reserveCalls, List.forall_mem_append, spillMarks, List.forall_mem_cons, ih]
    refine and_congr_left' ?_
    have hwords : (markedZone (e, b)).bitmapWords = e.zone.bitmapWords := by cases b <;> rfl
    rw [hwords]
    by_cases ho : (e.zone.bump b).overlaps resStart resEnd = true
    · rw [if_pos ho, List.forall_mem_singleton]
      exact ⟨fun h _ => h, fun h => h ho⟩
    · rw [if_neg ho]
      exact iff_of_true (fun c hc => absurd hc List.not_mem_nil) (fun h => absurd h ho)

/-- The calls for a list of zones are for zones of the list. -/
theorem reserveCalls_zone {zs : List Zone} {c : SetBitsCall} : ∀ {b : Bool} {h : Nat}, c ∈ reserveCalls base resStart resEnd b h zs →
    ∃ pre z suf, zs = pre ++ z :: suf ∧ c.zone = Mem.cell base (h + cellsOf pre) := by
  induction zs with
  | nil =>
    intro b h hc
    cases hc
  | cons z zs ih =>
    intro b h hc
    rcases List.mem_append.mp hc with hc | hc
    · refine ⟨[], z, zs, rfl, ?_⟩
      split at hc
      · rw [List.mem_singleton.mp hc]
        rfl
      · cases hc
    · obtain ⟨pre, y, suf, rfl, hzone⟩ := ih hc
      exact ⟨z :: pre, y, suf, rfl, by rw [hzone, cellsOf, Nat.add_assoc]⟩

/-- The zones after the reservation have the places they had before. -/
theorem reserveZones_split {z : Zone} {suf : List Zone} (pre : List Zone) : ∀ b, ∃ pre' z' suf',
    reserveZones resStart resEnd b (pre ++ z :: suf) = pre' ++ z' :: suf' ∧ cellsOf pre' = cellsOf pre := by
  induction pre with
  | nil =>
    intro b
    exact ⟨[], _, _, rfl, rfl⟩
  | cons y pre ih =>
    intro b
    obtain ⟨pre', z', suf', hsplit, hcells⟩ := ih ((y.bump b).spills resStart resEnd)
    refine ⟨(y.bump b).reserved resStart resEnd :: pre', z', suf', ?_, ?_⟩
    · rw [List.cons_append, reserveZones, hsplit]
      rfl
    · rw [cellsOf, cellsOf, hcells, Zone.reserved_cells, Zone.bump_cells]

/-- Without a spill no entry is marked. -/
theorem spillMarks_spills_iff {us : List MmapEntry} :
    (∀ p ∈ spillMarks resStart resEnd false us, (markedZone p).spills resStart resEnd = false) ↔
      ∀ e ∈ us, e.zone.spills resStart resEnd = false := by
  induction us with
  | nil => exact iff_of_true (fun p hp => absurd hp List.not_mem_nil) (fun e he => absurd he List.not_mem_nil)
  | cons e us ih =>
    rw [spillMarks, List.forall_mem_cons, List.forall_mem_cons]
    refine and_congr_right ?_
    intro he
    have hnone : (e.zone.bump false).spills resStart resEnd = false := he
    rw [hnone, ih]

end

/-! ## The ranges are in the bitmaps -/

/-- The entry's whole blocks fill the words of its bitmap, and the reserved range meets the part of a block behind them. -/
def TailReserved (k : Kernel) (es : List MmapEntry) (e : MmapEntry) : Prop :=
  e.blocks % 32 = 0 ∧ (Set.Ico (e.base + 4096 * e.blocks) (e.base + e.len) ∩ reservedRange k es).Nonempty

section

variable {k : Kernel} {boot : Boot} {mbt : MultibootInfo} {es : List MmapEntry} {m₀ m : Mem} {calls : List SetBitsCall}

/-- Where the last bit of the range is, for a zone that the reserved range overlaps. -/
theorem toNat_endbit {z : Zone} {resStart resEnd : BitVec 32} (hspan : z.start ≤ z.end_) (hle : resStart ≤ resEnd) :
    (z.overlaps resStart resEnd = true ↔ z.start.toNat ≤ resEnd.toNat ∧ resStart.toNat ≤ z.end_.toNat) ∧
      (z.overlaps resStart resEnd = true →
        (z.endbit resEnd).toNat = (min z.end_.toNat resEnd.toNat - z.start.toNat) / 4096) := by
  have hov : z.overlaps resStart resEnd = true ↔ z.start.toNat ≤ resEnd.toNat ∧ resStart.toNat ≤ z.end_.toNat := by
    rw [Zone.overlaps, decide_eq_true_eq]
    bv_omega
  refine ⟨hov, fun ho => ?_⟩
  obtain ⟨h1, h2⟩ := hov.mp ho
  rw [Zone.endbit, toNat_getOffset]
  by_cases h : z.end_ < resEnd
  · rw [if_pos h, Nat.min_eq_left (Nat.le_of_lt h)]
    bv_omega
  · rw [if_neg h, Nat.min_eq_right (by bv_omega)]
    bv_omega

/-- The reservation of an entry's zone sets the bit behind the bitmap when the tail is reserved. -/
theorem spills_iff (hp : Placed k es) {e : MmapEntry} (hbelow : e.base + e.len ≤ 2 ^ 32) (hb : 1 ≤ e.blocks) :
    e.zone.spills k.resStart (k.resEnd (structuresSize es)) = true ↔ TailReserved k es e := by
  obtain ⟨h1, h2⟩ := e.low_of_below hbelow hb
  have hle := resStart_le_resEnd hp
  have hrange := e.rangeOk hb hle false
  have hstart : e.zone.start.toNat = e.base := h1.symm
  have hend : e.zone.end_.toNat + 1 = e.base + e.len := by
    have := e.zone_span hb
    rw [h1, h2] at hbelow ⊢
    simp only [MmapEntry.zone, MmapEntry.blocks] at this hb ⊢
    bv_omega
  have hlen : e.blocks = e.len / 4096 := by rw [MmapEntry.blocks, h2]
  have hwords := e.toNat_bitmapWords
  have hlength : e.zone.length.toNat = e.blocks := e.toNat_length
  obtain ⟨hov, hbit⟩ := toNat_endbit (z := e.zone) (by rw [BitVec.le_def]; omega) hle
  rw [BitVec.le_def] at hle
  have htail : TailReserved k es e ↔ e.blocks % 32 = 0 ∧ e.base + 4096 * e.blocks < e.base + e.len ∧
      k.resStart.toNat < e.base + e.len ∧ e.base + 4096 * e.blocks ≤ (k.resEnd (structuresSize es)).toNat := by
    refine and_congr_right ?_
    intro _
    constructor
    · rintro ⟨x, ⟨h3, h4⟩, h5, h6⟩
      exact ⟨by omega, by omega, by omega⟩
    · rintro ⟨h3, h4, h5⟩
      exact ⟨max (e.base + 4096 * e.blocks) k.resStart.toNat, ⟨Nat.le_max_left _ _, Nat.max_lt.mpr ⟨h3, h4⟩⟩,
        Nat.le_max_right _ _, Nat.max_le.mpr ⟨h5, hle⟩⟩
  rw [htail, Zone.spills, decide_eq_true_eq, hwords]
  constructor
  · rintro ⟨ho, hge⟩
    have hlast := (hrange ho).2
    rw [Zone.bump_false, hlength] at hlast
    rw [hbit ho] at hlast hge
    obtain ⟨h3, h4⟩ := hov.mp ho
    omega
  · rintro ⟨h3, h4, h5, h6⟩
    have ho := hov.mpr ⟨by omega, by omega⟩
    refine ⟨ho, ?_⟩
    rw [hbit ho]
    omega

/-- The calls that `init_pmm` makes for a memory map. -/
theorem initPmmTraced_calls (hmap : MemoryMap boot mbt es) (hp : Placed k es)
    (hr : Returns (initPmmTraced k boot mbt m₀) (m, calls)) :
    calls = reserveCalls k.kernelEnd k.resStart (k.resEnd (structuresSize es)) false 0 (newZones es) := by
  have hinit := (traces_initPmm k boot mbt m₀ m).mpr ⟨calls, hr⟩
  have hb := initPmm_blocks hmap hinit
  unfold initPmmTraced at hr
  rw [if_neg (initPmm_walk hinit).1] at hr
  obtain ⟨w, hw, hr⟩ := returns_bind.mp hr
  obtain ⟨⟨s, turns⟩, hs, hr⟩ := returns_bind.mp hr
  obtain ⟨u, _, hr⟩ := returns_bind.mp hr
  have hinv := (walk_newZones m₀ hmap hp.fits hb).of_returns hw
  have hsize : w.pmmStructuresSize = structuresSize es := hinv.size
  have hv := returns_visits.mp hs
  rw [k.memoryZones_eq (List.map_eq_nil_iff.not.mpr hp.usable_ne), hsize] at hv
  have hz : ZonesAt k.kernelEnd w.mem 0 (bumpHead false (newZones es)) := by
    rw [bumpHead_false]
    exact hinv.zones
  have hloop := reserveLoop_calls hp.fits hz (Nat.le_of_eq (Nat.zero_add _))
    (newZones_rangeOk hb (resStart_le_of_fits hp.usable_ne hp.fits)) hv
  have hcalls := congrArg Prod.snd (returns_pure.mp hr)
  rw [hsize] at hcalls
  rw [← hloop]
  exact hcalls.symm

/-- When `init_pmm` returns, the ranges of all calls for zones that were built end in the bitmaps exactly when no tail is reserved. -/
theorem calls_in_bitmap_iff (hmap : MemoryMap boot mbt es) (hd : DisjointMap es)
    (hfit : Fits k.kernelEnd (cellsOf (newZones es))) (hr : Returns (initPmmTraced k boot mbt m₀) (m, calls)) :
    (∀ c ∈ calls, BuiltZone k es m c.zone → c.startbit ≤ c.endbit ∧ c.endbit.toNat < 32 * c.bitmapWords.toNat) ↔
      ∀ e ∈ usable es, ¬TailReserved k es e := by
  have hinit := (traces_initPmm k boot mbt m₀ m).mpr ⟨calls, hr⟩
  by_cases hne : usable es = []
  · -- no zone was built, and no entry is there
    rw [hne]
    refine iff_of_true ?_ (fun e he => absurd he List.not_mem_nil)
    rintro c _ ⟨n, hn, _⟩
    rw [hne] at hn
    exact absurd hn (Nat.not_lt_zero n)
  have hp : Placed k es := ⟨hne, hfit⟩
  have hb := initPmm_blocks hmap hinit
  have hcalls := initPmmTraced_calls hmap hp hr
  have hbuilt : ∀ c ∈ calls, BuiltZone k es m c.zone := by
    intro c hc
    rw [hcalls] at hc
    obtain ⟨pre, z, suf, hsplit, hzone⟩ := reserveCalls_zone hc
    obtain ⟨pre', z', suf', hsplit', hcells⟩ := reserveZones_split pre false
    rw [← hsplit] at hsplit'
    rw [hzone, Nat.zero_add, ← hcells]
    exact (builtZone_iff (initPmm_zones hmap hfit hinit) length_initialZones).mpr ⟨pre', z', suf', hsplit', rfl⟩
  have hall : (∀ c ∈ calls, BuiltZone k es m c.zone → c.startbit ≤ c.endbit ∧ c.endbit.toNat < 32 * c.bitmapWords.toNat) ↔
      ∀ c ∈ calls, c.startbit ≤ c.endbit ∧ c.endbit.toNat < 32 * c.bitmapWords.toNat :=
    forall₂_congr (fun c hc => ⟨fun h => h (hbuilt c hc), fun h _ => h⟩)
  rw [hall, hcalls, newZones,
    forall_reserveCalls_iff (P := fun words s e => s ≤ e ∧ e.toNat < 32 * words.toNat)]
  have hmarked : ∀ p ∈ marks k es, ((markedZone p).overlaps k.resStart (k.resEnd (structuresSize es)) = true →
      (markedZone p).startbit k.resStart ≤ (markedZone p).endbit (k.resEnd (structuresSize es)) ∧
        ((markedZone p).endbit (k.resEnd (structuresSize es))).toNat < 32 * (markedZone p).bitmapWords.toNat) ↔
      (markedZone p).spills k.resStart (k.resEnd (structuresSize es)) = false := by
    intro p hmem
    have hrange := markedZone_rangeOk hp (hb p.1 (marks_usable hmem))
    rw [Zone.spills, decide_eq_false_iff_not, not_and, Nat.not_le]
    exact forall_congr' (fun ho => and_iff_right (hrange ho).1)
  refine (forall₂_congr hmarked).trans (spillMarks_spills_iff.trans (forall₂_congr ?_))
  intro e hu
  have hbelow := hd.below e (usable_type hu).1 (usable_type hu).2
  rw [← spills_iff hp hbelow (hb e hu), Bool.not_eq_true]

/-- On a memory map of disjoint entries below 4 GiB that have blocks `init_pmm` returns, if there is one that it uses, and both offsets
of every call of `set_bits` for a zone are in order and in the zone's bitmap exactly when the reserved range meets no part of a block
behind whole blocks that fill the words of their bitmap. -/
theorem reservation_in_bitmap_iff (hflags : mbt.flags &&& mbtFlagIsMmap ≠ 0) (hmap : MemoryMap boot mbt es) (hd : DisjointMap es)
    (hblocks : ∀ e ∈ usable es, 1 ≤ e.blocks) (hfit : Fits k.kernelEnd (cellsOf (newZones es))) :
    (usable es ≠ [] → ∃ m calls, Returns (initPmmTraced k boot mbt m₀) (m, calls)) ∧
      ∀ m calls, Returns (initPmmTraced k boot mbt m₀) (m, calls) →
        ((∀ c ∈ calls, BuiltZone k es m c.zone → c.startbit ≤ c.endbit ∧ c.endbit.toNat < 32 * c.bitmapWords.toNat) ↔
          ∀ e ∈ usable es, ¬TailReserved k es e) := by
  refine ⟨fun hne => ?_, fun m calls hr => calls_in_bitmap_iff hmap hd hfit hr⟩
  obtain ⟨m, hm, _⟩ := initPmm_ensures m₀ hflags hmap hne hfit hblocks
  exact ⟨m, (traces_initPmm k boot mbt m₀ m).mp hm⟩

end

/-- The block in the kernel has its bit set. -/
theorem reservation_in_bitmap_kernelZone : ∃ m calls c,
    Returns (initPmmTraced smallKernel (bootOf 0x9000 kernelZone) (mapInfo 0x9000 kernelZone) (fun _ => 0)) (m, calls) ∧
      c ∈ calls ∧ BuiltZone smallKernel kernelZone m c.zone ∧
      c.startbit ≤ c.endbit ∧ c.endbit.toNat < 32 * c.bitmapWords.toNat := by
  obtain ⟨⟨m, calls⟩, hm, hx⟩ := exists_returns_of_run
    (c := initPmmTraced smallKernel (bootOf 0x9000 kernelZone) (mapInfo 0x9000 kernelZone) (fun _ => 0)) (n := 40)
    (f := fun r => (r.2, zoneAfter r.1 smallKernel.memoryZones 1)) (x := ([⟨0xC0102024, 1, 0, 0⟩], 0xC0102024)) (by decide)
  obtain ⟨hcalls, hzone⟩ := Prod.mk.inj hx
  have hblocks : ∀ e ∈ usable kernelZone, 1 ≤ e.blocks ∧ e.blocks % 32 ≠ 0 := by decide
  have hc : (⟨0xC0102024, 1, 0, 0⟩ : SetBitsCall) ∈ calls := by
    simp only at hcalls
    rw [hcalls]
    exact List.mem_singleton.mpr rfl
  have hb : BuiltZone smallKernel kernelZone m 0xC0102024 := ⟨1, by decide, hzone⟩
  have hmap : MemoryMap (bootOf 0x9000 kernelZone) (mapInfo 0x9000 kernelZone) kernelZone :=
    memoryMap_bootOf (by decide) (by decide)
  have hall := (reservation_in_bitmap_iff (by decide) hmap kernelZone_disjoint (fun e he => (hblocks e he).1)
    ⟨by decide, by decide⟩).2 m calls hm
  exact ⟨m, calls, _, hm, hc, hb, hall.mpr (fun e he h => (hblocks e he).2 h.1) _ hc hb⟩

/-- The structures end in the half block: its bit is the first one behind the bitmap's one word. -/
theorem reservation_behind_bitmap : DisjointMap tailZone ∧ (∀ e ∈ usable tailZone, 1 ≤ e.blocks) ∧
    MemoryMap (bootOf 0x9000 tailZone) (mapInfo 0x9000 tailZone) tailZone ∧ ∃ m calls c,
    Returns (initPmmTraced smallKernel (bootOf 0x9000 tailZone) (mapInfo 0x9000 tailZone) (fun _ => 0)) (m, calls) ∧
      c ∈ calls ∧ BuiltZone smallKernel tailZone m c.zone ∧ c.endbit = 32 ∧ c.bitmapWords = 1 ∧
      ¬(c.startbit ≤ c.endbit ∧ c.endbit.toNat < 32 * c.bitmapWords.toNat) := by
  obtain ⟨⟨m, calls⟩, hm, hx⟩ := exists_returns_of_run
    (c := initPmmTraced smallKernel (bootOf 0x9000 tailZone) (mapInfo 0x9000 tailZone) (fun _ => 0)) (n := 40)
    (f := fun r => (r.2, zoneAfter r.1 smallKernel.memoryZones 0)) (x := ([⟨0xC0102000, 1, 30, 32⟩], 0xC0102000)) (by decide)
  obtain ⟨hcalls, hzone⟩ := Prod.mk.inj hx
  simp only at hcalls
  exact ⟨tailZone_disjoint, by decide, memoryMap_bootOf (by decide) (by decide), m, calls, _, hm,
    by rw [hcalls]; exact List.mem_singleton.mpr rfl, ⟨0, by decide, hzone⟩, rfl, rfl, by decide⟩

end LumOS
