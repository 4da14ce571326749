import LumOS.Pmm.Undo

/-!
# What is held decides what is in memory

From one state after `init_pmm`, on a map whose zones lie apart, the memory of a client that gives back blocks of the first zone depends
only on the blocks it holds: not on the calls that it has made, their order or their number (`memory_determined`). Where it has given back
all that it has been given it is where it began.
-/

namespace LumOS

open Comp

/-! ## Zones -/

/-- The bits behind the blocks are the same in all zones. -/
theorem Zone.used_ext {z y : Zone} (hlength : z.length = y.length) (h : ∀ i < z.length.toNat, z.used i = y.used i) :
    z.used = y.used := by
  funext i
  rcases Nat.lt_or_ge i z.length.toNat with hi | hi
  · exact h i hi
  · rw [z.padded i hi, y.padded i (hlength ▸ hi)]

theorem Zone.eq_of_shape {z y : Zone} (hshape : z.shape = y.shape) (hfree : z.free = y.free) (hused : z.used = y.used) : z = y := by
  cases z
  cases y
  cases hshape
  cases hfree
  cases hused
  rfl

/-- The blocks used are those used from the start and those that are out. -/
theorem Tracks.used_iff {zs : List Zone} {s : ZoneState} {ts : List Tracked} (ho : Orderly zs) (ht : Tracks zs s ts) {t : Tracked}
    (hmem : t ∈ ts) {i : Nat} (hi : i < t.init.length.toNat) :
    t.zone.used i = true ↔ t.init.used i = true ∨ t.init.address i ∈ outOf s.held := by
  have hlimit := ho.limit_le _ (ht.mem_init hmem)
  constructor
  · intro hu
    rcases hinit : t.init.used i with _ | _
    · exact Or.inr ((ht.held _).mpr ⟨t, hmem, i, hi, hinit, hu, rfl⟩)
    · exact Or.inl rfl
  · rintro (hinit | hout)
    · exact t.kept i hinit
    · obtain ⟨pre, suf, rfl⟩ := List.append_of_mem hmem
      have hinits := ht.init
      subst hinits
      rcases (heldIn_middle _ _ _ _).mp ((ht.held _).mp hout) with ⟨j, hj, -, hu, he⟩ | hother
      · rwa [t.init.address_inj hlimit hi hj he]
      · exact absurd hother (Orderly.not_heldIn pre ho (t.init.covers_address hlimit hi))

/-- Zones with one past that have the same blocks out are the same. -/
theorem Tracks.zones_eq {zs : List Zone} {s s' : ZoneState} {ts ts' : List Tracked} (ho : Orderly zs) (ht : Tracks zs s ts)
    (ht' : Tracks zs s' ts') (hout : ∀ a, a ∈ outOf s.held ↔ a ∈ outOf s'.held) : s.zones = s'.zones := by
  have hinits : ts.map Tracked.init = ts'.map Tracked.init := ht.init.trans ht'.init.symm
  have hlength : ts.length = ts'.length := by
    rw [← List.length_map Tracked.init, hinits, List.length_map]
  rw [← ht.zones, ← ht'.zones]
  refine List.ext_getElem (by rw [List.length_map, List.length_map, hlength]) fun n hn hn' => ?_
  rw [List.length_map] at hn hn'
  rw [List.getElem_map, List.getElem_map]
  have hinit : ts[n].init = ts'[n].init := by
    have hget : (ts.map Tracked.init)[n]? = (ts'.map Tracked.init)[n]? := congrArg (·[n]?) hinits
    simpa [hn, hn'] using hget
  have hshape : ts[n].zone.shape = ts'[n].zone.shape := by rw [ts[n].shape, ts'[n].shape, hinit]
  have hlen : ts[n].zone.length = ts'[n].zone.length := congrArg Shape.length hshape
  have hused : ts[n].zone.used = ts'[n].zone.used := by
    refine Zone.used_ext hlen fun i hi => ?_
    rw [ts[n].length_eq] at hi
    rw [Bool.eq_iff_iff, ht.used_iff ho (List.getElem_mem hn) hi, ht'.used_iff ho (List.getElem_mem hn') (hinit ▸ hi), hinit, hout]
  have hfree : ts[n].zone.free = ts'[n].zone.free := by
    refine BitVec.eq_of_toNat_eq ?_
    simp only [ts[n].count, ts'[n].count, Zone.unset, hused, hlen, hinit]
  exact Zone.eq_of_shape hshape hfree hused

/-! ## The memory -/

section

variable {base : BitVec 32} {m m₁ m₂ : Mem}

/-- The header has a field at each place. -/
theorem Field.exists_index : ∀ {j : Nat}, j < 8 → ∃ f : Field, f.index = j
  | 0, _ => ⟨.start, rfl⟩
  | 1, _ => ⟨.end_, rfl⟩
  | 2, _ => ⟨.length, rfl⟩
  | 3, _ => ⟨.free, rfl⟩
  | 4, _ => ⟨.lastOffset, rfl⟩
  | 5, _ => ⟨.bitmapWords, rfl⟩
  | 6, _ => ⟨.bitmap, rfl⟩
  | 7, _ => ⟨.nextZone, rfl⟩
  | j + 8, h => absurd h (Nat.not_lt.mpr (Nat.le_add_left 8 j))

/-- A zone says what each bit of its header and of its bitmap is. -/
theorem ZoneAt.bit_eq {h n : Nat} {z : Zone} {next : BitVec 32} (h₁ : ZoneAt base m₁ h z next) (h₂ : ZoneAt base m₂ h z next)
    (hge : 32 * h ≤ n) (hlt : n < 32 * (h + z.cells)) : m₁.bit base n = m₂.bit base n := by
  rcases Nat.lt_or_ge n (32 * (h + 8)) with hn | hn
  · obtain ⟨f, hf⟩ := Field.exists_index (show n / 32 - h < 8 by omega)
    have hcell : h + f.index = n / 32 := by omega
    have hfield := (h₁.header f).trans (h₂.header f).symm
    rw [zoneField_cell, zoneField_cell, hcell] at hfield
    rw [Mem.bit, Mem.bit, hfield]
  · obtain ⟨i, rfl⟩ := Nat.exists_eq_add_of_le hn
    rw [Zone.cells] at hlt
    rw [h₁.bits i (by omega), h₂.bits i (by omega)]

/-- A list of zones says what each bit of its cells is. -/
theorem ZonesAt.bit_eq {zs : List Zone} {n : Nat} : ∀ {h : Nat}, ZonesAt base m₁ h zs → ZonesAt base m₂ h zs → 32 * h ≤ n →
    n < 32 * (h + cellsOf zs) → m₁.bit base n = m₂.bit base n := by
  induction zs with
  | nil =>
    intro h _ _ hge hlt
    exact absurd hlt (Nat.not_lt.mpr hge)
  | cons z zs ih =>
    intro h h₁ h₂ hge hlt
    rw [cellsOf, ← Nat.add_assoc] at hlt
    rcases Nat.lt_or_ge n (32 * (h + z.cells)) with hn | hn
    · exact h₁.1.bit_eq h₂.1 hge hn
    · exact ih h₁.2 h₂.2 hn hlt

/-- A bit of a zone's bitmap and its counter are in its cells. -/
theorem sameOutside_block {n c j : Nat} {w v : BitVec 32} (hbit : c + 8 + j < n) :
    m.SameOutside base n (setZoneField (m.store (Mem.cell (Mem.cell base (c + 8)) j) w) (Mem.cell base c) .free v) := by
  have hfree := Field.free.index_lt
  rw [setZoneField_cell, Mem.cell, ← Mem.cell_add]
  exact ((Mem.SameOutside.refl m).store hbit w).store (by omega) v

end

section

variable {k : Kernel} {boot : Boot} {mbt : MultibootInfo} {es : List MmapEntry} {m m' : Mem}

/-- `pmm_alloc` writes to the structures only. -/
theorem sameOutside_alloc {zs : List Zone} (hz : ZonesAt k.kernelEnd m 0 zs) (hne : zs ≠ []) (hfit : Fits k.kernelEnd (cellsOf zs))
    (hhint : ∀ z ∈ zs, z.lastOffset = 0) {a : BitVec 32} (ha : Returns (pmmAlloc k m) (a, m')) :
    m.SameOutside k.kernelEnd (cellsOf zs) m' := by
  rcases (pmmAlloc_writes hz hne hfit hhint).of_returns ha with h | ⟨pre, z, suf, rfl, i, hi, -, h⟩
  · obtain ⟨-, rfl⟩ := Prod.mk.inj h
    exact Mem.SameOutside.refl m'
  · obtain ⟨-, rfl⟩ := Prod.mk.inj h
    have hl := z.length_le_bits
    rw [setBit_eq]
    refine sameOutside_block ?_
    rw [cellsOf_append, cellsOf, Zone.cells]
    omega

/-- So does `pmm_free` of an address in the first zone. -/
theorem sameOutside_free {z : Zone} {suf : List Zone} (hz : ZonesAt k.kernelEnd m 0 (z :: suf)) {a : BitVec 32}
    (hin : ¬(z.start > a ∧ a > z.end_)) (hi : (getOffset z.start a).toNat < z.length.toNat) (hf : Returns (pmmFree k m a) m') :
    m.SameOutside k.kernelEnd (cellsOf (z :: suf)) m' := by
  obtain rfl := hf.unique (pmmFree_writes hz.1 hin)
  have hl := z.length_le_bits
  rw [unsetBit_eq]
  refine sameOutside_block (c := 0) ?_
  rw [cellsOf, Zone.cells]
  omega

/-- A call of a client writes to the structures only. -/
theorem ClientStep.sameOutside {ok : BitVec 32 → BitVec 32 → BitVec 32 → Prop} {c c' : Client} (hmap : MemoryMap boot mbt es)
    (hp : Placed k es) (hok : ∀ start length a, ok start length a → ownedByZone start length a)
    (hc : (clientSystem k boot mbt ok).Reachable c) (h : ClientStep k ok c c') :
    c.mem.SameOutside k.kernelEnd (cellsOf (initialZones k es)) c'.mem := by
  obtain ⟨s, hs, hz, hheld⟩ := (client_simulation hmap hp (fun _ _ _ h => (hok _ _ _ h).2)).reachable hc
  have hcells := cellsOf_shape (zone_shapes hs)
  rw [← hcells]
  cases h with
  | alloc h => exact sameOutside_alloc hz (zone_ne hp hs) (zone_fits hp hs) (zone_hint hs) h
  | @free a m ha hfree h =>
    have hshaped := zone_shapes hs
    obtain ⟨_, z, suf, _, hzs, _⟩ := zone_head hp hs
    rw [hzs] at hz hshaped ⊢
    rw [hz.first .start, hz.first .length] at hfree
    have hi : (getOffset z.start a).toNat < z.length.toNat := (hok _ _ _ hfree).2
    exact sameOutside_free hz (hshaped.search hp (client_blocks hmap hp hc) hi) hi h

/-- A run of a client writes to the structures only. -/
theorem client_sameOutside {ok : BitVec 32 → BitVec 32 → BitVec 32 → Prop} {c₀ c : Client} (hmap : MemoryMap boot mbt es)
    (hp : Placed k es) (hok : ∀ start length a, ok start length a → ownedByZone start length a)
    (h₀ : (clientSystem k boot mbt ok).Reachable c₀) (h : Relation.ReflTransGen (clientSystem k boot mbt ok).step c₀ c) :
    c₀.mem.SameOutside k.kernelEnd (cellsOf (initialZones k es)) c.mem := by
  induction h with
  | refl => exact Mem.SameOutside.refl _
  | tail hsteps hstep ih => exact ih.trans (ClientStep.sameOutside hmap hp hok (h₀.steps hsteps) hstep)

/-- On a memory map of disjoint entries below 4 GiB, whose structures fit and on which no reservation changes the next zone's start: from
one state after `init_pmm`, two runs of a client that gives back only blocks of the first zone, each with its own calls in its own order,
have led to the same memory, word for word, when the client holds the same blocks after both. -/
theorem memory_determined {c₀ c₁ c₂ : Client} (hmap : MemoryMap boot mbt es) (hd : DisjointMap es) (hp : Placed k es)
    (hn : NoSpill k es) (h₀ : (clientSystem k boot mbt ownedByZone).Reachable c₀)
    (h₁ : Relation.ReflTransGen (clientSystem k boot mbt ownedByZone).step c₀ c₁)
    (h₂ : Relation.ReflTransGen (clientSystem k boot mbt ownedByZone).step c₀ c₂)
    (hheld : ∀ a, a ≠ 0 → (a ∈ c₁.held ↔ a ∈ c₂.held)) : c₁.mem = c₂.mem := by
  have ho := orderly_initialZones hd hn (client_blocks hmap hp h₀)
  obtain ⟨s₁, ts₁, hrep₁, hs₁, hts₁, -⟩ := client_tracked hmap hd hp hn (fun _ _ _ h => h) (h₀.steps h₁)
  obtain ⟨s₂, ts₂, hrep₂, hs₂, hts₂, -⟩ := client_tracked hmap hd hp hn (fun _ _ _ h => h) (h₀.steps h₂)
  have hout : ∀ a, a ∈ outOf s₁.held ↔ a ∈ outOf s₂.held := by
    intro a
    rw [mem_outOf, mem_outOf, ← hrep₁.2, ← hrep₂.2]
    exact and_congr_left (hheld a)
  have hzones := hts₁.zones_eq ho hts₂ hout
  have hz₁ := hrep₁.1
  rw [hzones] at hz₁
  refine (client_sameOutside hmap hp (fun _ _ _ h => h) h₀ h₁).ext (client_sameOutside hmap hp (fun _ _ _ h => h) h₀ h₂) ?_
  intro i hi
  rw [← cellsOf_shape (zone_shapes hs₂)] at hi
  exact hz₁.bit_eq hrep₂.1 (Nat.zero_le _) (by omega)

end

/-- The calls of a list are steps of a client. -/
theorem Client.steps_of_calls {k : Kernel} {ok : BitVec 32 → BitVec 32 → BitVec 32 → Prop}
    [∀ start length a, Decidable (ok start length a)] {n : Nat} {calls : List Call} {c₀ c : Client}
    (h : calls.foldlM (Client.call k ok n) c₀ = some c) : Relation.ReflTransGen (ClientStep k ok) c₀ c := by
  induction calls generalizing c₀ with
  | nil =>
    obtain rfl : c₀ = c := Option.some.inj h
    exact .refl
  | cons call calls ih =>
    rw [List.foldlM_cons] at h
    obtain ⟨c₁, h1, h2⟩ := Option.bind_eq_some_iff.mp h
    exact .head (Client.step_of_call h1) (ih h2)

/-- The second of two blocks is held after two runs, one longer than the other. -/
theorem memory_determined_twoBlocks : ∃ c₀ c₁ c₂ : Client, Relation.ReflTransGen (ClientStep smallKernel ownedByZone) c₀ c₁ ∧
    Relation.ReflTransGen (ClientStep smallKernel ownedByZone) c₀ c₂ ∧ c₁.held = [0x4800] ∧ c₂.held = [0x4800] ∧
    c₁.mem = c₂.mem := by
  obtain ⟨m, hm, hx⟩ := exists_init smallKernel (bootOf 0x9000 twoBlocks) (mapInfo 0x9000 twoBlocks) 40
    (fun m => ([.alloc, .alloc, .free 0x3800].foldlM (Client.call smallKernel ownedByZone 40) ⟨m, []⟩ |>.map Client.held,
      [.alloc, .free 0x3800, .alloc, .alloc, .free 0x3800].foldlM (Client.call smallKernel ownedByZone 40) ⟨m, []⟩
        |>.map Client.held)) (some [0x4800], some [0x4800]) (by decide)
  obtain ⟨hx₁, hx₂⟩ := Prod.mk.inj hx
  obtain ⟨c₁, hc₁, hheld₁⟩ := Option.map_eq_some_iff.mp hx₁
  obtain ⟨c₂, hc₂, hheld₂⟩ := Option.map_eq_some_iff.mp hx₂
  have h₁ := Client.steps_of_calls hc₁
  have h₂ := Client.steps_of_calls hc₂
  refine ⟨⟨m, []⟩, c₁, c₂, h₁, h₂, hheld₁, hheld₂, ?_⟩
  refine memory_determined twoBlocks_memoryMap twoBlocks_disjoint twoBlocks_placed twoBlocks_noSpill (.init ⟨rfl, _, hm⟩) h₁ h₂ ?_
  intro a _
  rw [hheld₁, hheld₂]

end LumOS
