import LumOS.Pmm.Calls

/-!
# The words of a bitmap that `pmm_alloc` accesses

`pmmAllocTraced` is `pmm_alloc` with the words of the bitmap that it reads and writes (`traces_pmmAlloc`). The word scan reads a word
before it tests the bound, so that it stays in the bitmap only because it stops before the bound: in a zone with an unused block
(`AllocReads`). `pmm_alloc` goes to a zone whose counter is not 0, and such a zone has an unused block in every run exactly when no zone has
a block used after `init_pmm` (`accesses_in_bitmap_iff`).
-/

namespace LumOS

open Comp

/-! ## The accesses -/

/-- An access to a word of a zone's bitmap. -/
structure WordAccess where
  zone : BitVec 32
  index : BitVec 32
  deriving DecidableEq

/-- The access to the word of a bit. -/
def bitAccess (zone i : BitVec 32) : WordAccess := ⟨zone, i / word⟩

/-- `pmm_alloc`, with its accesses to words of bitmaps. A scan reads a word in each turn; the word scan also reads the one it ends at, the
bit scan only if it does not end at `end_`. -/
def pmmAllocTraced (k : Kernel) (m : Mem) : Comp ((BitVec 32 × Mem) × List WordAccess) := do
  let zone ← loop (fun zone => zone ≠ 0 ∧ zoneField m zone .free = 0)
    (fun zone => pure (zoneField m zone .nextZone)) k.memoryZones
  if zone = 0 then return ((0, m), [])
  let bitmap := zoneField m zone .bitmap
  let (i, words) ← visits (fun i => m.load (bitmap + 4 * (i / word)) = 0xFFFFFFFF ∧ i < zoneField m zone .length)
    (fun i => pure (i + word)) (zoneField m zone .lastOffset)
  let scanned := words ++ [i]
  if i ≥ zoneField m zone .length then return ((0, m), scanned.map (bitAccess zone))
  let end_ := i + 32
  let (i, bits) ← visits (fun i => i < end_ ∧ testBit m bitmap i) (fun i => pure (i + 1)) i
  let scanned := scanned ++ bits ++ if i < end_ then [i] else []
  if i ≥ end_ then return ((0, m), scanned.map (bitAccess zone))
  let m := setBit m bitmap i
  let m := setZoneField m zone .free (zoneField m zone .free - 1)
  return ((getAddress (zoneField m zone .start) i, m), (scanned ++ [i]).map (bitAccess zone))

/-- With the accesses `pmm_alloc` does what it does without. -/
theorem traces_pmmAlloc (k : Kernel) (m : Mem) : Traces (pmmAlloc k m) (pmmAllocTraced k m) := by
  unfold pmmAlloc pmmAllocTraced
  refine .bind fun zone => .ite (traces_pure _ _) ?_
  refine .visits fun i words => .ite (traces_pure _ _) ?_
  exact .visits fun j bits => .ite (traces_pure _ _) (traces_pure _ _)

/-! ## The words of a list of zones -/

/-- The accesses of `pmm_alloc` on a list of zones. -/
inductive AllocReads (base : BitVec 32) : List Zone → List WordAccess → Prop where
  /-- every counter is 0 -/
  | noZone {zs : List Zone} (hall : ∀ z ∈ zs, z.free = 0) : AllocReads base zs []
  /-- the first zone with another counter has no unused block: the scan reads the word behind the blocks -/
  | noBlock {pre : List Zone} {z : Zone} {suf : List Zone} {accesses : List WordAccess} (hpre : ∀ y ∈ pre, y.free = 0)
      (hz : z.free ≠ 0) (hfull : ∀ j, z.used j = true) (hzone : ∀ acc ∈ accesses, acc.zone = Mem.cell base (cellsOf pre))
      (hlast : ∃ acc ∈ accesses, acc.index.toNat = (z.length.toNat + 31) / 32) : AllocReads base (pre ++ z :: suf) accesses
  /-- it has one: the scans stay in the words of the blocks -/
  | block {pre : List Zone} {z : Zone} {suf : List Zone} {accesses : List WordAccess} (hpre : ∀ y ∈ pre, y.free = 0)
      (hz : z.free ≠ 0) (hu : ∃ i < z.length.toNat, z.used i = false)
      (hzone : ∀ acc ∈ accesses, acc.zone = Mem.cell base (cellsOf pre))
      (hin : ∀ acc ∈ accesses, acc.index < z.bitmapWords) : AllocReads base (pre ++ z :: suf) accesses

section

variable {m : Mem} {bitmap length i j : BitVec 32} {vs : List (BitVec 32)}

/-- The word scan takes a turn from offsets below the length only. -/
theorem scanWords_turns (h : Visits (fun i => m.load (bitmap + 4 * (i / word)) = 0xFFFFFFFF ∧ i < length)
    (fun i => pure (i + word)) i vs j) : ∀ v ∈ vs, v < length := by
  intro v hv
  have hcond := ((h.invariant (fun _ => True) (fun _ _ _ _ _ => trivial) trivial).1 v hv).2
  exact (decide_eq_true_iff.mp hcond).2

/-- The bit scan stays in the word it starts in. -/
theorem scanBits_turns (hmod : i.toNat % 32 = 0) (hi : i.toNat + 32 < 2 ^ 32)
    (h : Visits (fun j => j < i + 32 ∧ testBit m bitmap j = true) (fun j => pure (j + 1)) i vs j) :
    (∀ v ∈ vs, v.toNat / 32 = i.toNat / 32) ∧ (j < i + 32 → j.toNat / 32 = i.toNat / 32) := by
  have hend : (i + 32).toNat = i.toNat + 32 := by bv_omega
  have hinv := h.invariant (fun j => i.toNat ≤ j.toNat) ?_ (Nat.le_refl _)
  · refine ⟨fun v hv => ?_, fun hj => ?_⟩
    · obtain ⟨hle, hcond⟩ := hinv.1 v hv
      have hlt := (decide_eq_true_iff.mp hcond).1
      rw [BitVec.lt_def, hend] at hlt
      omega
    · have hle := hinv.2.1
      rw [BitVec.lt_def, hend] at hj
      omega
  · intro v u hle hcond hu
    have hlt := (decide_eq_true_iff.mp hcond).1
    rw [← returns_pure.mp hu]
    bv_omega

/-- The bits that the scans look at, and the one that is set, are in the first `n` words when the length is. -/
theorem scanned_words {words bits : List (BitVec 32)} {n : Nat} (hlen : length.toNat ≤ 0xFFFFFFE0) (hn : length.toNat ≤ 32 * n)
    (hwords : Visits (fun i => m.load (bitmap + 4 * (i / word)) = 0xFFFFFFFF ∧ i < length) (fun i => pure (i + word)) 0 words i)
    (hbits : Visits (fun j => j < i + 32 ∧ testBit m bitmap j = true) (fun j => pure (j + 1)) i bits j)
    (hmod : i.toNat % 32 = 0) (hi : i < length) (hj : j < i + 32) :
    ∀ v ∈ words ++ [i] ++ bits ++ [j] ++ [j], v.toNat / 32 < n := by
  have hturns := scanWords_turns hwords
  rw [BitVec.lt_def] at hi
  obtain ⟨hword, hlast⟩ := scanBits_turns hmod (by omega) hbits
  have hstart : i.toNat / 32 < n := by omega
  intro v hv
  simp only [List.mem_append, List.mem_singleton] at hv
  rcases hv with (((hv | rfl) | hv) | rfl) | rfl
  · have hlt := hturns v hv
    rw [BitVec.lt_def] at hlt
    omega
  · exact hstart
  · rw [hword v hv]
    exact hstart
  · rw [hlast hj]
    exact hstart
  · rw [hlast hj]
    exact hstart

end

section

variable {k : Kernel} {m : Mem} {zs : List Zone} {r : BitVec 32 × Mem} {accesses : List WordAccess}

/-- The accesses of `pmm_alloc` are `AllocReads` of the zones. -/
theorem pmmAllocTraced_reads (hz : ZonesAt k.kernelEnd m 0 zs) (hne : zs ≠ []) (hfit : Fits k.kernelEnd (cellsOf zs))
    (hhint : ∀ z ∈ zs, z.lastOffset = 0) (h : Returns (pmmAllocTraced k m) (r, accesses)) :
    AllocReads k.kernelEnd zs accesses := by
  unfold pmmAllocTraced at h
  obtain ⟨ptr, hptr, h⟩ := returns_bind.mp h
  rcases (searchFree_ensures hz hne hfit).of_returns hptr with ⟨rfl, hall⟩ | ⟨pre, z, suf, rfl, hpre, hfree, hptr, rfl, hza⟩
  · rw [if_pos rfl] at h
    obtain ⟨_, rfl⟩ := Prod.mk.inj (returns_pure.mp h)
    exact .noZone hall
  rw [if_neg hptr, hza.header .bitmap, hza.header .length, hza.header .lastOffset, Zone.header, Zone.header, Zone.header,
    hhint z (by simp)] at h
  have hlen : z.length.toNat ≤ 0xFFFFFFE0 := Nat.le_trans z.length_le (by decide)
  have hl := z.length_le_bits
  have hzone : ∀ is : List (BitVec 32), ∀ acc ∈ is.map (bitAccess (Mem.cell k.kernelEnd (cellsOf pre))),
      acc.zone = Mem.cell k.kernelEnd (cellsOf pre) := by
    intro is acc hacc
    obtain ⟨_, _, rfl⟩ := List.mem_map.mp hacc
    rfl
  obtain ⟨⟨i, words⟩, hwords, h⟩ := returns_bind.mp h
  have hv := returns_visits.mp hwords
  obtain ⟨hmod, hle, hset, hexit⟩ := (scanWords_ensures (Or.inl hlen)).of_returns hv.returns
  by_cases hge : i ≥ z.length
  · -- all blocks are used, and the scan has read the word behind them
    simp only [if_pos hge] at h
    obtain ⟨_, rfl⟩ := Prod.mk.inj (returns_pure.mp h)
    rw [ge_iff_le, BitVec.le_def] at hge
    refine .noBlock hpre hfree ?_ (hzone _) ⟨_, List.mem_map_of_mem (List.mem_append_right _ List.mem_cons_self), ?_⟩
    · intro j
      by_cases hj : j < z.length.toNat
      · rw [← hza.bitmap_bit (by omega)]
        exact hset j (by omega)
      · exact z.padded j (by omega)
    · rw [bitAccess, toNat_div_word]
      omega
  · simp only [if_neg hge] at h
    rcases hexit with hi | ⟨hi, t, ht, hu⟩
    · exact absurd hi hge
    obtain ⟨⟨j, bits⟩, hbitv, h⟩ := returns_bind.mp h
    have hvb := returns_visits.mp hbitv
    obtain ⟨hj, hju, _⟩ := (scanBits_ensures (Or.inl hlen) hmod hi ht hu hset).of_returns hvb.returns
    have hscanned := scanned_words hlen hl hv hvb hmod hi hj
    have hnge : ¬j ≥ i + 32 := by bv_omega
    simp only [if_neg hnge, if_pos hj] at h
    obtain ⟨_, rfl⟩ := Prod.mk.inj (returns_pure.mp h)
    have hjw : j.toNat < 32 * z.bitmapWords.toNat := by
      have := hscanned j (by simp)
      omega
    rw [hza.bitmap_bit hjw] at hju
    have hjl : j.toNat < z.length.toNat := by
      by_contra hge'
      rw [z.padded j.toNat (by omega)] at hju
      cases hju
    refine .block hpre hfree ⟨j.toNat, hjl, hju⟩ (hzone _) ?_
    intro acc hacc
    obtain ⟨v, hv, rfl⟩ := List.mem_map.mp hacc
    rw [bitAccess, BitVec.lt_def, toNat_div_word]
    exact hscanned v hv

end

/-! ## The accesses of a run -/

section

variable {k : Kernel} {boot : Boot} {mbt : MultibootInfo} {es : List MmapEntry} {ok : Mem → BitVec 32 → Prop}
variable {m : Mem} {zs : List Zone}

/-- The bitmaps have no word without a block. -/
theorem Shaped.words (h : Shaped k es zs) {z : Zone} (hz : z ∈ zs) : z.bitmapWords.toNat = (z.length.toNat + 31) / 32 := by
  obtain ⟨e, _, b, hshape⟩ := h.entry hz
  have hlength : z.length = e.lengthLow / blockSize :=
    (congrArg Shape.length hshape).trans (by cases b <;> rfl)
  have hwords : z.bitmapWords = e.zone.bitmapWords :=
    (congrArg Shape.bitmapWords hshape).trans (by cases b <;> rfl)
  rw [hwords, hlength, e.toNat_length]
  exact e.toNat_bitmapWords

/-- `pmm_alloc` returns, its accesses are `AllocReads` of the zones, and what it does to them is an `AllocStep`. -/
theorem HasZones.alloc_ensures (hp : Placed k es) (hz : HasZones k es m zs) :
    Ensures (pmmAllocTraced k m) (fun p => AllocReads k.kernelEnd zs p.2 ∧ Returns (pmmAlloc k m) p.1 ∧
      ∃ zs', AllocStep zs p.1.1 zs' ∧ HasZones k es p.1.2 zs') := by
  obtain ⟨r, hr, zs', hstep, hz'⟩ := hz.shaped.pmmAlloc_ensures hp hz.inMem
  obtain ⟨accesses, ha⟩ := (traces_pmmAlloc k m r).mp hr
  exact ⟨(r, accesses), ha, pmmAllocTraced_reads hz.inMem (hz.shaped.ne hp) (hz.shaped.fits hp) hz.shaped.hint ha, hr, zs', hstep,
    hz.shaped.alloc hstep, hz'⟩

/-- The first zone whose counter is not 0. -/
theorem find_first {pre suf : List Zone} {z : Zone} (hpre : ∀ y ∈ pre, y.free = 0) (hz : z.free ≠ 0) :
    (pre ++ z :: suf).find? (fun z => z.free ≠ 0) = some z :=
  List.find?_eq_some_iff_append.mpr ⟨by simpa using hz, pre, suf, rfl, fun y hy => by simpa using hpre y hy⟩

/-- When the first zone whose counter is not 0 has an unused block, `pmm_alloc` leaves one unused block less. -/
theorem AllocStep.unset_lt {zs' pre suf : List Zone} {z : Zone} {a : BitVec 32} (h : AllocStep zs a zs')
    (hsplit : zs = pre ++ z :: suf) (hpre : ∀ y ∈ pre, y.free = 0) (hz : z.free ≠ 0) (hu : ∃ i < z.length.toNat, z.used i = false) :
    (zs'.map Zone.unset).sum < (zs.map Zone.unset).sum := by
  cases h with
  | noZone hall =>
    rw [hsplit] at hall
    exact absurd (hall z (by simp)) hz
  | noBlock hpre' hz' hfull =>
    have hsame := (find_first hpre' hz').symm.trans (hsplit ▸ find_first hpre hz)
    obtain ⟨i, _, hi⟩ := hu
    rw [← Option.some.inj hsame, hfull i] at hi
    cases hi
  | @block pre' z' suf' i _ _ hi hu' _ =>
    have hunset := z'.unset_take hi hu'
    simp only [List.map_append, List.map_cons, List.sum_append, List.sum_cons]
    omega

/-- All accesses of `pmm_alloc` are to words of the bitmaps. -/
def AccessesInBitmap (k : Kernel) (m : Mem) : Prop :=
  Ensures (pmmAllocTraced k m) (fun p => ∀ acc ∈ p.2, acc.index < zoneField m acc.zone .bitmapWords)

/-- In a run without an access behind a bitmap no counter is too high: calls of `pmm_alloc` would use up the unused blocks, and then the
scan would read the word behind the bitmap of a zone with such a counter. The induction is on the number of unused blocks. -/
theorem surplus_of_accesses (hp : Placed k es)
    (hall : ∀ m, (callSystem k boot mbt ok).Reachable m → AccessesInBitmap k m) :
    ∀ n m zs, (callSystem k boot mbt ok).Reachable m → HasZones k es m zs → (zs.map Zone.unset).sum = n →
      ∀ s ∈ zs.map Zone.surplus, s ≤ 0 := by
  intro n
  induction n using Nat.strongRecOn with
  | _ n ih =>
    intro m zs hm hz hn
    obtain ⟨⟨r, accesses⟩, ht, hreads, hr, zs', hstep, hz'⟩ := hz.alloc_ensures hp
    have hin := (hall m hm).of_returns ht
    generalize hsplit : zs = ys at hreads
    cases hreads with
    | noZone hzero =>
      rw [List.forall_mem_map]
      intro z hmem
      have h0 : (0 : BitVec 32).toNat = 0 := rfl
      rw [Zone.surplus, hzero z (hsplit ▸ hmem), h0]
      omega
    | @noBlock pre z suf _ hpre hzf hfull hzone hlast =>
      obtain ⟨acc, hacc, hindex⟩ := hlast
      have hlt := hin acc hacc
      have hza := (hsplit ▸ hz.inMem).middle
      rw [Nat.zero_add] at hza
      rw [hzone acc hacc, hza.header .bitmapWords, Zone.header, BitVec.lt_def, hindex,
        hz.shaped.words (z := z) (by rw [hsplit]; simp)] at hlt
      exact absurd hlt (Nat.lt_irrefl _)
    | block hpre hzf hu hzone _ =>
      have hlt := hstep.unset_lt hsplit hpre hzf hu
      rw [← hsplit, ← hstep.surplus]
      exact ih _ (hn ▸ hlt) r.2 zs' (hm.step (.alloc hr)) hz' rfl

/-- Every counter is right in a run in which only used blocks of the first zone are given back, if no zone has a block used after
`init_pmm`. -/
theorem balanced_run (hmap : MemoryMap boot mbt es) (hp : Placed k es) (hok : ∀ m a, ok m a → UsedInFirst k m a)
    (hb : ∀ e ∈ usable es, 1 ≤ e.blocks) (hclear : ∀ p ∈ marks k es, ClearAtInit k es p)
    (hm : (callSystem k boot mbt ok).Reachable m) : ∃ zs, HasZones k es m zs ∧ ∀ s ∈ zs.map Zone.surplus, s = 0 := by
  refine hm.invariant (fun m => ∃ zs, HasZones k es m zs ∧ ∀ s ∈ zs.map Zone.surplus, s = 0) ?_ ?_
  · rintro m ⟨m₀, hr⟩
    refine ⟨_, hasZones_init hmap hp hr, ?_⟩
    rw [List.map_map, List.forall_mem_map]
    intro p hmem
    exact (surplus_builtFrom hp (hb p.1 (marks_usable hmem))).2.mpr (hclear p hmem)
  · rintro m m' hm ⟨zs, hz, h0⟩ hstep
    obtain ⟨zs', hcall, hz'⟩ := hz.step hp hb (fun m a h => (hok m a h).1) hstep
    refine ⟨zs', hz', ?_⟩
    cases hcall with
    | alloc h =>
      rw [h.surplus]
      exact h0
    | @free z suf a ha hi =>
      rw [List.map_cons, List.forall_mem_cons] at h0 ⊢
      have hused := (hz.usedInFirst_iff.mp (hok m a ha)).2
      exact ⟨(Zone.surplus_release hi hused (Zone.free_lt h0.1)).trans h0.1, h0.2⟩

/-- In every run of calls that give back used blocks of the first zone, every word of a bitmap that the next `pmm_alloc` accesses is in
the bitmap exactly when no zone has a block used after `init_pmm`. -/
theorem accesses_in_bitmap_iff (hmap : MemoryMap boot mbt es) (hp : Placed k es) (hr : ∃ m₀ m, Returns (initPmm k boot mbt m₀) m)
    (hok : ∀ m a, ok m a → UsedInFirst k m a) :
    (∀ m, (callSystem k boot mbt ok).Reachable m → AccessesInBitmap k m) ↔ ∀ p ∈ marks k es, ClearAtInit k es p := by
  obtain ⟨m₀, m₁, hr⟩ := hr
  have hb := initPmm_blocks hmap hr
  constructor
  · intro hall p hmem
    have hz := hasZones_init hmap hp hr
    have hle := surplus_of_accesses hp hall _ m₁ _ (.init ⟨m₀, hr⟩) hz rfl
    rw [List.map_map, List.forall_mem_map] at hle
    obtain ⟨hge, hiff⟩ := surplus_builtFrom hp (hb p.1 (marks_usable hmem))
    exact hiff.mp (Int.le_antisymm (hle p hmem) hge)
  · intro hclear m hm
    obtain ⟨zs, hz, h0⟩ := balanced_run hmap hp hok hb hclear hm
    refine (hz.alloc_ensures hp).imp ?_
    rintro ⟨r, accesses⟩ ⟨hreads, _⟩ acc hacc
    generalize hsplit : zs = ys at hreads
    cases hreads with
    | noZone _ => cases hacc
    | @noBlock pre z suf _ _ hzf hfull _ _ =>
      rw [List.forall_mem_map] at h0
      have hsurplus := h0 z (by rw [hsplit]; simp)
      rw [Zone.surplus, z.unset_eq_zero.mpr (fun i _ => hfull i)] at hsurplus
      refine absurd (BitVec.eq_of_toNat_eq ?_) hzf
      have hzero : (0 : BitVec 32).toNat = 0 := rfl
      omega
    | @block pre z suf _ _ _ _ hzone hin =>
      have hza := (hsplit ▸ hz.inMem).middle
      rw [Nat.zero_add] at hza
      rw [hzone acc hacc, hza.header .bitmapWords]
      exact hin acc hacc

end

/-- The block of the first zone of `twoZones` has been given out, given back and given out again; `pmm_alloc` goes to the second zone. -/
theorem accesses_in_bitmap_twoZones : ∃ m r accesses acc,
    (callSystem smallKernel (bootOf 0x9000 twoZones) (mapInfo 0x9000 twoZones) (UsedInFirst smallKernel)).Reachable m ∧
      Returns (pmmAllocTraced smallKernel m) (r, accesses) ∧ acc ∈ accesses ∧ acc.zone = 0xC0102024 ∧
      acc.index < zoneField m acc.zone .bitmapWords := by
  obtain ⟨m, hm, hx⟩ := exists_calls smallKernel (UsedInFirst smallKernel) (bootOf 0x9000 twoZones) (mapInfo 0x9000 twoZones) 40
    [.alloc, .free 0x1000, .alloc] (fun m => ((pmmAllocTraced smallKernel m).run 40).map Prod.snd)
    (some [⟨0xC0102024, 0⟩, ⟨0xC0102024, 0⟩, ⟨0xC0102024, 0⟩]) (by decide)
  obtain ⟨⟨r, accesses⟩, ha, rfl⟩ := exists_returns_of_run hx
  obtain ⟨m₁, hr, _⟩ := exists_init smallKernel (bootOf 0x9000 twoZones) (mapInfo 0x9000 twoZones) 40
    (fun _ => ()) () (by decide)
  have hin := (accesses_in_bitmap_iff twoZones_memoryMap twoZones_placed ⟨_, m₁, hr⟩ (fun _ _ h => h)).mpr (by decide) m hm
  exact ⟨m, r, _, ⟨0xC0102024, 0⟩, hm, ha, List.mem_cons_self, rfl, hin.of_returns ha _ List.mem_cons_self⟩

/-- The first `pmm_alloc` on `nullZone` reads word 1 of the bitmap of one word: the zone's one block is the one at address 0, and its
counter is 1. -/
theorem access_behind_bitmap : MemoryMap (bootOf 0x9000 nullZone) (mapInfo 0x9000 nullZone) nullZone ∧ DisjointMap nullZone ∧
    ∃ m r accesses acc,
      (clientSystem smallKernel (bootOf 0x9000 nullZone) (mapInfo 0x9000 nullZone) notNull).Reachable ⟨m, []⟩ ∧
      Returns (pmmAllocTraced smallKernel m) (r, accesses) ∧ acc ∈ accesses ∧ acc.zone = smallKernel.memoryZones ∧ acc.index = 1 ∧
      zoneField m acc.zone .bitmapWords = 1 := by
  obtain ⟨m, hm, hx⟩ := exists_init smallKernel (bootOf 0x9000 nullZone) (mapInfo 0x9000 nullZone) 40
    (fun m => (((pmmAllocTraced smallKernel m).run 40).map Prod.snd, zoneField m smallKernel.memoryZones .bitmapWords))
    ((some [⟨0xC0102000, 0⟩, ⟨0xC0102000, 1⟩], 1)) (by decide)
  obtain ⟨hrun, hwords⟩ := Prod.mk.inj hx
  obtain ⟨⟨r, accesses⟩, ha, rfl⟩ := exists_returns_of_run hrun
  exact ⟨nullZone_memoryMap, nullZone_disjoint, m, r, _, ⟨0xC0102000, 1⟩, .init ⟨rfl, _, hm⟩, ha,
    List.mem_cons_of_mem _ List.mem_cons_self, rfl, rfl, hwords⟩

end LumOS
