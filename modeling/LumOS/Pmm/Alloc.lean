import LumOS.Pmm.Zone

/-!
# `pmm_alloc` and `pmm_free` on a list of zones

`AllocStep` says all that `pmm_alloc` can do to a list of zones whose searches start at offset 0: nothing when every free counter
is 0, nothing when the first zone with another counter is full, and otherwise take the first unused block of that zone. Of
`pmm_free` the lemma here is the one for an address in the first zone of the list.
-/

namespace LumOS

open Comp

section

variable {base : BitVec 32} {m m' : Mem} {h : Nat} {z : Zone} {next : BitVec 32}

/-! ## Writing to a zone in memory -/

/-- The free counter of a zone in memory is replaced. -/
theorem ZoneAt.setFree (hz : ZoneAt base m h z next) (hc : h + z.cells ≤ Mem.cells) (v : BitVec 32) :
    ZoneAt base (setZoneField m (Mem.cell base h) .free v) h (z.withFree v) next := by
  have h8 := z.eight_le_cells
  simp only [Zone.cells] at hc
  refine ⟨fun f => ?_, fun i hi => ?_⟩
  · rw [zoneField_setZoneField, hz.header f]
    cases f <;> rfl
  · change i < 32 * z.bitmapWords.toNat at hi
    rw [bit_setZoneField (by omega) (by omega) (by simp only [Field.index]; omega)]
    exact hz.bits i hi

/-- A range of bits that starts in the bitmap of a zone is set: the zone's blocks in it are used. What the range holds behind
the bitmap is not the zone's. -/
theorem ZoneAt.filled (hz : ZoneAt base m h z next) (hc : h + z.cells ≤ Mem.cells) {lo up : Nat}
    (hm : Filled base m m' (32 * (h + 8) + lo) (32 * (h + 8) + up) true) :
    ZoneAt base m' h (z.reserve (fun j => decide (lo ≤ j ∧ j < up))) next := by
  simp only [Zone.cells] at hc
  refine ⟨fun f => ?_, fun i hi => ?_⟩
  · have hf := f.index_lt
    rw [zoneField_cell, hm.load_cell (by omega) (by omega), ← zoneField_cell, hz.header f]
    cases f <;> rfl
  · change i < 32 * z.bitmapWords.toNat at hi
    rw [hm _ (by omega), hz.bits i hi]
    by_cases hr : lo ≤ i ∧ i < up
    · rw [if_pos (by omega)]
      simp [Zone.reserve, hr]
    · rw [if_neg (by omega)]
      simp [Zone.reserve, hr]

/-- One bit of a zone's bitmap is set. -/
theorem ZoneAt.setBit (hz : ZoneAt base m h z next) (hc : h + z.cells ≤ Mem.cells) {i : BitVec 32}
    (hi : i.toNat < 32 * z.bitmapWords.toNat) :
    ZoneAt base (LumOS.setBit m (Mem.cell base (h + 8)) i) h (z.reserve (fun j => decide (j = i.toNat))) next := by
  have hm : Filled base m (LumOS.setBit m (Mem.cell base (h + 8)) i) (32 * (h + 8) + i.toNat)
      (32 * (h + 8) + (i.toNat + 1)) true := by
    intro n hn
    simp only [Zone.cells] at hc
    rw [bit_setBit m i (by omega) hn]
    by_cases he : n = 32 * (h + 8) + i.toNat
    · rw [if_pos he, if_pos (by omega)]
    · rw [if_neg he, if_neg (by omega)]
  have hp : (fun j => decide (i.toNat ≤ j ∧ j < i.toNat + 1)) = fun j => decide (j = i.toNat) := by
    funext j
    rw [decide_eq_decide]
    omega
  rw [← hp]
  exact hz.filled hc hm

/-- One bit of a zone's bitmap is cleared. -/
theorem ZoneAt.unsetBit (hz : ZoneAt base m h z next) (hc : h + z.cells ≤ Mem.cells) {i : BitVec 32}
    (hi : i.toNat < z.length.toNat) :
    ZoneAt base (LumOS.unsetBit m (Mem.cell base (h + 8)) i) h (z.clear i.toNat hi) next := by
  have hl := z.length_le_bits
  simp only [Zone.cells] at hc
  have hbit : ∀ n < 32 * Mem.cells, (LumOS.unsetBit m (Mem.cell base (h + 8)) i).bit base n =
      if n = 32 * (h + 8) + i.toNat then false else m.bit base n := by
    intro n hn
    exact bit_unsetBit m i (by omega) hn
  refine ⟨fun f => ?_, fun j hj => ?_⟩
  · have hf := f.index_lt
    rw [zoneField_cell, Mem.load_cell_ext (m := m), ← zoneField_cell, hz.header f]
    · cases f <;> rfl
    · intro n h1 h2
      rw [hbit n (by omega), if_neg (by omega)]
  · change j < 32 * z.bitmapWords.toNat at hj
    rw [hbit _ (by omega), hz.bits j hj]
    by_cases he : j = i.toNat
    · rw [if_pos (by omega)]
      simp [Zone.clear, he]
    · rw [if_neg (by omega)]
      simp [Zone.clear, he]

end

/-! ## Searching a bitmap -/

section

variable {m : Mem} {bitmap length : BitVec 32}

/-- The word of an offset is all ones when its 32 bits are set. -/
theorem word_full_iff (i : BitVec 32) : m.load (bitmap + 4 * (i / word)) = 0xFFFFFFFF ↔
    ∀ t < 32, m.bit bitmap (32 * (i.toNat / 32) + t) = true := by
  rw [word_addr_zero]
  refine (eq_allOnes_iff _).trans (forall₂_congr fun t ht => ?_)
  have hd : (32 * (i.toNat / 32) + t) / 32 = i.toNat / 32 := by omega
  have hm : (32 * (i.toNat / 32) + t) % 32 = t := by omega
  rw [Mem.bit, hd, hm]

/-- A word from its first bit. -/
theorem word_full {i : BitVec 32} (hmod : i.toNat % 32 = 0) :
    m.load (bitmap + 4 * (i / word)) = 0xFFFFFFFF ↔ ∀ t < 32, m.bit bitmap (i.toNat + t) = true := by
  rw [word_full_iff, Nat.mul_div_cancel' (Nat.dvd_of_mod_eq_zero hmod)]

/-- The searches stay below the last word a bitmap could have: the length does not reach into it, or a bit before it is not set. -/
def ScanEnds (m : Mem) (bitmap length : BitVec 32) : Prop :=
  length.toNat ≤ 0xFFFFFFE0 ∨ ∃ n < 0xFFFFFFE0, m.bit bitmap n = false

/-- The searches do not go past the word before the last one. -/
theorem ScanEnds.lt (h : ScanEnds m bitmap length) {i : Nat} (hmod : i % 32 = 0) (hlt : i < length.toNat)
    (hset : ∀ j < i, m.bit bitmap j = true) : i < 0xFFFFFFE0 := by
  rcases h with hlen | ⟨n, hn, hbit⟩
  · omega
  · by_contra hge
    rw [hset n (by omega)] at hbit
    cases hbit

/-- The word scan of `pmm_alloc`, from offset 0: it ends at a word, all bits before it are set, and either it is past the length or the
word has a bit that is not set. -/
theorem scanWords_ensures (hends : ScanEnds m bitmap length) :
    Ensures (loop (fun i => m.load (bitmap + 4 * (i / word)) = 0xFFFFFFFF ∧ i < length) (fun i => pure (i + word)) 0)
      (fun i => i.toNat % 32 = 0 ∧ i.toNat ≤ length.toNat + 31 ∧ (∀ j < i.toNat, m.bit bitmap j = true) ∧
        (length ≤ i ∨ i < length ∧ ∃ t < 32, m.bit bitmap (i.toNat + t) = false)) := by
  refine Ensures.imp (ensures_loop
    (fun i => i.toNat % 32 = 0 ∧ i.toNat ≤ length.toNat + 31 ∧ ∀ j < i.toNat, m.bit bitmap j = true)
    (fun i => length.toNat + 32 - i.toNat) ?_ ⟨rfl, Nat.zero_le _, fun j hj => absurd hj (Nat.not_lt_zero j)⟩) ?_
  · rintro i ⟨hmod, _, hset⟩ hc
    obtain ⟨hfull, hlt⟩ := decide_eq_true_iff.mp hc
    rw [BitVec.lt_def] at hlt
    rw [word_full hmod] at hfull
    have hend := hends.lt hmod hlt hset
    have hs : (i + word).toNat = i.toNat + 32 := by
      simp only [word]
      bv_omega
    refine ensures_pure ⟨⟨by omega, by omega, fun j hj => ?_⟩, by omega⟩
    by_cases hj' : j < i.toNat
    · exact hset j hj'
    · have := hfull (j - i.toNat) (by omega)
      rwa [Nat.add_sub_cancel' (by omega)] at this
  · rintro i ⟨⟨hmod, hle, hset⟩, hc⟩
    refine ⟨hmod, hle, hset, ?_⟩
    by_cases hge : length ≤ i
    · exact Or.inl hge
    · have hlt : i < length := by bv_omega
      refine Or.inr ⟨hlt, ?_⟩
      rw [decide_eq_false_iff_not, word_full hmod] at hc
      by_contra hno
      refine hc ⟨fun t ht => ?_, hlt⟩
      by_contra hf
      exact hno ⟨t, ht, by simpa using hf⟩

/-- The bit scan of `pmm_alloc`, from the start of a word that has a bit that is not set: it ends at the first such bit. -/
theorem scanBits_ensures (hends : ScanEnds m bitmap length) {i : BitVec 32} (hmod : i.toNat % 32 = 0) (hlt : i < length) {t : Nat}
    (ht : t < 32) (hu : m.bit bitmap (i.toNat + t) = false) (hset : ∀ j < i.toNat, m.bit bitmap j = true) :
    Ensures (loop (fun j => j < i + 32 ∧ testBit m bitmap j = true) (fun j => pure (j + 1)) i)
      (fun j => j < i + 32 ∧ m.bit bitmap j.toNat = false ∧ ∀ l < j.toNat, m.bit bitmap l = true) := by
  rw [BitVec.lt_def] at hlt
  have hlast := hends.lt hmod hlt hset
  have hend : (i + 32).toNat = i.toNat + 32 := by bv_omega
  refine Ensures.imp (ensures_loop (fun j => i.toNat ≤ j.toNat ∧ j.toNat ≤ i.toNat + t ∧ ∀ l < j.toNat, m.bit bitmap l = true)
    (fun j => i.toNat + t - j.toNat) ?_ ⟨Nat.le_refl _, Nat.le_add_right _ _, hset⟩) ?_
  · rintro j ⟨h1, h2, h3⟩ hc
    obtain ⟨_, hbit⟩ := decide_eq_true_iff.mp hc
    rw [testBit_eq_bit] at hbit
    have hne : j.toNat ≠ i.toNat + t := by
      intro he
      rw [he, hu] at hbit
      cases hbit
    have hs : (j + 1).toNat = j.toNat + 1 := by bv_omega
    refine ensures_pure ⟨⟨by omega, by omega, fun l hl => ?_⟩, by omega⟩
    rcases Nat.lt_or_eq_of_le (Nat.le_of_lt_succ (hs ▸ hl)) with hl' | rfl
    · exact h3 l hl'
    · exact hbit
  · rintro j ⟨⟨h1, h2, h3⟩, hc⟩
    have hlt' : j < i + 32 := by
      rw [BitVec.lt_def, hend]
      omega
    rw [decide_eq_false_iff_not, testBit_eq_bit] at hc
    refine ⟨hlt', ?_, h3⟩
    by_contra hf
    exact hc ⟨hlt', by simpa using hf⟩

/-- The two scans of a padded bitmap, and what `pmm_alloc` does behind them: when all bits are set it gives up, and otherwise it goes on
with the first bit that is not set, which is the bit of a block. -/
theorem findBlock_ensures {β : Type} {n : Nat} {fail : β} {found : BitVec 32 → Comp β} {Q : β → Prop} (hends : ScanEnds m bitmap length)
    (hcovers : length.toNat ≤ 32 * n) (hpadded : ∀ i, length.toNat ≤ i → i < 32 * n → m.bit bitmap i = true)
    (hfull : (∀ i < 32 * n, m.bit bitmap i = true) → Q fail)
    (hblock : ∀ i : BitVec 32, i.toNat < length.toNat → m.bit bitmap i.toNat = false → (∀ j < i.toNat, m.bit bitmap j = true) →
      Ensures (found i) Q) :
    Ensures (do
      let i ← loop (fun i => m.load (bitmap + 4 * (i / word)) = 0xFFFFFFFF ∧ i < length) (fun i => pure (i + word)) 0
      if i ≥ length then return fail
      let j ← loop (fun j => j < i + 32 ∧ testBit m bitmap j = true) (fun j => pure (j + 1)) i
      if j ≥ i + 32 then return fail
      found j) Q := by
  refine Ensures.bind (scanWords_ensures hends) ?_
  rintro i ⟨hmod, _, hset, hi | ⟨hi, t, ht, hu⟩⟩
  · -- the bits before the length are set, and so are those behind it
    rw [if_pos hi]
    rw [BitVec.le_def] at hi
    refine ensures_pure (hfull (fun j hj => ?_))
    by_cases hjl : j < length.toNat
    · exact hset j (by omega)
    · exact hpadded j (by omega) hj
  · rw [if_neg (by bv_omega)]
    have hlast := hends.lt hmod hi hset
    refine Ensures.bind (scanBits_ensures hends hmod hi ht hu hset) ?_
    rintro j ⟨hj, hju, hbefore⟩
    rw [if_neg (by bv_omega)]
    have hjl : j.toNat < length.toNat := by
      by_contra hge
      rw [hpadded j.toNat (by omega) (by bv_omega)] at hju
      cases hju
    exact hblock j hjl hju hbefore

end

/-! ## `pmm_alloc` -/

/-- What `pmm_alloc` can do to a list of zones, and what it returns. -/
inductive AllocStep : List Zone → BitVec 32 → List Zone → Prop where
  /-- every counter is 0 -/
  | noZone {zs : List Zone} (hall : ∀ z ∈ zs, z.free = 0) : AllocStep zs 0 zs
  /-- the first zone with another counter has no unused block -/
  | noBlock {pre : List Zone} {z : Zone} {suf : List Zone} (hpre : ∀ y ∈ pre, y.free = 0) (hz : z.free ≠ 0)
      (hfull : ∀ j, z.used j = true) : AllocStep (pre ++ z :: suf) 0 (pre ++ z :: suf)
  /-- the first unused block of that zone is taken -/
  | block {pre : List Zone} {z : Zone} {suf : List Zone} {i : Nat} (hpre : ∀ y ∈ pre, y.free = 0) (hz : z.free ≠ 0)
      (hi : i < z.length.toNat) (hu : z.used i = false) (hleast : ∀ j < i, z.used j = true) :
      AllocStep (pre ++ z :: suf) (z.address i) (pre ++ z.take i :: suf)

/-- The bits of the bitmap of a zone in memory. -/
theorem ZoneAt.bitmap_bit {base : BitVec 32} {m : Mem} {h : Nat} {z : Zone} {next : BitVec 32} (hz : ZoneAt base m h z next) {i : Nat}
    (hi : i < 32 * z.bitmapWords.toNat) : m.bit (Mem.cell base (h + 8)) i = z.used i := by
  rw [Mem.bit_cell, hz.bits i hi]

section

variable {k : Kernel} {m : Mem} {zs : List Zone}

/-- The search for a zone in `pmm_alloc` passes zones whose counter is 0, and ends with `NULL` or at a zone with another counter. -/
theorem searchFree_ensures (hz : ZonesAt k.kernelEnd m 0 zs) (hne : zs ≠ []) (hfit : Fits k.kernelEnd (cellsOf zs)) :
    Ensures (loop (fun zone => zone ≠ 0 ∧ zoneField m zone .free = 0) (fun zone => pure (zoneField m zone .nextZone)) k.memoryZones)
      (fun ptr => (ptr = 0 ∧ ∀ z ∈ zs, z.free = 0) ∨
        ∃ pre z suf, zs = pre ++ z :: suf ∧ (∀ y ∈ pre, y.free = 0) ∧ z.free ≠ 0 ∧ ptr ≠ 0 ∧ ptr = Mem.cell k.kernelEnd (cellsOf pre) ∧
          ZoneAt k.kernelEnd m (cellsOf pre) z (ptrTo k.kernelEnd (cellsOf pre + z.cells) suf)) := by
  have hsearch := search_ensures hfit (fun zone => zoneField m zone .free = 0) (fun z => z.free = 0)
    (fun h z next hza => by rw [hza.header .free]; rfl) hz (Nat.le_of_eq (Nat.zero_add _))
  simp only [decide_eq_true_eq] at hsearch
  rw [k.memoryZones_eq hne]
  refine hsearch.imp ?_
  rintro ptr (⟨h0, hall⟩ | ⟨pre, z, suf, rfl, hpre, hfree, hptr⟩)
  · exact Or.inl ⟨h0, hall⟩
  · rw [Nat.zero_add] at hptr
    have hza := hz.middle
    rw [Nat.zero_add] at hza
    have h8 := z.eight_le_cells
    have hptr0 : ptr ≠ 0 := by
      rw [hptr]
      exact hfit.cell_ne_zero (by rw [cellsOf_append, cellsOf]; omega)
    exact Or.inr ⟨pre, z, suf, rfl, hpre, decide_eq_false_iff_not.mp hfree, hptr0, hptr, hza⟩

/-- What `pmm_alloc` does when it has found a block: it takes it. -/
theorem ZonesAt.take {pre suf : List Zone} {z : Zone} (hz : ZonesAt k.kernelEnd m 0 (pre ++ z :: suf))
    (hfit : Fits k.kernelEnd (cellsOf (pre ++ z :: suf))) {i : BitVec 32} (hi : i.toNat < z.length.toNat) :
    ZonesAt k.kernelEnd (setZoneField (setBit m (Mem.cell k.kernelEnd (cellsOf pre + 8)) i) (Mem.cell k.kernelEnd (cellsOf pre)) .free
      (zoneField (setBit m (Mem.cell k.kernelEnd (cellsOf pre + 8)) i) (Mem.cell k.kernelEnd (cellsOf pre)) .free - 1)) 0
      (pre ++ z.take i.toNat :: suf) := by
  have hlt := hfit.lt_cells
  have hl := z.length_le_bits
  rw [cellsOf_append, cellsOf] at hlt
  have hza := hz.middle
  rw [Nat.zero_add] at hza
  have hset := hza.setBit (by omega) (i := i) (by omega)
  have htake := hset.setFree (by simpa using by omega) (z.free - 1)
  rw [hset.header .free]
  refine ZonesAt.update (z.take_cells i.toNat) pre hz (by rw [Nat.zero_add]; exact htake) ?_
  intro n hn hn'
  simp only [Nat.zero_add, cellsOf_append, cellsOf] at hn hn'
  simp only [Zone.cells] at hn hn' hlt
  rw [bit_setZoneField (by omega) (by omega) (by simp only [Field.index]; omega), bit_setBit m i (by omega) (by omega),
    if_neg (by omega)]

/-- `pmm_alloc` returns, and what it returns and leaves is an `AllocStep` of the zones. -/
theorem pmmAlloc_ensures (k : Kernel) {m : Mem} {zs : List Zone} (hz : ZonesAt k.kernelEnd m 0 zs) (hne : zs ≠ [])
    (hfit : Fits k.kernelEnd (cellsOf zs)) (hhint : ∀ z ∈ zs, z.lastOffset = 0) :
    Ensures (pmmAlloc k m) (fun r => ∃ zs', AllocStep zs r.1 zs' ∧ ZonesAt k.kernelEnd r.2 0 zs') := by
  unfold pmmAlloc
  refine Ensures.bind (searchFree_ensures hz hne hfit) ?_
  rintro ptr (⟨rfl, hall⟩ | ⟨pre, z, suf, rfl, hpre, hfree, hptr, rfl, hza⟩)
  · exact ensures_pure ⟨zs, .noZone hall, hz⟩
  rw [if_neg hptr, hza.header .bitmap, hza.header .length, hza.header .lastOffset, Zone.header, Zone.header, Zone.header,
    hhint z (by simp)]
  have hl := z.length_le_bits
  refine findBlock_ensures (Or.inl (Nat.le_trans z.length_le (by decide))) hl ?_ ?_ ?_
  · intro i hle hi
    rw [hza.bitmap_bit hi, z.padded i hle]
  · intro hfull
    refine ⟨_, .noBlock hpre hfree (fun j => ?_), hz⟩
    by_cases hj : j < 32 * z.bitmapWords.toNat
    · rw [← hza.bitmap_bit hj, hfull j hj]
    · exact z.padded j (by omega)
  · intro i hi hu hbefore
    have htake := hz.take hfit hi
    have hstart := htake.middle.header .start
    rw [Nat.zero_add] at hstart
    have hstep : AllocStep (pre ++ z :: suf) (z.address i.toNat) (pre ++ z.take i.toNat :: suf) := by
      refine .block hpre hfree hi ?_ ?_
      · rw [← hza.bitmap_bit (by omega), hu]
      · intro j hj
        rw [← hza.bitmap_bit (by omega), hbefore j hj]
    rw [Zone.address_toNat] at hstep
    refine ensures_pure ⟨_, ?_, htake⟩
    change AllocStep _ (getAddress (zoneField _ _ .start) i) _
    rw [hstart]
    exact hstep

end

/-! ## `pmm_free` -/

/-- `pmm_free` of an address in a block of the first zone returns, and gives that block back. The search ends at the first zone
because the address is not both below the zone's start and above its end. -/
theorem pmmFree_ensures (k : Kernel) {m : Mem} {z : Zone} {suf : List Zone} (hz : ZonesAt k.kernelEnd m 0 (z :: suf))
    (hfit : Fits k.kernelEnd (cellsOf (z :: suf))) {addr : BitVec 32} (hin : ¬(z.start > addr ∧ addr > z.end_))
    (hi : (getOffset z.start addr).toNat < z.length.toNat) :
    Ensures (pmmFree k m addr) (fun m' => ZonesAt k.kernelEnd m' 0 (z.release _ hi :: suf)) := by
  have hza : ZoneAt k.kernelEnd m 0 z (ptrTo k.kernelEnd z.cells suf) := by simpa using hz.1
  have hne := k.memoryZones_ne_zero
  rw [k.memoryZones_cell] at hne
  have hlt := hfit.lt_cells
  rw [cellsOf] at hlt
  have hl := z.length_le_bits
  unfold pmmFree
  rw [k.memoryZones_cell]
  refine Ensures.bind ⟨_, returns_loop_exit ?_, rfl⟩ ?_
  · rw [decide_eq_false_iff_not, hza.header .start, hza.header .end_]
    rintro ⟨_, h⟩
    exact hin h
  rintro ptr rfl
  rw [if_neg hne, hza.header .start, hza.header .bitmap]
  have hunset := hza.unsetBit (by omega) hi
  have hrel := hunset.setFree (by simpa using by omega) (z.free + 1)
  have hcount : zoneField (unsetBit m (Mem.cell k.kernelEnd (0 + 8)) (getOffset z.start addr)) (Mem.cell k.kernelEnd 0) .free =
      z.free := hunset.header .free
  simp only [Zone.header]
  rw [hcount]
  refine ensures_pure (ZonesAt.update (z.release_cells _ hi) [] hz (by simpa [cellsOf, Zone.release] using hrel) ?_)
  intro n hn hn'
  simp only [List.nil_append, cellsOf, Zone.cells] at hn hn' hlt
  rw [bit_setZoneField (by omega) (by omega) (by simp only [Field.index]; omega), bit_unsetBit m _ (by omega) (by omega),
    if_neg (by omega)]

end LumOS
