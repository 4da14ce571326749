import LumOS.Pmm.FirstFit

/-!
# The search from `lastOffset`

`pmm_alloc` looks for a word with an unset bit from the offset `lastOffset` of the zone on, in steps of a word, and then for the bit from
where it has stopped; `pmm_alloc2` starts at offset 0. Both are `allocFrom`. The window of 32 bits that `pmm_alloc` looks at begins in its
word at the place of `lastOffset`, so that a bit at a lower place is passed over (`searchZone_passes`): where every block below
`lastOffset` is used, the two agree exactly when the first unset bit is not at a lower place (`alloc_agrees_iff`). At the end of a bitmap
the window goes on behind it.
-/

namespace LumOS

open Comp

/-- What the functions do with the block that they have found in a zone. -/
def takeBlock (m : Mem) (zone i : BitVec 32) : BitVec 32 × Mem :=
  let m := setBit m (zoneField m zone .bitmap) i
  let m := setZoneField m zone .free (zoneField m zone .free - 1)
  (getAddress (zoneField m zone .start) i, m)

/-- The search for a block of a zone that starts at the offset `s`. -/
def searchZone (m : Mem) (zone s : BitVec 32) : Comp (BitVec 32 × Mem) := do
  let bitmap := zoneField m zone .bitmap
  let i ← loop (fun i => m.load (bitmap + 4 * (i / word)) = 0xFFFFFFFF ∧ i < zoneField m zone .length) (fun i => pure (i + word)) s
  if i ≥ zoneField m zone .length then return (0, m)
  let end_ := i + 32
  let i ← loop (fun i => i < end_ ∧ testBit m bitmap i) (fun i => pure (i + 1)) i
  if i ≥ end_ then return (0, m)
  return takeBlock m zone i

/-- A search for a block that starts at `start zone` in the first zone with a counter that is not 0. -/
def allocFrom (k : Kernel) (m : Mem) (start : BitVec 32 → BitVec 32) : Comp (BitVec 32 × Mem) := do
  let zone ← loop (fun zone => zone ≠ 0 ∧ zoneField m zone .free = 0)
    (fun zone => pure (zoneField m zone .nextZone)) k.memoryZones
  if zone = 0 then return (0, m)
  searchZone m zone (start zone)

theorem pmmAlloc_eq (k : Kernel) (m : Mem) : pmmAlloc k m = allocFrom k m (fun zone => zoneField m zone .lastOffset) := rfl

theorem pmmAlloc2_eq (k : Kernel) (m : Mem) : pmmAlloc2 k m = allocFrom k m (fun _ => 0) := rfl

/-- The search for a block starts at an offset in the zone and every block below it is used; the bitmap has a bit for each block, and the
bits that stand for no block are set. -/
structure HintedZone (m : Mem) (q : BitVec 32) : Prop where
  hint_le : (zoneField m q .lastOffset).toNat ≤ (zoneField m q .length).toNat
  below : ∀ i < (zoneField m q .lastOffset).toNat, zoneBit m q i = true
  covers : (zoneField m q .length).toNat ≤ 32 * (zoneField m q .bitmapWords).toNat
  padding : ∀ i, (zoneField m q .length).toNat ≤ i → i < 32 * (zoneField m q .bitmapWords).toNat → zoneBit m q i = true

/-- The two functions return the same address and leave the same bitmaps and counters. -/
def SameAlloc (k : Kernel) (m : Mem) (qs : List (BitVec 32)) : Prop :=
  ∃ p m₁ m₂, Returns (pmmAlloc k m) (p, m₁) ∧ Returns (pmmAlloc2 k m) (p, m₂) ∧
    ∀ q ∈ qs, zoneField m₁ q .free = zoneField m₂ q .free ∧
      ∀ i < 32 * (zoneField m q .bitmapWords).toNat, zoneBit m₁ q i = zoneBit m₂ q i

/-- The hint does no harm in a zone: no block is unused, and the zone is not so long that the search does not end; or the place in its
word of the first unused block is not below that of the hint. (The last word there could be is not searched.) -/
def HintFits (m : Mem) (z : BitVec 32) : Prop :=
  (clearBits m z = ∅ ∧ (zoneField m z .length).toNat ≤ 0xFFFFFFE0) ∨
    ∃ f, IsLeast (clearBits m z) f ∧ (0xFFFFFFE0 ≤ f ∨ (zoneField m z .lastOffset).toNat % 32 ≤ f % 32)

/-! ## The scans -/

section

variable {m : Mem} {bitmap length s i : BitVec 32} {f : Nat}

/-- The word scan stops at the word of the first unset bit, at the place where it has started. -/
theorem scanWords_from (hf : f < length.toNat) (hu : m.bit bitmap f = false) (hset : ∀ j < f, m.bit bitmap j = true)
    (hs : s.toNat ≤ f) :
    Ensures (loop (fun i => m.load (bitmap + 4 * (i / word)) = 0xFFFFFFFF ∧ i < length) (fun i => pure (i + word)) s)
      (fun i => i.toNat = 32 * (f / 32) + s.toNat % 32) := by
  have hlength := length.isLt
  have hword : word.toNat = 32 := rfl
  refine (ensures_loop (fun i => i.toNat % 32 = s.toNat % 32 ∧ i.toNat ≤ 32 * (f / 32) + s.toNat % 32)
    (fun i => 32 * (f / 32) + s.toNat % 32 - i.toNat) ?_ ⟨rfl, by omega⟩).imp ?_
  · rintro i ⟨hmod, hle⟩ hc
    obtain ⟨hfull, -⟩ := decide_eq_true_iff.mp hc
    -- the word has an unset bit if it is the one of `f`
    have hne : i.toNat / 32 ≠ f / 32 := by
      intro he
      have hbit := (word_full_iff i).mp hfull (f % 32) (Nat.mod_lt f (by decide))
      rw [he, Nat.div_add_mod, hu] at hbit
      cases hbit
    have hnext : (i + word).toNat = i.toNat + 32 := by bv_omega
    exact ensures_pure ⟨⟨by omega, by omega⟩, by omega⟩
  · rintro i ⟨⟨hmod, hle⟩, hc⟩
    by_contra hne
    have hlt : i.toNat / 32 < f / 32 := by omega
    refine absurd ⟨(word_full_iff i).mpr (fun t ht => hset _ (by omega)), ?_⟩ (decide_eq_false_iff_not.mp hc)
    rw [BitVec.lt_def]
    omega

/-- The word scan of a bitmap without an unset bit passes the length. -/
theorem scanWords_full {n : Nat} (hset : ∀ j < 32 * n, m.bit bitmap j = true) (hcovers : length.toNat ≤ 32 * n)
    (hlength : length.toNat ≤ 0xFFFFFFE0) :
    Ensures (loop (fun i => m.load (bitmap + 4 * (i / word)) = 0xFFFFFFFF ∧ i < length) (fun i => pure (i + word)) s)
      (fun i => i ≥ length) := by
  have hword : word.toNat = 32 := rfl
  refine (ensures_loop (fun _ => True) (fun i => length.toNat + 32 - i.toNat) ?_ trivial).imp ?_
  · rintro i - hc
    obtain ⟨-, hlt⟩ := decide_eq_true_iff.mp hc
    have hnext : (i + word).toNat = i.toNat + 32 := by bv_omega
    rw [BitVec.lt_def] at hlt
    exact ensures_pure ⟨trivial, by omega⟩
  · rintro i ⟨-, hc⟩
    by_contra hlt
    have hi : i < length := by bv_omega
    rw [BitVec.lt_def] at hi
    exact absurd ⟨(word_full_iff i).mpr (fun t ht => hset _ (by omega)), hi⟩ (decide_eq_false_iff_not.mp hc)

/-- The bit scan from an offset that is not behind the first unset bit finds it. -/
theorem scanBits_least (hu : m.bit bitmap f = false) (hset : ∀ j < f, m.bit bitmap j = true) (hi : i.toNat ≤ f)
    (hlt : f < i.toNat + 32) (hend : i.toNat + 32 < 2 ^ 32) :
    Ensures (loop (fun j => j < i + 32 ∧ testBit m bitmap j = true) (fun j => pure (j + 1)) i) (fun j => j.toNat = f) := by
  have hadd : (i + 32).toNat = i.toNat + 32 := by bv_omega
  refine (ensures_loop (fun j => j.toNat ≤ f) (fun j => f - j.toNat) ?_ hi).imp ?_
  · intro j hj hc
    obtain ⟨-, hbit⟩ := decide_eq_true_iff.mp hc
    have hne : j.toNat ≠ f := by
      intro he
      rw [testBit_eq_bit, he, hu] at hbit
      cases hbit
    have hnext : (j + 1).toNat = j.toNat + 1 := by bv_omega
    exact ensures_pure ⟨by omega, by omega⟩
  · rintro j ⟨hj, hc⟩
    by_contra hne
    refine absurd ⟨?_, ?_⟩ (decide_eq_false_iff_not.mp hc)
    · rw [BitVec.lt_def, hadd]
      omega
    · rw [testBit_eq_bit]
      exact hset _ (by omega)

/-- The bit scan stays in its window. -/
theorem scanBits_window (hend : i.toNat + 32 < 2 ^ 32) :
    Ensures (loop (fun j => j < i + 32 ∧ testBit m bitmap j = true) (fun j => pure (j + 1)) i)
      (fun j => i.toNat ≤ j.toNat ∧ j.toNat ≤ i.toNat + 32) := by
  have hadd : (i + 32).toNat = i.toNat + 32 := by bv_omega
  refine (ensures_loop (fun j => i.toNat ≤ j.toNat ∧ j.toNat ≤ i.toNat + 32) (fun j => i.toNat + 32 - j.toNat) ?_
    ⟨Nat.le_refl _, Nat.le_add_right _ _⟩).imp (fun j h => h.1)
  rintro j ⟨hle, hle'⟩ hc
  obtain ⟨hlt, -⟩ := decide_eq_true_iff.mp hc
  rw [BitVec.lt_def, hadd] at hlt
  have hnext : (j + 1).toNat = j.toNat + 1 := by bv_omega
  exact ensures_pure ⟨⟨by omega, by omega⟩, by omega⟩

end

/-! ## The search in a zone -/

section

variable {m : Mem} {z s : BitVec 32} {f : Nat}

theorem exists_isLeast_clearBits (h : clearBits m z ≠ ∅) : ∃ f, IsLeast (clearBits m z) f := by
  classical
  have hex : ∃ i, i ∈ clearBits m z := Set.nonempty_iff_ne_empty.mpr h
  exact ⟨Nat.find hex, Nat.find_spec hex, fun i hi => Nat.find_min' hex hi⟩

theorem zoneBit_of_clearBits_eq_empty (h : clearBits m z = ∅) {i : Nat} (hi : i < 32 * (zoneField m z .bitmapWords).toNat) :
    zoneBit m z i = true := by
  by_contra hne
  have hmem : i ∈ clearBits m z := ⟨hi, by simpa using hne⟩
  rw [h] at hmem
  cases hmem

/-- Without an unset bit the search gives up, unless the zone reaches into the last word there could be. -/
theorem searchZone_full (hcovers : (zoneField m z .length).toNat ≤ 32 * (zoneField m z .bitmapWords).toNat)
    (hfull : clearBits m z = ∅) (hlength : (zoneField m z .length).toNat ≤ 0xFFFFFFE0) (s : BitVec 32) :
    Returns (searchZone m z s) (0, m) := by
  obtain ⟨i, hi, hge⟩ := scanWords_full (s := s) (fun j hj => zoneBit_of_clearBits_eq_empty hfull hj) hcovers hlength
  refine returns_bind.mpr ⟨i, hi, ?_⟩
  rw [if_pos hge]
  exact returns_pure.mpr rfl

/-- There it never ends, from offset 0. -/
theorem searchZone_diverges (hcovers : (zoneField m z .length).toNat ≤ 32 * (zoneField m z .bitmapWords).toNat)
    (hfull : clearBits m z = ∅) (hlength : 0xFFFFFFE0 < (zoneField m z .length).toNat) (r : BitVec 32 × Mem) :
    ¬Returns (searchZone m z 0) r := by
  intro hr
  obtain ⟨i, hi, -⟩ := returns_bind.mp hr
  refine (scanWords_diverges hlength ?_).not_returns i hi
  intro n hn
  exact zoneBit_of_clearBits_eq_empty hfull (by omega)

/-- The bits before the first unset one. -/
theorem zoneBit_of_lt_least (hf : IsLeast (clearBits m z) f) {j : Nat} (hj : j < f) : zoneBit m z j = true := by
  by_contra hne
  have hmem : j ∈ clearBits m z := ⟨hj.trans hf.1.1, by simpa using hne⟩
  exact absurd (hf.2 hmem) (Nat.not_le.mpr hj)

/-- The first unset bit stands for a block, and the hint is not behind it. -/
theorem HintedZone.least (h : HintedZone m z) (hf : IsLeast (clearBits m z) f) :
    (zoneField m z .lastOffset).toNat ≤ f ∧ f < (zoneField m z .length).toNat := by
  obtain ⟨hwords, hu⟩ := hf.1
  constructor
  · by_contra hlt
    rw [h.below f (Nat.not_le.mp hlt)] at hu
    cases hu
  · by_contra hge
    rw [h.padding f (Nat.not_lt.mp hge) hwords] at hu
    cases hu

/-- A search whose window begins at a place that is not behind the one of the first unset bit takes its block. -/
theorem searchZone_least (hf : IsLeast (clearBits m z) f) (hlt : f < (zoneField m z .length).toNat) (hs : s.toNat ≤ f)
    (hplace : s.toNat % 32 ≤ f % 32) (hend : f < 0xFFFFFFE0) :
    Returns (searchZone m z s) (takeBlock m z (BitVec.ofNat 32 f)) := by
  obtain ⟨i, hi, hword⟩ := scanWords_from hlt hf.1.2 (fun j hj => zoneBit_of_lt_least hf hj) hs
  obtain ⟨j, hj, hbit⟩ := scanBits_least hf.1.2 (fun j hj => zoneBit_of_lt_least hf hj) (show i.toNat ≤ f by omega)
    (by omega) (by omega)
  have hadd : (i + 32).toNat = i.toNat + 32 := by bv_omega
  have hjf : j = BitVec.ofNat 32 f := by
    apply BitVec.eq_of_toNat_eq
    rw [hbit, BitVec.toNat_ofNat, Nat.mod_eq_of_lt (by omega)]
  refine returns_bind.mpr ⟨i, hi, ?_⟩
  rw [if_neg (by rw [ge_iff_le, BitVec.le_def]; omega)]
  refine returns_bind.mpr ⟨j, hj, ?_⟩
  rw [if_neg (by rw [ge_iff_le, BitVec.le_def]; omega), hjf]
  exact returns_pure.mpr rfl

/-- In the last word there could be the end of the window wraps around, and the search gives up. -/
theorem searchZone_lastWord (hf : IsLeast (clearBits m z) f) (hlt : f < (zoneField m z .length).toNat) (hs : s.toNat ≤ f)
    (hend : 0xFFFFFFE0 ≤ f) : Returns (searchZone m z s) (0, m) := by
  have hlength := (zoneField m z .length).isLt
  obtain ⟨i, hi, hword⟩ := scanWords_from hlt hf.1.2 (fun j hj => zoneBit_of_lt_least hf hj) hs
  refine returns_bind.mpr ⟨i, hi, ?_⟩
  by_cases hge : i ≥ zoneField m z .length
  · rw [if_pos hge]
    exact returns_pure.mpr rfl
  · have hwrap : i + 32 ≤ i := by bv_omega
    rw [if_neg hge]
    refine returns_bind.mpr ⟨i, returns_loop_exit (decide_eq_false (fun h => ?_)), ?_⟩
    · bv_omega
    · rw [if_pos hwrap]
      exact returns_pure.mpr rfl

/-- A search whose window begins behind the place of the first unset bit passes it over: it gives up, or it takes a later block, from the
bitmap or from the word behind it. -/
theorem searchZone_passes (hf : IsLeast (clearBits m z) f) (hlt : f < (zoneField m z .length).toNat) (hs : s.toNat ≤ f)
    (hplace : f % 32 < s.toNat % 32) (hend : f < 0xFFFFFFE0) :
    Ensures (searchZone m z s) (fun r => r = (0, m) ∨
      ∃ g : BitVec 32, f < g.toNat ∧ g.toNat / 32 ≤ (zoneField m z .bitmapWords).toNat ∧ r = takeBlock m z g) := by
  have hwords := hf.1.1
  refine Ensures.bind (scanWords_from hlt hf.1.2 (fun j hj => zoneBit_of_lt_least hf hj) hs) ?_
  intro i hword
  have hadd : (i + 32).toNat = i.toNat + 32 := by bv_omega
  by_cases hge : i ≥ zoneField m z .length
  · rw [if_pos hge]
    exact ensures_pure (Or.inl rfl)
  · rw [if_neg hge]
    refine Ensures.bind (scanBits_window (by omega)) ?_
    rintro g ⟨hle, hle'⟩
    by_cases hge : g ≥ i + 32
    · rw [if_pos hge]
      exact ensures_pure (Or.inl rfl)
    · rw [if_neg hge]
      rw [ge_iff_le, BitVec.le_def] at hge
      exact ensures_pure (Or.inr ⟨g, by omega, by omega, rfl⟩)

end

/-! ## What the two leave -/

section

variable {k : Kernel} {m : Mem} {z : BitVec 32} {qs : List (BitVec 32)} {f : Nat}

/-- A search without a zone. -/
theorem allocFrom_none (hchain : ZoneChain m k.memoryZones qs) (hfirst : firstZone m qs = none) (start : BitVec 32 → BitVec 32) :
    Returns (allocFrom k m start) (0, m) := by
  have hsearch := hchain.search
  rw [hfirst, Option.getD_none] at hsearch
  refine returns_bind.mpr ⟨0, hsearch, ?_⟩
  rw [if_pos rfl]
  exact returns_pure.mpr rfl

/-- A search goes to the first zone with a counter that is not 0. -/
theorem returns_allocFrom (hchain : ZoneChain m k.memoryZones qs) (hfirst : firstZone m qs = some z) (start : BitVec 32 → BitVec 32)
    (r : BitVec 32 × Mem) : Returns (allocFrom k m start) r ↔ Returns (searchZone m z (start z)) r := by
  have hsearch := hchain.search
  have hne := hchain.ne_zero z (firstZone_mem hfirst)
  rw [hfirst, Option.getD_some] at hsearch
  constructor
  · intro hr
    obtain ⟨zone, hzone, hr⟩ := returns_bind.mp hr
    obtain rfl := hzone.unique hsearch
    rwa [if_neg hne] at hr
  · intro hr
    refine returns_bind.mpr ⟨z, hsearch, ?_⟩
    rwa [if_neg hne]

/-- The bit of a block that is taken. -/
theorem ZonesApart.zoneBit_takeBlock (h : ZonesApart m qs) (hz : z ∈ qs) (hf : f < 32 * (zoneField m z .bitmapWords).toNat)
    (hlt : f < 2 ^ 32) : zoneBit (takeBlock m z (BitVec.ofNat 32 f)).2 z f = true := by
  have hnat : (BitVec.ofNat 32 f).toNat = f := by
    rw [BitVec.toNat_ofNat]
    exact Nat.mod_eq_of_lt hlt
  have hi : (BitVec.ofNat 32 f).toNat < 32 * (zoneField m z .bitmapWords).toNat := by
    rw [hnat]
    exact hf
  have hfree := h.zoneField_setBit hz hi hz .free
  have htakes := (h.takesBlock hz hi).bit
  rw [hnat, ← hfree] at htakes
  exact htakes

/-- A header and a bitmap of its zone lie one before the other. -/
theorem ZonesApart.before_or_after (h : ZonesApart m qs) (hz : z ∈ qs) (hwords : 0 < (zoneField m z .bitmapWords).toNat) :
    (zoneField m z .bitmap).toNat + 4 * (zoneField m z .bitmapWords).toNat ≤ z.toNat ∨
      z.toNat + 4 * 8 ≤ (zoneField m z .bitmap).toNat := by
  have hdisjoint := h.both z hz z hz
  rw [headerBytes, bitmapBytes, Set.Ico_disjoint_Ico] at hdisjoint
  omega

/-- The word behind a bitmap is not the part of the zone's header that says where the bitmap is. -/
theorem ZonesApart.cell_ne_behind (h : ZonesApart m qs) (hz : z ∈ qs) (hz0 : z ≠ 0)
    (hwords : 0 < (zoneField m z .bitmapWords).toNat) {n : Nat} (hn : n ≤ (zoneField m z .bitmapWords).toNat) :
    n < Mem.cells ∧ Mem.cell z Field.bitmap.index ≠ Mem.cell (zoneField m z .bitmap) n := by
  have hcells : Mem.cells = 2 ^ 30 := rfl
  have hindex : Field.bitmap.index = 6 := rfl
  have hheader := h.header_le z hz
  have hbitmap := h.bitmap_le z hz
  have hplace := h.before_or_after hz hwords
  have hpos : 0 < z.toNat := by bv_omega
  refine ⟨by omega, ?_⟩
  intro he
  have hnat := congrArg BitVec.toNat he
  rw [hindex, Mem.toNat_cell (by omega)] at hnat
  rw [Mem.cell, BitVec.toNat_add, BitVec.toNat_ofNat] at hnat
  omega

/-- A search that has passed over the first unset bit leaves it. -/
theorem ZonesApart.zoneBit_takeBlock_of_lt (h : ZonesApart m qs) (hz : z ∈ qs) (hz0 : z ≠ 0)
    (hf : f < 32 * (zoneField m z .bitmapWords).toNat) {g : BitVec 32} (hlt : f < g.toNat)
    (hg : g.toNat / 32 ≤ (zoneField m z .bitmapWords).toNat) : zoneBit (takeBlock m z g).2 z f = zoneBit m z f := by
  have hcells : Mem.cells = 2 ^ 30 := rfl
  obtain ⟨hcell, hne⟩ := h.cell_ne_behind hz hz0 (by omega) hg
  have hbitmap : zoneField (LumOS.setBit m (zoneField m z .bitmap) g) z .bitmap = zoneField m z .bitmap := by
    rw [setBit_eq, zoneField, Mem.load_store_of_ne m _ hne, ← zoneField]
  have hfree := cell_ne_of_disjoint (h.bitmap_le z hz) (h.header_le z hz) (h.both z hz z hz).symm
    (show f / 32 < (zoneField m z .bitmapWords).toNat by omega) Field.free.index_lt
  have hset : (LumOS.setBit m (zoneField m z .bitmap) g).bit (zoneField m z .bitmap) f = m.bit (zoneField m z .bitmap) f := by
    rw [bit_setBit_zero m _ g (by omega) (by omega), if_neg (by omega)]
  simp only [takeBlock, zoneBit]
  rw [zoneField_setZoneField, if_neg (by decide), hbitmap, Mem.bit, setZoneField, Mem.load_store_of_ne _ _ hfree, ← Mem.bit, hset]

/-- The two disagree when the window begins behind the place of the first unset bit. -/
theorem not_sameAlloc (hchain : ZoneChain m k.memoryZones qs) (hapart : ZonesApart m qs) (hfirst : firstZone m qs = some z)
    (hhinted : HintedZone m z) (hf : IsLeast (clearBits m z) f) (hplace : f % 32 < (zoneField m z .lastOffset).toNat % 32)
    (hend : f < 0xFFFFFFE0) : ¬SameAlloc k m qs := by
  rintro ⟨p, m₁, m₂, h₁, h₂, hsame⟩
  have hz := firstZone_mem hfirst
  have hz0 := hchain.ne_zero z hz
  have hwords := hf.1.1
  obtain ⟨hhint, hlt⟩ := hhinted.least hf
  rw [pmmAlloc_eq, returns_allocFrom hchain hfirst] at h₁
  rw [pmmAlloc2_eq, returns_allocFrom hchain hfirst] at h₂
  have htaken := searchZone_least (s := 0) hf hlt (Nat.zero_le f) (Nat.zero_le _) hend
  have hbit₂ : zoneBit m₂ z f = true := by
    have hm₂ := congrArg Prod.snd (h₂.unique htaken)
    rw [show m₂ = _ from hm₂]
    exact hapart.zoneBit_takeBlock hz hwords (by omega)
  have hbit₁ : zoneBit m₁ z f = false := by
    rcases (searchZone_passes hf hlt hhint hplace hend).of_returns h₁ with hnull | ⟨g, hg, hgwords, htake⟩
    · rw [show m₁ = m from congrArg Prod.snd hnull]
      exact hf.1.2
    · rw [show m₁ = _ from congrArg Prod.snd htake, hapart.zoneBit_takeBlock_of_lt hz hz0 hwords hg hgwords]
      exact hf.1.2
  rw [(hsame z hz).2 f hwords, hbit₂] at hbit₁
  cases hbit₁

/-- The hint does no harm. -/
theorem sameAlloc_of_hintFits (hchain : ZoneChain m k.memoryZones qs) (hfirst : firstZone m qs = some z) (hhinted : HintedZone m z)
    (hfits : HintFits m z) : SameAlloc k m qs := by
  obtain ⟨r, h₁, h₂⟩ : ∃ r, Returns (searchZone m z (zoneField m z .lastOffset)) r ∧ Returns (searchZone m z 0) r := by
    rcases hfits with ⟨hempty, hlength⟩ | ⟨f, hf, hend | hplace⟩
    · exact ⟨(0, m), searchZone_full hhinted.covers hempty hlength _, searchZone_full hhinted.covers hempty hlength _⟩
    · obtain ⟨hhint, hlt⟩ := hhinted.least hf
      exact ⟨(0, m), searchZone_lastWord hf hlt hhint hend, searchZone_lastWord hf hlt (Nat.zero_le f) hend⟩
    · obtain ⟨hhint, hlt⟩ := hhinted.least hf
      by_cases hend : 0xFFFFFFE0 ≤ f
      · exact ⟨(0, m), searchZone_lastWord hf hlt hhint hend, searchZone_lastWord hf hlt (Nat.zero_le f) hend⟩
      · exact ⟨_, searchZone_least hf hlt hhint hplace (Nat.not_le.mp hend),
          searchZone_least hf hlt (Nat.zero_le f) (Nat.zero_le _) (Nat.not_le.mp hend)⟩
  refine ⟨r.1, r.2, r.2, ?_, ?_, fun q _ => ⟨rfl, fun _ _ => rfl⟩⟩
  · rw [pmmAlloc_eq, returns_allocFrom hchain hfirst]
    exact h₁
  · rw [pmmAlloc2_eq, returns_allocFrom hchain hfirst]
    exact h₂

/-- With every block below the hint used, `pmm_alloc` and `pmm_alloc2` agree exactly when no zone has a counter that is not 0, or the
hint does no harm in the first one that has. -/
theorem alloc_agrees_iff (hchain : ZoneChain m k.memoryZones qs) (hapart : ZonesApart m qs) (hhinted : ∀ q ∈ qs, HintedZone m q) :
    SameAlloc k m qs ↔ ∀ z, firstZone m qs = some z → HintFits m z := by
  constructor
  · intro hsame z hfirst
    have hzone := hhinted z (firstZone_mem hfirst)
    by_cases hempty : clearBits m z = ∅
    · refine Or.inl ⟨hempty, ?_⟩
      by_contra hlength
      obtain ⟨p, m₁, m₂, -, h₂, -⟩ := hsame
      rw [pmmAlloc2_eq, returns_allocFrom hchain hfirst] at h₂
      exact searchZone_diverges hzone.covers hempty (Nat.not_le.mp hlength) _ h₂
    · obtain ⟨f, hf⟩ := exists_isLeast_clearBits hempty
      refine Or.inr ⟨f, hf, ?_⟩
      by_contra hno
      rw [not_or, Nat.not_le, Nat.not_le] at hno
      exact not_sameAlloc hchain hapart hfirst hzone hf hno.2 hno.1 hsame
  · intro hfits
    cases hfirst : firstZone m qs with
    | none =>
      have hnone := allocFrom_none hchain hfirst
      exact ⟨0, m, m, hnone _, hnone _, fun q _ => ⟨rfl, fun _ _ => rfl⟩⟩
    | some z => exact sameAlloc_of_hintFits hchain hfirst (hhinted z (firstZone_mem hfirst)) (hfits z hfirst)

end

/-- A zone of 96 blocks whose search starts at block 40. The first two words of its bitmap are all ones and the third one is `w`; the word
behind the bitmap is 0. -/
def hinted (w : BitVec 32) : Mem := fun a => ([
  (0xC0102000, 0x100000), (0xC0102004, 0x15FFFF), (0xC0102008, 96), (0xC010200C, 1), (0xC0102010, 40), (0xC0102014, 3),
  (0xC0102018, 0xC0300000), (0xC0300000, 0xFFFFFFFF), (0xC0300004, 0xFFFFFFFF), (0xC0300008, w)].lookup a).getD 0

section

variable (w : BitVec 32)

theorem hinted_chain : ZoneChain (hinted w) smallKernel.memoryZones [0xC0102000] := by
  have hnext : zoneField (hinted w) 0xC0102000 .nextZone = 0 := rfl
  refine .cons (by decide) ?_
  change ZoneChain (hinted w) (zoneField (hinted w) 0xC0102000 .nextZone) []
  rw [hnext]
  exact .nil

theorem hinted_apart : ZonesApart (hinted w) [0xC0102000] := by
  have hbitmap : zoneField (hinted w) 0xC0102000 .bitmap = 0xC0300000 := rfl
  have hwords : zoneField (hinted w) 0xC0102000 .bitmapWords = 3 := rfl
  apply ZonesApart.of_bounds <;> simp only [List.forall_mem_singleton, hbitmap, hwords] <;> decide

theorem hinted_bit {i : Nat} (hi : i < 64) : zoneBit (hinted w) 0xC0102000 i = true := by
  have hbitmap : zoneField (hinted w) 0xC0102000 .bitmap = 0xC0300000 := rfl
  have hload : (hinted w).load (Mem.cell 0xC0300000 (i / 32)) = 0xFFFFFFFF := by
    rcases (show i / 32 = 0 ∨ i / 32 = 1 by omega) with h | h <;> rw [h] <;> rfl
  rw [zoneBit, hbitmap, Mem.bit]
  exact (eq_allOnes_iff _).mp hload _ (Nat.mod_lt i (by decide))

theorem hinted_zone : ∀ q ∈ [0xC0102000], HintedZone (hinted w) q := by
  have hhint : (zoneField (hinted w) 0xC0102000 .lastOffset).toNat = 40 := rfl
  have hlength : (zoneField (hinted w) 0xC0102000 .length).toNat = 96 := rfl
  have hwords : (zoneField (hinted w) 0xC0102000 .bitmapWords).toNat = 3 := rfl
  rw [List.forall_mem_singleton]
  refine ⟨by omega, fun i hi => hinted_bit w (by omega), by omega, fun i _ _ => by omega⟩

/-- The first unset bit is the one of the third word. -/
theorem hinted_least {f : Nat} (hf : f < 96) (hu : zoneBit (hinted w) 0xC0102000 f = false)
    (hbefore : ∀ j < f, 64 ≤ j → zoneBit (hinted w) 0xC0102000 j = true) : IsLeast (clearBits (hinted w) 0xC0102000) f := by
  have hwords : (zoneField (hinted w) 0xC0102000 .bitmapWords).toNat = 3 := rfl
  refine isLeast_clearBits (by omega) hu (fun j hj => ?_)
  by_cases hlow : j < 64
  · exact hinted_bit w hlow
  · exact hbefore j hj (Nat.not_lt.mp hlow)

theorem hinted_firstZone : firstZone (hinted w) [0xC0102000] = some 0xC0102000 := rfl

end

/-- Block 75 is at place 11 of its word, block 40 at place 8. -/
theorem alloc_agrees_place : SameAlloc smallKernel (hinted 0xFFFFF7FF) [0xC0102000] := by
  refine (alloc_agrees_iff (hinted_chain _) (hinted_apart _) (hinted_zone _)).mpr (fun z hfirst => ?_)
  obtain rfl := Option.some.inj ((hinted_firstZone _).symm.trans hfirst)
  exact Or.inr ⟨75, hinted_least _ (by decide) (by decide) (by decide), Or.inr (by decide)⟩

/-- Block 65 is at place 1 of its word. The window begins at 72, and `pmm_alloc` goes past the last block of the zone, to the word behind
the bitmap. -/
theorem alloc_hint_disagrees : ZoneChain (hinted 0xFFFFFFFD) smallKernel.memoryZones [0xC0102000] ∧
    ZonesApart (hinted 0xFFFFFFFD) [0xC0102000] ∧ (∀ q ∈ [0xC0102000], HintedZone (hinted 0xFFFFFFFD) q) ∧
    (∃ m, Returns (pmmAlloc smallKernel (hinted 0xFFFFFFFD)) (0x160000, m)) ∧
    (∃ m, Returns (pmmAlloc2 smallKernel (hinted 0xFFFFFFFD)) (0x141000, m)) ∧
    ¬SameAlloc smallKernel (hinted 0xFFFFFFFD) [0xC0102000] := by
  obtain ⟨⟨p, m⟩, hr, hp⟩ := exists_returns_of_run (c := pmmAlloc smallKernel (hinted 0xFFFFFFFD)) (n := 40) (f := Prod.fst)
    (x := 0x160000) (by decide)
  obtain ⟨⟨p₂, m₂⟩, hr₂, hp₂⟩ := exists_returns_of_run (c := pmmAlloc2 smallKernel (hinted 0xFFFFFFFD)) (n := 40) (f := Prod.fst)
    (x := 0x141000) (by decide)
  obtain rfl : p = 0x160000 := hp
  obtain rfl : p₂ = 0x141000 := hp₂
  refine ⟨hinted_chain _, hinted_apart _, hinted_zone _, ⟨m, hr⟩, ⟨m₂, hr₂⟩, ?_⟩
  rintro ⟨p, m₁, m₂', h₁, h₂, -⟩
  have hp : p = 0x160000 := congrArg Prod.fst (h₁.unique hr)
  have hp₂ : p = 0x141000 := congrArg Prod.fst (h₂.unique hr₂)
  exact absurd (hp.symm.trans hp₂) (by decide)

end LumOS
