import LumOS.Pmm.Tracked
import Mathlib.Data.List.Pairwise
import Mathlib.Order.CompletePartialOrder
import Mathlib.Order.Interval.Set.Disjoint

/-!
# Memory maps with disjoint entries below 4 GiB

For a memory map whose type 1 entries are pairwise disjoint ranges below 4 GiB, the zones that `init_pmm` leaves are orderly
(`orderly_initialZones`), unless the reservation of one zone spills into the start of the next (`NoSpill`). A block of such a
zone is used after `init_pmm` when it is the block at address 0 or meets the reserved range (`used_reserved_iff`), so that the
blocks of the pool are inside the entries, off the reserved range and pairwise disjoint.
-/

namespace LumOS

/-! ## Ranges of physical addresses -/

namespace MmapEntry

/-- The first address of an entry. -/
def base (e : MmapEntry) : Nat := 2 ^ 32 * e.baseHigh.toNat + e.baseLow.toNat

/-- The number of bytes in an entry. -/
def len (e : MmapEntry) : Nat := 2 ^ 32 * e.lengthHigh.toNat + e.lengthLow.toNat

/-- The addresses of an entry. -/
def range (e : MmapEntry) : Set Nat := Set.Ico e.base (e.base + e.len)

/-- An entry below 4 GiB with a whole block is given by the low words of its base and its length. -/
theorem low_of_below {e : MmapEntry} (h : e.base + e.len ≤ 2 ^ 32) (hb : 1 ≤ e.blocks) :
    e.base = e.baseLow.toNat ∧ e.len = e.lengthLow.toNat := by
  simp only [base, len, blocks] at *
  omega

theorem baseLow_eq_zero_iff {e : MmapEntry} (h : e.base + e.len ≤ 2 ^ 32) (hb : 1 ≤ e.blocks) : e.baseLow = 0 ↔ e.base = 0 := by
  rw [(low_of_below h hb).1]
  exact BitVec.toNat_inj.symm

end MmapEntry

/-- The type 1 entries are pairwise disjoint ranges below 4 GiB. -/
structure DisjointMap (es : List MmapEntry) : Prop where
  below : ∀ e ∈ es, e.type = 1 → e.base + e.len ≤ 2 ^ 32
  disjoint : es.Pairwise (fun e f => e.type = 1 → f.type = 1 → Disjoint e.range f.range)

/-- The addresses of the block at an address. -/
def block (a : BitVec 32) : Set Nat := Set.Icc a.toNat (a.toNat + 4095)

/-- The reserved addresses: the kernel's image and the PMM structures behind it. -/
def reservedRange (k : Kernel) (es : List MmapEntry) : Set Nat :=
  Set.Icc k.resStart.toNat (k.resEnd (structuresSize es)).toNat

theorem usable_type {es : List MmapEntry} {e : MmapEntry} (h : e ∈ usable es) : e ∈ es ∧ e.type = 1 := by
  obtain ⟨hm, hs⟩ := List.mem_filter.mp h
  refine ⟨hm, ?_⟩
  by_contra ht
  have hsk : e.skipped = true := decide_eq_true (Or.inr ht)
  rw [hsk] at hs
  cases hs

section

variable {k : Kernel} {es : List MmapEntry}

/-- The reserved range is a range. -/
theorem resStart_le_resEnd (hp : Placed k es) : k.resStart ≤ k.resEnd (structuresSize es) :=
  resStart_le_of_fits hp.usable_ne hp.fits

/-! ## The reservation without a spill -/

/-- No zone's reservation changes the start of the next zone: it sets no bit behind the zone's bitmap, or one that is set. -/
def NoSpill (k : Kernel) (es : List MmapEntry) : Prop :=
  (usable es).IsChain (fun e f => e.zone.spills k.resStart (k.resEnd (structuresSize es)) = true → f.baseLow.toNat % 2 = 1)

theorem Zone.bump_eq {z : Zone} {b : Bool} (h : b = true → z.start.toNat % 2 = 1) : z.bump b = z := by
  cases b with
  | false => rfl
  | true =>
    have hstart : z.start ||| 1 = z.start := by
      apply BitVec.eq_of_toNat_eq
      rw [toNat_or_one, h rfl]
      rfl
    rw [Zone.bump, if_pos rfl, hstart]

theorem reserveZones_eq_map {resStart resEnd : BitVec 32} {us : List MmapEntry} :
    ∀ {b : Bool}, us.IsChain (fun e f => e.zone.spills resStart resEnd = true → f.baseLow.toNat % 2 = 1) →
    (∀ e ∈ us.head?, b = true → e.baseLow.toNat % 2 = 1) →
    reserveZones resStart resEnd b (us.map MmapEntry.zone) = us.map (fun e => e.zone.reserved resStart resEnd) := by
  induction us with
  | nil => intro b _ _; rfl
  | cons e us ih =>
    intro b hch hb
    have hbump : e.zone.bump b = e.zone := Zone.bump_eq (hb e rfl)
    rw [List.map_cons, List.map_cons, reserveZones, hbump]
    congr 1
    cases us with
    | nil => rfl
    | cons f us =>
      obtain ⟨hef, hch⟩ := List.isChain_cons_cons.mp hch
      refine ih hch ?_
      rintro g hg hs
      obtain rfl : f = g := Option.some.inj hg
      exact hef hs

/-- Without a spill, `init_pmm` leaves the usable entries' zones with their reserved blocks used. -/
theorem initialZones_eq_map (hn : NoSpill k es) :
    initialZones k es = (usable es).map (fun e => e.zone.reserved k.resStart (k.resEnd (structuresSize es))) :=
  reserveZones_eq_map hn (fun _ _ h => absurd h Bool.false_ne_true)

/-! ## The zones are orderly -/

theorem Zone.reserved_free (z : Zone) (resStart resEnd : BitVec 32) : (z.reserved resStart resEnd).free = z.free := by
  rw [reserved]
  split <;> rfl

/-- The blocks of an entry's reserved zone end inside the entry. -/
theorem MmapEntry.limit_le {e : MmapEntry} (h : e.base + e.len ≤ 2 ^ 32) (hb : 1 ≤ e.blocks) (resStart resEnd : BitVec 32) :
    (e.zone.reserved resStart resEnd).start.toNat = e.base ∧
      (e.zone.reserved resStart resEnd).length.toNat = e.blocks ∧
      (e.zone.reserved resStart resEnd).limit ≤ e.base + e.len := by
  obtain ⟨h1, h2⟩ := e.low_of_below h hb
  have hshape := e.zone.reserved_shape resStart resEnd
  have hs : (e.zone.reserved resStart resEnd).start = e.baseLow := congrArg Shape.start hshape
  have hl : (e.zone.reserved resStart resEnd).length.toNat = e.blocks := by
    rw [show (e.zone.reserved resStart resEnd).length = e.lengthLow / blockSize from congrArg Shape.length hshape, e.toNat_length]
  refine ⟨by rw [hs, h1], hl, ?_⟩
  rw [Zone.limit, hs, hl, h1, h2, MmapEntry.blocks]
  omega

/-- Disjoint ranges that are not empty lie one after the other. -/
theorem MmapEntry.range_apart {e f : MmapEntry} (h : Disjoint e.range f.range) (he : 0 < e.len) (hf : 0 < f.len) :
    e.base + e.len ≤ f.base ∨ f.base + f.len ≤ e.base := by
  rw [MmapEntry.range, MmapEntry.range, Set.Ico_disjoint_Ico] at h
  omega

theorem orderly_initialZones (hd : DisjointMap es) (hn : NoSpill k es) (hb : ∀ e ∈ usable es, 1 ≤ e.blocks) :
    Orderly (initialZones k es) := by
  have hbelow : ∀ e ∈ usable es, e.base + e.len ≤ 2 ^ 32 := fun e he =>
    hd.below e (usable_type he).1 (usable_type he).2
  have hpos : ∀ e ∈ usable es, 0 < e.len := by
    intro e he
    have h1 := (e.low_of_below (hbelow e he) (hb e he)).2
    have h2 := hb e he
    simp only [MmapEntry.blocks] at h2
    omega
  rw [initialZones_eq_map hn]
  refine ⟨?_, ?_, ?_, ?_⟩
  · intro z hz
    obtain ⟨e, he, rfl⟩ := List.mem_map.mp hz
    exact Nat.le_trans (e.limit_le (hbelow e he) (hb e he) _ _).2.2 (hbelow e he)
  · rw [List.pairwise_map]
    have hdis : (usable es).Pairwise (fun e f => Disjoint e.range f.range) := by
      refine List.Pairwise.imp_of_mem ?_ (hd.disjoint.filter _)
      intro e f he hf h
      exact h (usable_type he).2 (usable_type hf).2
    refine List.Pairwise.imp_of_mem ?_ hdis
    intro e f he hf h
    obtain ⟨hes, _, hel⟩ := e.limit_le (hbelow e he) (hb e he) k.resStart (k.resEnd (structuresSize es))
    obtain ⟨hfs, _, hfl⟩ := f.limit_le (hbelow f hf) (hb f hf) k.resStart (k.resEnd (structuresSize es))
    rw [Zone.Apart, hes, hfs]
    rcases MmapEntry.range_apart h (hpos e he) (hpos f hf) with h | h
    · exact Or.inl (Nat.le_trans hel h)
    · exact Or.inr (Nat.le_trans hfl h)
  · intro z hz h0
    obtain ⟨e, he, rfl⟩ := List.mem_map.mp hz
    apply Zone.reserved_used
    have hs : e.baseLow = 0 := by
      rw [← h0]
      exact (congrArg Shape.start (e.zone.reserved_shape _ _)).symm
    show (_ || decide (e.baseLow = 0 ∧ 0 = 0)) = true
    rw [hs]
    exact Bool.or_true _
  · intro z hz
    obtain ⟨e, he, rfl⟩ := List.mem_map.mp hz
    rw [Zone.reserved_free]
    exact (congrArg Shape.length (e.zone.reserved_shape _ _)).symm

/-! ## The blocks used from the start -/

/-- Block `i` of an entry is the one at address 0, or meets the reserved range. -/
def SetAtInit (k : Kernel) (es : List MmapEntry) (e : MmapEntry) (i : Nat) : Prop :=
  e.base + 4096 * i = 0 ∨
    (k.resStart.toNat ≤ e.base + 4096 * i + 4095 ∧ e.base + 4096 * i ≤ (k.resEnd (structuresSize es)).toNat)

/-- A block that starts inside of a zone is in the range of bits that is set when it meets the reserved range, and that does not start
behind the zone. -/
theorem reserved_bits {start end_ resStart resEnd : BitVec 32} (hle : resStart ≤ resEnd) {i : Nat}
    (hi : start.toNat + 4096 * i ≤ end_.toNat) :
    (((resStart ≤ start ∧ resEnd ≥ start) ∨ (resStart ≥ start ∧ resStart ≤ end_)) ∧
      (getOffset start (if start > resStart then start else resStart)).toNat ≤ i ∧
      i < (getOffset start (if end_ < resEnd then end_ else resEnd)).toNat + 1) ↔
    (resStart.toNat ≤ start.toNat + 4096 * i + 4095 ∧ start.toNat + 4096 * i ≤ resEnd.toNat ∧ resStart.toNat ≤ end_.toNat) := by
  rw [toNat_getOffset, toNat_getOffset]
  by_cases h1 : start > resStart <;> by_cases h2 : end_ < resEnd <;> simp only [h1, h2, if_true, if_false] <;>
    constructor <;> bv_omega

/-- The block is used after `init_pmm` when it is the one at address 0 or meets the reserved range. -/
theorem used_reserved_iff (hp : Placed k es) {e : MmapEntry} (h : e.base + e.len ≤ 2 ^ 32) (hb : 1 ≤ e.blocks) {i : Nat}
    (hi : i < e.blocks) :
    (e.zone.reserved k.resStart (k.resEnd (structuresSize es))).used i = true ↔ SetAtInit k es e i := by
  obtain ⟨h1, h2⟩ := e.low_of_below h hb
  have hle := resStart_le_resEnd hp
  have hend : e.zone.end_.toNat + 1 = e.base + e.len := by
    have := e.zone_span hb
    rw [h1, h2] at h ⊢
    simp only [MmapEntry.zone, MmapEntry.blocks] at this hb ⊢
    bv_omega
  have hs : e.zone.start.toNat = e.base := h1.symm
  have hin : e.zone.start.toNat + 4096 * i + 4095 ≤ e.zone.end_.toNat := by
    rw [hs]
    simp only [MmapEntry.blocks] at hi
    omega
  have hbits := reserved_bits hle (Nat.le_trans (Nat.le_add_right _ 4095) hin)
  rw [and_congr_right_iff.mpr (fun h => and_iff_left (Nat.le_trans h hin))] at hbits
  have hnull : e.zone.used i = true ↔ e.base + 4096 * i = 0 := by
    have hlt : ¬e.blocks ≤ i := by omega
    show (decide (e.blocks ≤ i) || decide (e.baseLow = 0 ∧ i = 0)) = true ↔ _
    rw [decide_eq_false hlt, Bool.false_or, decide_eq_true_eq, e.baseLow_eq_zero_iff h hb]
    omega
  rw [SetAtInit, ← hs, ← hbits, hs, ← hnull, Zone.reserved]
  by_cases ho : e.zone.overlaps k.resStart (k.resEnd (structuresSize es)) = true
  · rw [if_pos ho]
    have hov := of_decide_eq_true ho
    show (decide _ || e.zone.used i) = true ↔ _
    rw [Bool.or_eq_true, decide_eq_true_eq, or_comm]
    exact or_congr_right (and_iff_right hov).symm
  · rw [if_neg ho]
    have hov := of_decide_eq_false (Bool.not_eq_true _ ▸ ho)
    exact (or_iff_left (fun h => hov h.1)).symm

/-! ## The blocks of the pool -/

/-- A block of the pool is inside an entry and off the reserved range. -/
theorem pool_block (hp : Placed k es) (hd : DisjointMap es) (hn : NoSpill k es) (hb : ∀ e ∈ usable es, 1 ≤ e.blocks)
    {a : BitVec 32} (ha : a ∈ poolOf (initialZones k es)) :
    (∃ e ∈ es, e.type = 1 ∧ block a ⊆ e.range) ∧ Disjoint (block a) (reservedRange k es) := by
  obtain ⟨z, hz, i, hi, hu, rfl⟩ := ha
  have hlim := (orderly_initialZones hd hn hb).limit_le z hz
  rw [initialZones_eq_map hn] at hz
  obtain ⟨e, he, rfl⟩ := List.mem_map.mp hz
  obtain ⟨hes, ht⟩ := usable_type he
  have hbelow := hd.below e hes ht
  obtain ⟨hs, hl, hle⟩ := e.limit_le hbelow (hb e he) k.resStart (k.resEnd (structuresSize es))
  have ha := Zone.toNat_address _ hlim hi
  rw [hl] at hi
  rw [hs] at ha
  have hset : ¬SetAtInit k es e i := by
    rw [← used_reserved_iff hp hbelow (hb e he) hi, hu]
    exact Bool.false_ne_true
  rw [Zone.limit, hs, hl] at hle
  constructor
  · refine ⟨e, hes, ht, ?_⟩
    rintro x ⟨h1, h2⟩
    rw [ha] at h1 h2
    exact ⟨by omega, by omega⟩
  · rw [Set.disjoint_left]
    rintro x ⟨h1, h2⟩ ⟨h3, h4⟩
    rw [ha] at h1 h2
    exact hset (Or.inr ⟨by omega, by omega⟩)

/-- Two blocks of the pool are disjoint. -/
theorem pool_disjoint {zs : List Zone} (ho : Orderly zs) : (poolOf zs).Pairwise (fun a b => Disjoint (block a) (block b)) := by
  rintro a ⟨z, hz, i, hi, _, rfl⟩ b ⟨y, hy, j, hj, _, rfl⟩ hne
  have hza := z.toNat_address (ho.limit_le z hz) hi
  have hya := y.toNat_address (ho.limit_le y hy) hj
  rw [Set.disjoint_left]
  rintro x ⟨h1, h2⟩ ⟨h3, h4⟩
  rw [hza] at h1 h2
  rw [hya] at h3 h4
  by_cases he : z = y
  · subst he
    obtain rfl : i = j := by omega
    exact hne rfl
  · have hap : z.Apart y := ho.apart.forall hz hy he
    simp only [Zone.Apart, Zone.limit] at hap
    omega

end

end LumOS
