import LumOS.Lib.Pool
import LumOS.Pmm.Client

/-!
# What the client holds and what the zones say

A `Tracked` zone is a zone with the zone it was after `init_pmm`: blocks used then are used still, and the free counter is the
number of unused blocks and of blocks that were used then. In a list of zones that do not overlap (`Orderly`) the client holds
exactly the blocks that are used and were not used after `init_pmm`. With that the zones are an allocator over the pool of the
blocks `init_pmm` leaves unused (`zone_pool_simulation`).
-/

namespace LumOS

namespace Zone

/-- The number of blocks not used. -/
def unset (z : Zone) : Nat := Nat.count (fun i => z.used i = false) z.length.toNat

/-- The number of blocks used. -/
def taken (z : Zone) : Nat := Nat.count (fun i => ¬z.used i = false) z.length.toNat

theorem unset_add_taken (z : Zone) : z.unset + z.taken = z.length.toNat := count_add_count_not _ _

theorem unset_eq_zero (z : Zone) : z.unset = 0 ↔ ∀ i < z.length.toNat, z.used i = true := by
  rw [unset, Nat.count_iff_forall_not]
  simp

theorem taken_eq_zero (z : Zone) : z.taken = 0 ↔ ∀ i < z.length.toNat, z.used i = false := by
  rw [taken, Nat.count_iff_forall_not]
  simp

theorem unset_take (z : Zone) {i : Nat} (hi : i < z.length.toNat) (hu : z.used i = false) :
    z.unset = (z.take i).unset + 1 := by
  refine count_add_one (i := i) hi hu ?_ ?_
  · simp [take, reserve, withFree]
  · intro j hj
    simp [take, reserve, withFree, hj]

theorem unset_release (z : Zone) {i : Nat} (hi : i < z.length.toNat) (hu : z.used i = true) :
    (z.release i hi).unset = z.unset + 1 := by
  refine count_add_one (i := i) hi ?_ ?_ ?_
  · simp [release, clear, withFree]
  · simp [hu]
  · intro j hj
    simp [release, clear, withFree, hj]

/-! ## Where the blocks are -/

/-- The end of the zone's blocks. -/
def limit (z : Zone) : Nat := z.start.toNat + 4096 * z.length.toNat

/-- The address is in a block of the zone. -/
def Covers (z : Zone) (a : BitVec 32) : Prop := z.start.toNat ≤ a.toNat ∧ a.toNat < z.limit

/-- The blocks of two zones do not overlap. -/
def Apart (z y : Zone) : Prop := z.limit ≤ y.start.toNat ∨ y.limit ≤ z.start.toNat

theorem toNat_address (z : Zone) (hz : z.limit ≤ 2 ^ 32) {i : Nat} (hi : i < z.length.toNat) :
    (z.address i).toNat = z.start.toNat + 4096 * i := by
  have hl := z.length_le
  simp only [limit] at hz
  have hb : (4096 : BitVec 32).toNat = 4096 := rfl
  simp only [address, getAddress, blockSize, BitVec.toNat_add, BitVec.toNat_mul, BitVec.toNat_ofNat, hb]
  omega

theorem covers_address (z : Zone) (hz : z.limit ≤ 2 ^ 32) {i : Nat} (hi : i < z.length.toNat) : z.Covers (z.address i) := by
  rw [Covers, z.toNat_address hz hi, limit]
  omega

theorem address_inj (z : Zone) (hz : z.limit ≤ 2 ^ 32) {i j : Nat} (hi : i < z.length.toNat) (hj : j < z.length.toNat)
    (h : z.address i = z.address j) : i = j := by
  have := congrArg BitVec.toNat h
  rw [z.toNat_address hz hi, z.toNat_address hz hj] at this
  omega

theorem covers_of_inZone (z : Zone) (hz : z.limit ≤ 2 ^ 32) {a : BitVec 32} (h : inZone z.start z.length a) : z.Covers a := by
  rw [inZone, BitVec.lt_def, toNat_getOffset] at h
  simp only [Covers, limit] at hz ⊢
  bv_omega

/-- The offset of a block's address is the block. -/
theorem getOffset_address (z : Zone) (hz : z.limit ≤ 2 ^ 32) {i : Nat} (hi : i < z.length.toNat) :
    (getOffset z.start (z.address i)).toNat = i := by
  have := z.toNat_address hz hi
  rw [toNat_getOffset]
  simp only [limit] at hz
  bv_omega

theorem Apart.symm {z y : Zone} (h : z.Apart y) : y.Apart z := Or.symm h

instance : Std.Symm Apart := ⟨fun _ _ => Apart.symm⟩

/-- An address is in one of two zones that do not overlap. -/
theorem Apart.not_covers {z y : Zone} (h : z.Apart y) {a : BitVec 32} (hz : z.Covers a) : ¬y.Covers a := by
  obtain ⟨h1, h2⟩ := hz
  rintro ⟨h3, h4⟩
  rcases h with h | h <;> omega

end Zone

/-- The zones of a list do not overlap and do not pass the end of the address space, the block at address 0 is used and every
counter is the number of blocks. -/
structure Orderly (zs : List Zone) : Prop where
  limit_le : ∀ z ∈ zs, z.limit ≤ 2 ^ 32
  apart : zs.Pairwise Zone.Apart
  null_used : ∀ z ∈ zs, z.start = 0 → z.used 0 = true
  free_eq : ∀ z ∈ zs, z.free = z.length

/-- The addresses of the blocks of a list of zones that are not used. -/
def poolOf (zs : List Zone) : Set (BitVec 32) := {a | ∃ z ∈ zs, ∃ i < z.length.toNat, z.used i = false ∧ a = z.address i}

/-- The address of an unused block is not `NULL`. -/
theorem Orderly.address_ne_zero {zs : List Zone} (ho : Orderly zs) {z : Zone} (hz : z ∈ zs) {i : Nat}
    (hi : i < z.length.toNat) (hu : z.used i = false) : z.address i ≠ 0 := by
  intro h0
  have hnat := z.toNat_address (ho.limit_le z hz) hi
  rw [h0] at hnat
  have hzero : (0 : BitVec 32).toNat = 0 := rfl
  have hs : z.start = 0 := by
    apply BitVec.eq_of_toNat_eq
    omega
  obtain rfl : i = 0 := by omega
  rw [ho.null_used z hz hs] at hu
  cases hu

/-! ## Zones with their past -/

/-- A zone and the zone it was when `init_pmm` returned. -/
structure Tracked where
  init : Zone
  zone : Zone
  shape : zone.shape = init.shape
  /-- What was used then is used still. -/
  kept : ∀ i, init.used i = true → zone.used i = true
  /-- The counter is the number of unused blocks and of the blocks used from the start. -/
  count : zone.free.toNat = zone.unset + init.taken

namespace Tracked

theorem start_eq (t : Tracked) : t.zone.start = t.init.start := congrArg Shape.start t.shape

theorem length_eq (t : Tracked) : t.zone.length = t.init.length := congrArg Shape.length t.shape

theorem address_eq (t : Tracked) (i : Nat) : t.zone.address i = t.init.address i := by
  rw [Zone.address, Zone.address, t.start_eq]

/-- The client holds the block at an address: it is used, and was not from the start. -/
def Holds (t : Tracked) (a : BitVec 32) : Prop :=
  ∃ i < t.init.length.toNat, t.init.used i = false ∧ t.zone.used i = true ∧ a = t.init.address i

theorem Holds.covers {t : Tracked} {a : BitVec 32} (h : t.Holds a) (hl : t.init.limit ≤ 2 ^ 32) : t.init.Covers a := by
  obtain ⟨i, hi, _, _, rfl⟩ := h
  exact t.init.covers_address hl hi

/-- A zone none of whose blocks has been given out. -/
def start (z : Zone) (hz : z.free = z.length) : Tracked where
  init := z
  zone := z
  shape := rfl
  kept _ h := h
  count := by rw [hz, z.unset_add_taken]

theorem start_holds (z : Zone) (hz : z.free = z.length) (a : BitVec 32) : ¬(start z hz).Holds a := by
  rintro ⟨i, _, h1, h2, _⟩
  change z.used i = false at h1
  change z.used i = true at h2
  rw [h1] at h2
  cases h2

theorem take_kept (t : Tracked) (i : Nat) {j : Nat} (h : t.init.used j = true) : (t.zone.take i).used j = true := by
  show (decide (j = i) || t.zone.used j) = true
  rw [t.kept j h, Bool.or_true]

theorem take_count (t : Tracked) {i : Nat} (hi : i < t.zone.length.toNat) (hu : t.zone.used i = false) :
    (t.zone.take i).free.toNat = (t.zone.take i).unset + t.init.taken := by
  have hc := t.count
  have hun := t.zone.unset_take hi hu
  have h1 : (1 : BitVec 32).toNat = 1 := rfl
  show (t.zone.free - 1).toNat = _
  bv_omega

/-- A block is given out. -/
def take (t : Tracked) (i : Nat) (hi : i < t.zone.length.toNat) (hu : t.zone.used i = false) : Tracked where
  init := t.init
  zone := t.zone.take i
  shape := t.shape
  kept _ h := t.take_kept i h
  count := t.take_count hi hu

theorem take_holds (t : Tracked) (i : Nat) (hi : i < t.zone.length.toNat) (hu : t.zone.used i = false) (a : BitVec 32) :
    (t.take i hi hu).Holds a ↔ a = t.init.address i ∨ t.Holds a := by
  constructor
  · rintro ⟨j, hj, h1, h2, rfl⟩
    change (decide (j = i) || t.zone.used j) = true at h2
    by_cases he : j = i
    · subst he
      exact Or.inl rfl
    · rw [decide_eq_false he, Bool.false_or] at h2
      exact Or.inr ⟨j, hj, h1, h2, rfl⟩
  · rintro (rfl | ⟨j, hj, h1, h2, rfl⟩)
    · refine ⟨i, ?_, ?_, ?_, rfl⟩
      · show i < t.init.length.toNat
        rw [← t.length_eq]
        exact hi
      · show t.init.used i = false
        by_contra hk
        rw [Bool.not_eq_false] at hk
        rw [t.kept i hk] at hu
        cases hu
      · show (decide (i = i) || t.zone.used i) = true
        simp
    · refine ⟨j, hj, h1, ?_, rfl⟩
      show (decide (j = i) || t.zone.used j) = true
      rw [h2, Bool.or_true]

theorem release_kept (t : Tracked) {i : Nat} (hi : i < t.zone.length.toNat) (hk : t.init.used i = false) {j : Nat}
    (h : t.init.used j = true) : (t.zone.release i hi).used j = true := by
  show (!decide (j = i) && t.zone.used j) = true
  have hne : j ≠ i := by
    rintro rfl
    rw [hk] at h
    cases h
  rw [t.kept j h, decide_eq_false hne]
  rfl

theorem release_count (t : Tracked) {i : Nat} (hi : i < t.zone.length.toNat) (hu : t.zone.used i = true) :
    (t.zone.release i hi).free.toNat = (t.zone.release i hi).unset + t.init.taken := by
  have hc := t.count
  have hun := t.zone.unset_release hi hu
  have hle := t.init.unset_add_taken
  have hle' : (t.zone.release i hi).unset ≤ t.zone.length.toNat := Nat.count_le _
  have hlen := t.zone.length_le
  have hlen' := t.init.length_le
  have h1 : (1 : BitVec 32).toNat = 1 := rfl
  show (t.zone.free + 1).toNat = _
  bv_omega

/-- A block comes back. -/
def release (t : Tracked) (i : Nat) (hi : i < t.zone.length.toNat) (hu : t.zone.used i = true) (hk : t.init.used i = false) :
    Tracked where
  init := t.init
  zone := t.zone.release i hi
  shape := t.shape
  kept _ h := t.release_kept hi hk h
  count := t.release_count hi hu

theorem release_holds (t : Tracked) (hl : t.init.limit ≤ 2 ^ 32) (i : Nat) (hi : i < t.zone.length.toNat)
    (hu : t.zone.used i = true) (hk : t.init.used i = false) (a : BitVec 32) :
    (t.release i hi hu hk).Holds a ↔ a ≠ t.init.address i ∧ t.Holds a := by
  have hi' : i < t.init.length.toNat := by
    rw [← t.length_eq]
    exact hi
  constructor
  · rintro ⟨j, hj, h1, h2, rfl⟩
    change (!decide (j = i) && t.zone.used j) = true at h2
    rw [Bool.and_eq_true, Bool.not_eq_true', decide_eq_false_iff_not] at h2
    exact ⟨fun he => h2.1 (t.init.address_inj hl hj hi' he), j, hj, h1, h2.2, rfl⟩
  · rintro ⟨hne, j, hj, h1, h2, rfl⟩
    refine ⟨j, hj, h1, ?_, rfl⟩
    show (!decide (j = i) && t.zone.used j) = true
    rw [h2, Bool.and_true, Bool.not_eq_true', decide_eq_false_iff_not]
    rintro rfl
    exact hne rfl

end Tracked

/-! ## Lists of zones with their past -/

/-- Some zone of the list has the block at an address out. -/
def HeldIn (ts : List Tracked) (a : BitVec 32) : Prop := ∃ t ∈ ts, t.Holds a

theorem heldIn_middle (pre suf : List Tracked) (t : Tracked) (a : BitVec 32) :
    HeldIn (pre ++ t :: suf) a ↔ t.Holds a ∨ HeldIn (pre ++ suf) a := by
  simp only [HeldIn, List.mem_append, List.mem_cons]
  constructor
  · rintro ⟨u, hu | rfl | hu, h⟩
    · exact Or.inr ⟨u, Or.inl hu, h⟩
    · exact Or.inl h
    · exact Or.inr ⟨u, Or.inr hu, h⟩
  · rintro (h | ⟨u, hu | hu, h⟩)
    · exact ⟨t, Or.inr (Or.inl rfl), h⟩
    · exact ⟨u, Or.inl hu, h⟩
    · exact ⟨u, Or.inr (Or.inr hu), h⟩

/-- What a client that holds `held` has out: all but the `NULL`s. -/
def outOf (held : List (BitVec 32)) : List (BitVec 32) := held.filter (fun a => a ≠ 0)

theorem mem_outOf {held : List (BitVec 32)} {a : BitVec 32} : a ∈ outOf held ↔ a ∈ held ∧ a ≠ 0 := by
  rw [outOf, List.mem_filter, decide_eq_true_eq]

theorem outOf_null (held : List (BitVec 32)) : outOf (0 :: held) = outOf held :=
  List.filter_cons_of_neg (by decide)

theorem outOf_cons {a : BitVec 32} (h : a ≠ 0) (held : List (BitVec 32)) : outOf (a :: held) = a :: outOf held :=
  List.filter_cons_of_pos (decide_eq_true h)

theorem outOf_erase (a : BitVec 32) (held : List (BitVec 32)) : outOf (held.erase a) = (outOf held).erase a :=
  List.erase_filter.symm

/-- The zones of a state with their past: the client holds the blocks that are out and no others. -/
structure Tracks (zs : List Zone) (s : ZoneState) (ts : List Tracked) : Prop where
  init : ts.map Tracked.init = zs
  zones : ts.map Tracked.zone = s.zones
  held : ∀ a, a ∈ outOf s.held ↔ HeldIn ts a

theorem Tracks.mem_init {zs : List Zone} {s : ZoneState} {ts : List Tracked} (h : Tracks zs s ts) {t : Tracked} (ht : t ∈ ts) :
    t.init ∈ zs := by
  rw [← h.init]
  exact List.mem_map_of_mem ht

section

variable {zs : List Zone}

/-- An address in one zone of a list is not the address of a block that another zone has out. -/
theorem Orderly.not_heldIn (pre : List Tracked) {suf : List Tracked} {t : Tracked}
    (ho : Orderly ((pre ++ t :: suf).map Tracked.init)) {a : BitVec 32} (ha : t.init.Covers a) : ¬HeldIn (pre ++ suf) a := by
  rintro ⟨u, hu, h⟩
  have hap := ho.apart
  rw [List.pairwise_map, List.pairwise_append] at hap
  obtain ⟨_, hsuf, hpre⟩ := hap
  have hlim : u.init.limit ≤ 2 ^ 32 := by
    refine ho.limit_le _ (List.mem_map_of_mem ?_)
    rcases List.mem_append.mp hu with hu | hu <;> simp [hu]
  have hap : t.init.Apart u.init := by
    rcases List.mem_append.mp hu with hu | hu
    · exact (hpre u hu t (by simp)).symm
    · exact (List.pairwise_cons.mp hsuf).1 u hu
  exact hap.not_covers ha (h.covers hlim)

/-- Every zone of a list starts its past. -/
theorem exists_tracks_start (hfree : ∀ z ∈ zs, z.free = z.length) :
    ∃ ts : List Tracked, ts.map Tracked.init = zs ∧ ts.map Tracked.zone = zs ∧ ∀ a, ¬HeldIn ts a := by
  induction zs with
  | nil =>
    refine ⟨[], rfl, rfl, ?_⟩
    rintro a ⟨t, ht, _⟩
    cases ht
  | cons z zs ih =>
    obtain ⟨ts, h1, h2, h3⟩ := ih (fun y hy => hfree y (List.mem_cons_of_mem z hy))
    have hz := hfree z List.mem_cons_self
    refine ⟨.start z hz :: ts, by rw [List.map_cons, h1]; rfl, by rw [List.map_cons, h2]; rfl, ?_⟩
    rintro a ⟨t, ht, h⟩
    rcases List.mem_cons.mp ht with rfl | ht
    · exact Tracked.start_holds z hz a h
    · exact h3 a ⟨t, ht, h⟩

/-- The zone of a list where `pmm_alloc` takes a block, with its past. -/
theorem tracked_split {ts : List Tracked} {pre suf : List Zone} {z : Zone} (h : ts.map Tracked.zone = pre ++ z :: suf) :
    ∃ tpre t tsuf, ts = tpre ++ t :: tsuf ∧ tpre.map Tracked.zone = pre ∧ t.zone = z ∧ tsuf.map Tracked.zone = suf := by
  obtain ⟨tpre, trest, rfl, hpre, hrest⟩ := List.map_eq_append_iff.mp h
  obtain ⟨t, tsuf, rfl, ht, hsuf⟩ := List.map_eq_cons_iff.mp hrest
  exact ⟨tpre, t, tsuf, rfl, hpre, ht, hsuf⟩

/-- `pmm_alloc` on zones with their past: either it returns `NULL` and the zones are as before, or it returns a block of the
pool that is not out. -/
theorem Tracks.alloc (ho : Orderly zs) {s : ZoneState} {ts : List Tracked} (ht : Tracks zs s ts) {a : BitVec 32}
    {zs' : List Zone} (h : AllocStep s.zones a zs') :
    ∃ ts', Tracks zs ⟨zs', a :: s.held⟩ ts' ∧ ((a = 0 ∧ zs' = s.zones) ∨ (a ≠ 0 ∧ a ∈ poolOf zs ∧ a ∉ outOf s.held)) := by
  have hnull : ∀ {zs' : List Zone}, zs' = s.zones → ∃ ts', Tracks zs ⟨zs', 0 :: s.held⟩ ts' ∧
      ((0 : BitVec 32) = 0 ∧ zs' = s.zones ∨ (0 : BitVec 32) ≠ 0 ∧ 0 ∈ poolOf zs ∧ 0 ∉ outOf s.held) := by
    rintro _ rfl
    refine ⟨ts, ⟨ht.init, ht.zones, fun b => ?_⟩, Or.inl ⟨rfl, rfl⟩⟩
    rw [← ht.held b, outOf_null]
  generalize hzs : s.zones = zones at h hnull ⊢
  cases h with
  | noZone _ => exact hnull rfl
  | noBlock _ _ _ => exact hnull rfl
  | @block pre z suf i hpre hz hi hu hleast =>
    obtain ⟨tpre, t, tsuf, rfl, rfl, rfl, rfl⟩ := tracked_split (ht.zones.trans hzs)
    have hinit := ht.init
    subst hinit
    have hmem : t.init ∈ (tpre ++ t :: tsuf).map Tracked.init := List.mem_map_of_mem (by simp)
    have hlim := ho.limit_le _ hmem
    have hi' : i < t.init.length.toNat := by
      rw [← t.length_eq]
      exact hi
    have hout : HeldIn (tpre ++ t.take i hi hu :: tsuf) (t.init.address i) :=
      (heldIn_middle _ _ _ _).mpr (Or.inl ((t.take_holds i hi hu _).mpr (Or.inl rfl)))
    have hk : t.init.used i = false := by
      by_contra hk
      rw [Bool.not_eq_false] at hk
      rw [t.kept i hk] at hu
      cases hu
    have hne := ho.address_ne_zero hmem hi' hk
    rw [t.address_eq]
    refine ⟨tpre ++ t.take i hi hu :: tsuf, ⟨by simp [Tracked.take], by simp [Tracked.take], fun b => ?_⟩,
      Or.inr ⟨hne, ⟨t.init, hmem, i, hi', hk, rfl⟩, ?_⟩⟩
    · rw [outOf_cons hne, List.mem_cons, ht.held b, heldIn_middle, heldIn_middle, t.take_holds, or_assoc]
    · rw [ht.held, heldIn_middle]
      rintro (⟨j, hj, _, hju, he⟩ | h)
      · obtain rfl := t.init.address_inj hlim hi' hj he
        rw [hu] at hju
        cases hju
      · exact Orderly.not_heldIn tpre ho (t.init.covers_address hlim hi') h

/-- `pmm_free` of an address that the client holds, in the first zone: the block comes back. -/
theorem Tracks.free (ho : Orderly zs) {z : Zone} {suf : List Zone} {held : List (BitVec 32)} {ts : List Tracked}
    (ht : Tracks zs ⟨z :: suf, held⟩ ts) (hnd : (outOf held).Nodup) {a : BitVec 32} (ha : a ∈ held)
    (hne : a ≠ 0) (hin : inZone z.start z.length a) (hi : (getOffset z.start a).toNat < z.length.toNat) :
    ∃ ts', Tracks zs ⟨z.release _ hi :: suf, held.erase a⟩ ts' := by
  obtain ⟨t, tsuf, rfl, rfl, rfl⟩ := List.map_eq_cons_iff.mp ht.zones
  have hinit := ht.init
  subst hinit
  have hlim : t.init.limit ≤ 2 ^ 32 := ho.limit_le _ (by simp)
  have hcov : t.init.Covers a := by
    rw [t.start_eq, t.length_eq] at hin
    exact t.init.covers_of_inZone hlim hin
  have hrest : ¬HeldIn tsuf a := Orderly.not_heldIn [] ho hcov
  rcases (heldIn_middle [] tsuf t a).mp ((ht.held a).mp (mem_outOf.mpr ⟨ha, hne⟩)) with ⟨i, hi', hk, hu, he⟩ | h
  · have hoff : (getOffset t.zone.start a).toNat = i := by
      rw [t.start_eq, he]
      exact t.init.getOffset_address hlim hi'
    simp only [hoff] at hi ⊢
    refine ⟨t.release i hi hu hk :: tsuf, by simp [Tracked.release], by simp [Tracked.release], fun b => ?_⟩
    have h1 := heldIn_middle [] tsuf (t.release i hi hu hk) b
    have h2 := heldIn_middle [] tsuf t b
    simp only [List.nil_append] at h1 h2
    rw [outOf_erase, hnd.mem_erase_iff, ht.held b, h1, h2, t.release_holds hlim, ← he]
    constructor
    · rintro ⟨hba, h | h⟩
      · exact Or.inl ⟨hba, h⟩
      · exact Or.inr h
    · rintro (⟨hba, h⟩ | h)
      · exact ⟨hba, Or.inl h⟩
      · refine ⟨?_, Or.inr h⟩
        rintro rfl
        exact hrest h
  · exact absurd h hrest

end

/-! ## The zones are an allocator over their pool -/

/-- What the client holds is what is out, and the zones have their past. -/
def TracksOut (zs : List Zone) (s : ZoneState) (out : List (BitVec 32)) : Prop := out = outOf s.held ∧ ∃ ts, Tracks zs s ts

/-- When every address given back is not `NULL` and is in the first zone, the zones give out and take back blocks of the pool. -/
theorem zone_pool_simulation {k : Kernel} {es : List MmapEntry} {ok : BitVec 32 → BitVec 32 → BitVec 32 → Prop}
    (ho : Orderly (initialZones k es)) (hok : ∀ start length a, ok start length a → ownedByZone start length a) :
    System.Simulation (zoneSystem k es ok) (poolSystem (poolOf (initialZones k es))) (TracksOut (initialZones k es)) where
  init := by
    rintro s rfl
    obtain ⟨ts, h1, h2, h3⟩ := exists_tracks_start ho.free_eq
    exact ⟨[], rfl, rfl, ts, h1, h2, fun a => iff_of_false List.not_mem_nil (h3 a)⟩
  step := by
    rintro s s' out _ hout ⟨rfl, ts, ht⟩ hst
    cases hst with
    | alloc h =>
      obtain ⟨ts', ht', ⟨rfl, rfl⟩ | ⟨hne, hpool, hnot⟩⟩ := ht.alloc ho h
      · exact ⟨outOf s.held, .refl, (outOf_null _).symm, ts', ht'⟩
      · exact ⟨_ :: outOf s.held, .single (.give hpool hnot), (outOf_cons hne _).symm, ts', ht'⟩
    | @free z suf held a ha hok' hi =>
      obtain ⟨hne, hin⟩ := hok _ _ _ hok'
      obtain ⟨ts', ht'⟩ := ht.free ho (pool_sound hout).1 ha hne hin hi
      exact ⟨_, .single (.back (mem_outOf.mpr ⟨ha, hne⟩)), (outOf_erase a held).symm, ts', ht'⟩

end LumOS
