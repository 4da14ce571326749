import LumOS.Pmm.Map
import LumOS.Pmm.Session
import Mathlib.Algebra.GroupWithZero.Nat
import Mathlib.Data.List.Chain

/-!
# Well-formed memory maps, and the zones built from them

A boot loader's memory map is `WellFormed` when its size fields lead from entry to entry and add up to its length; the walk then visits
its entries. The zones that `init_pmm` builds are the first of the list, one for each usable entry (`BuiltZone`). Each comes from its
entry and a mark that says whether the reservation of the zone before has set the lowest bit of its start (`marks`,
`initialZones_eq_marks`), so that what holds of all zones in memory is what holds of all marked entries (`forall_built_iff`).
-/

namespace LumOS

open Comp

/-! ## Well-formed memory maps -/

/-- The entries are one behind the other from an address on, each where the size field of the one before says. -/
inductive LaidOut (boot : Boot) : BitVec 32 → List MmapEntry → Prop where
  | nil {p : BitVec 32} : LaidOut boot p []
  | cons {p : BitVec 32} {es : List MmapEntry} (rest : LaidOut boot ((boot.entry p).next p) es) :
      LaidOut boot p (boot.entry p :: es)

/-- The memory map is there, its entries have all their fields and end where the map ends, and the map ends below the end of the
address space. -/
structure WellFormed (boot : Boot) (mbt : MultibootInfo) (es : List MmapEntry) : Prop where
  available : mbt.flags &&& mbtFlagIsMmap ≠ 0
  laid : LaidOut boot mbt.mmapStart es
  size_ge : ∀ e ∈ es, 20 ≤ e.size.toNat
  total : (es.map (fun e => e.size.toNat + 4)).sum = mbt.mmapLength.toNat
  inside : mbt.mmapStart.toNat + mbt.mmapLength.toNat < 2 ^ 32

/-- Where the next entry is, if it is in the address space. -/
theorem MmapEntry.toNat_next {e : MmapEntry} {p : BitVec 32} (h : p.toNat + (e.size.toNat + 4) < 2 ^ 32) :
    (e.next p).toNat = p.toNat + (e.size.toNat + 4) := by
  have h4 : (4 : BitVec 32).toNat = 4 := rfl
  rw [next, BitVec.toNat_add, BitVec.toNat_add, h4]
  omega

theorem LaidOut.mapEntries {boot : Boot} {stop p : BitVec 32} {es : List MmapEntry} (h : LaidOut boot p es)
    (hstop : p.toNat + (es.map (fun e => e.size.toNat + 4)).sum = stop.toNat) : MapEntries boot stop p es := by
  induction h with
  | nil =>
    refine .done ?_
    rw [BitVec.lt_def, ← hstop]
    simp
  | @cons p es _ ih =>
    rw [List.map_cons, List.sum_cons] at hstop
    have hlt := stop.isLt
    have hnext := MmapEntry.toNat_next (e := boot.entry p) (p := p) (by omega)
    refine .entry ?_ (ih (by rw [hnext]; omega))
    rw [BitVec.lt_def]
    omega

/-- The entries of a well-formed map end where the walk ends. -/
theorem WellFormed.toNat_end {boot : Boot} {mbt : MultibootInfo} {es : List MmapEntry} (h : WellFormed boot mbt es) :
    mbt.mmapStart.toNat + (es.map (fun e => e.size.toNat + 4)).sum = mbt.mmapEnd.toNat := by
  have hin := h.inside
  have hend : mbt.mmapEnd = mbt.mmapStart + mbt.mmapLength := by
    rw [MultibootInfo.mmapEnd, MultibootInfo.mmapStart, BitVec.add_assoc, BitVec.add_comm mbt.mmapLength, ← BitVec.add_assoc]
  rw [h.total, hend, BitVec.toNat_add]
  omega

/-- The walk visits the entries of a well-formed map. -/
theorem WellFormed.memoryMap {boot : Boot} {mbt : MultibootInfo} {es : List MmapEntry} (h : WellFormed boot mbt es) :
    MemoryMap boot mbt es :=
  h.laid.mapEntries h.toNat_end

/-- The entries that a walk visits are laid out. -/
theorem MapEntries.laidOut {boot : Boot} {stop p : BitVec 32} {es : List MmapEntry} (h : MapEntries boot stop p es) :
    LaidOut boot p es := by
  induction h with
  | done _ => exact .nil
  | entry _ _ ih => exact .cons ih

/-- A memory map that was laid out is well-formed. -/
theorem wellFormed_bootOf {addr : BitVec 32} {es : List MmapEntry} (hsize : ∀ e ∈ es, e.size = 20)
    (hp : (addr + virtualKernelOffset).toNat + 24 * es.length < 2 ^ 32) : WellFormed (bootOf addr es) (mapInfo addr es) es where
  available := by simp [mapInfo, mbtFlagIsMmap]
  laid := (memoryMap_bootOf hsize hp).laidOut
  size_ge := by
    intro e he
    rw [hsize e he]
    decide
  total := by
    have hsum : (es.map (fun e => e.size.toNat + 4)).sum = 24 * es.length := by
      rw [List.map_congr_left (g := fun _ => 24), List.map_const', List.sum_replicate_nat, Nat.mul_comm]
      intro e he
      rw [hsize e he]
      rfl
    have hlen : (mapInfo addr es).mmapLength.toNat = 24 * es.length := by
      simp only [mapInfo, BitVec.toNat_ofNat]
      omega
    rw [hsum, hlen]
  inside := by
    have hlen : (mapInfo addr es).mmapLength.toNat = 24 * es.length := by
      simp only [mapInfo, BitVec.toNat_ofNat]
      omega
    rw [hlen]
    exact hp

/-! ## The first zones of the list -/

/-- The zone that is `n` places behind one in its list. -/
def zoneAfter (m : Mem) (zone : BitVec 32) : Nat → BitVec 32
  | 0 => zone
  | n + 1 => zoneAfter m (zoneField m zone .nextZone) n

/-- `q` is one of the zones that `init_pmm` has built for the entries: there is one for each usable entry, and they are the first of
the list. -/
def BuiltZone (k : Kernel) (es : List MmapEntry) (m : Mem) (q : BitVec 32) : Prop :=
  ∃ n < (usable es).length, zoneAfter m k.memoryZones n = q

section

variable {base : BitVec 32} {m : Mem}

theorem ZonesAt.zoneAfter {z : Zone} {suf : List Zone} : ∀ {pre : List Zone} {h : Nat}, ZonesAt base m h (pre ++ z :: suf) →
    LumOS.zoneAfter m (Mem.cell base h) pre.length = Mem.cell base (h + cellsOf pre) := by
  intro pre
  induction pre with
  | nil => intro h _; rfl
  | cons y pre ih =>
    intro h hz
    have hnext : zoneField m (Mem.cell base h) .nextZone = Mem.cell base (h + y.cells) := by
      rw [hz.1.header .nextZone, Zone.header]
      cases pre <;> rfl
    rw [List.length_cons, LumOS.zoneAfter, hnext, ih hz.2, cellsOf, Nat.add_assoc]

/-- The zones built are those of the list in memory. -/
theorem builtZone_iff {k : Kernel} {es : List MmapEntry} {zs : List Zone} (hz : ZonesAt k.kernelEnd m 0 zs)
    (hlen : zs.length = (usable es).length) {q : BitVec 32} :
    BuiltZone k es m q ↔ ∃ pre z suf, zs = pre ++ z :: suf ∧ q = Mem.cell k.kernelEnd (cellsOf pre) := by
  have hplace : ∀ pre z suf, zs = pre ++ z :: suf →
      LumOS.zoneAfter m k.memoryZones pre.length = Mem.cell k.kernelEnd (cellsOf pre) := by
    rintro pre z suf rfl
    have hafter := hz.zoneAfter
    rwa [Mem.cell_zero, Nat.zero_add] at hafter
  rw [BuiltZone, ← hlen]
  constructor
  · rintro ⟨n, hn, rfl⟩
    have hsplit : zs = zs.take n ++ zs[n] :: zs.drop (n + 1) := by
      rw [← List.drop_eq_getElem_cons hn, List.take_append_drop]
    refine ⟨zs.take n, zs[n], zs.drop (n + 1), hsplit, ?_⟩
    rw [← hplace _ _ _ hsplit, List.length_take, Nat.min_eq_left (Nat.le_of_lt hn)]
  · rintro ⟨pre, z, suf, hsplit, rfl⟩
    refine ⟨pre.length, ?_, hplace pre z suf hsplit⟩
    rw [hsplit, List.length_append, List.length_cons]
    omega

end

/-! ## Marked entries -/

/-- Each entry with whether the reservation of the zone before sets the lowest bit of its zone's start; `b` says so of the first. -/
def spillMarks (resStart resEnd : BitVec 32) : Bool → List MmapEntry → List (MmapEntry × Bool)
  | _, [] => []
  | b, e :: es => (e, b) :: spillMarks resStart resEnd ((e.zone.bump b).spills resStart resEnd) es

/-- The usable entries, marked. -/
def marks (k : Kernel) (es : List MmapEntry) : List (MmapEntry × Bool) :=
  spillMarks k.resStart (k.resEnd (structuresSize es)) false (usable es)

/-- The zone that is reserved for a marked entry. -/
def markedZone (p : MmapEntry × Bool) : Zone := p.1.zone.bump p.2

/-- The zone that `init_pmm` leaves for a marked entry. -/
def builtFrom (k : Kernel) (es : List MmapEntry) (p : MmapEntry × Bool) : Zone :=
  (markedZone p).reserved k.resStart (k.resEnd (structuresSize es))

theorem reserveZones_eq_marks (resStart resEnd : BitVec 32) (b : Bool) (us : List MmapEntry) :
    reserveZones resStart resEnd b (us.map MmapEntry.zone) =
      (spillMarks resStart resEnd b us).map (fun p => (markedZone p).reserved resStart resEnd) := by
  induction us generalizing b with
  | nil => rfl
  | cons e us ih =>
    rw [List.map_cons, reserveZones, spillMarks, List.map_cons, ih]
    rfl

/-- `init_pmm` leaves the zones of the marked entries. -/
theorem initialZones_eq_marks (k : Kernel) (es : List MmapEntry) : initialZones k es = (marks k es).map (builtFrom k es) :=
  reserveZones_eq_marks _ _ _ _

theorem spillMarks_fst (resStart resEnd : BitVec 32) (b : Bool) (us : List MmapEntry) :
    (spillMarks resStart resEnd b us).map Prod.fst = us := by
  induction us generalizing b with
  | nil => rfl
  | cons e us ih => rw [spillMarks, List.map_cons, ih]

section

variable {k : Kernel} {es : List MmapEntry}

/-- The marked entries are the usable ones. -/
theorem marks_fst : (marks k es).map Prod.fst = usable es := spillMarks_fst _ _ _ _

theorem marks_usable {p : MmapEntry × Bool} (hp : p ∈ marks k es) : p.1 ∈ usable es := by
  rw [← marks_fst (k := k)]
  exact List.mem_map_of_mem hp

theorem length_initialZones : (initialZones k es).length = (usable es).length := by
  rw [initialZones_eq_marks, List.length_map, ← List.length_map Prod.fst, marks_fst]

theorem spillMarks_odd_iff {resStart resEnd : BitVec 32} {b : Bool} {us : List MmapEntry} :
    (∀ p ∈ spillMarks resStart resEnd b us, p.2 = true → p.1.baseLow.toNat % 2 = 1) ↔
      (∀ e ∈ us.head?, b = true → e.baseLow.toNat % 2 = 1) ∧
        us.IsChain (fun e f => e.zone.spills resStart resEnd = true → f.baseLow.toNat % 2 = 1) := by
  induction us generalizing b with
  | nil => simp [spillMarks]
  | cons e us ih =>
    rw [spillMarks, List.forall_mem_cons, List.isChain_cons, ih]
    have hhead : (∀ f ∈ (e :: us).head?, b = true → f.baseLow.toNat % 2 = 1) ↔ (b = true → e.baseLow.toNat % 2 = 1) := by
      simp
    rw [hhead]
    refine and_congr_right ?_
    intro hb
    rw [Zone.bump_eq hb]

/-- No reservation changes the start of a zone exactly when every entry with a mark has an odd base. -/
theorem noSpill_iff_marks : NoSpill k es ↔ ∀ p ∈ marks k es, p.2 = true → p.1.baseLow.toNat % 2 = 1 := by
  rw [marks, spillMarks_odd_iff, NoSpill]
  exact (and_iff_right (fun _ _ h => absurd h Bool.false_ne_true)).symm

/-! ## What holds of all zones -/

variable {boot : Boot} {mbt : MultibootInfo} {m₀ m : Mem}

/-- The zones are in memory when `init_pmm` has returned, if there are any. -/
theorem initPmm_zones (hmap : MemoryMap boot mbt es) (hfit : Fits k.kernelEnd (cellsOf (newZones es)))
    (hr : Returns (initPmm k boot mbt m₀) m) : ZonesAt k.kernelEnd m 0 (initialZones k es) := by
  by_cases hne : usable es = []
  · have hnil : initialZones k es = [] := by
      rw [← List.length_eq_zero_iff, length_initialZones, hne]
      rfl
    rw [hnil]
    trivial
  · exact (initPmm_returns hmap hne hfit hr).2

/-- What can be read off a zone in memory holds of all zones built when it holds of the zones of all marked entries. -/
theorem forall_built_iff (hmap : MemoryMap boot mbt es) (hfit : Fits k.kernelEnd (cellsOf (newZones es)))
    (hr : Returns (initPmm k boot mbt m₀) m) {P : BitVec 32 → Prop} {Q : Zone → Prop}
    (hread : ∀ h z next, ZoneAt k.kernelEnd m h z next → (P (Mem.cell k.kernelEnd h) ↔ Q z)) :
    (∀ q, BuiltZone k es m q → P q) ↔ ∀ p ∈ marks k es, Q (builtFrom k es p) := by
  have hz := initPmm_zones hmap hfit hr
  have hlist : (∀ q, BuiltZone k es m q → P q) ↔ ∀ z ∈ initialZones k es, Q z := by
    constructor
    · intro hall z hmem
      obtain ⟨pre, suf, hsplit⟩ := List.append_of_mem hmem
      have hza := (hsplit ▸ hz).middle
      rw [← hread _ _ _ hza, Nat.zero_add]
      exact hall _ ((builtZone_iff hz length_initialZones).mpr ⟨pre, z, suf, hsplit, rfl⟩)
    · intro hall q hq
      obtain ⟨pre, z, suf, hsplit, rfl⟩ := (builtZone_iff hz length_initialZones).mp hq
      have hza := (hsplit ▸ hz).middle
      rw [Nat.zero_add] at hza
      exact (hread _ _ _ hza).mpr (hall z (by rw [hsplit]; simp))
  rw [hlist, initialZones_eq_marks, List.forall_mem_map]

end

end LumOS
