import LumOS.Pmm.Built
import LumOS.Pmm.Safety

/-!
# The walk over a memory map of any content

`init_pmm` goes from section to section of the boot loader's memory map by the size fields it finds there, and looks only at where a
section starts. What it reads of a section is in `MmapEntry.fieldsRead`. The walk ends, its section pointer goes up at each step and it
reads nothing outside of the map (`SafeWalk`) exactly when no section's size leads back or past the end of the address space and what is
read of each section is there (`safeWalk_iff`): it is the boot loader that has to see to that. It also has to put the map apart from the
memory behind the kernel, where the walk writes, and that is taken for granted here (`Boot`).
-/

namespace LumOS

open Comp

/-! ## The fields of a section -/

/-- The fields of `mmap_entry_t`. -/
inductive MmapField where
  | size | baseLow | baseHigh | lengthLow | lengthHigh | type
  deriving DecidableEq, Repr

/-- The place of a field in the packed structure, in bytes. -/
def MmapField.offset : MmapField → Nat
  | .size => 0
  | .baseLow => 4
  | .baseHigh => 8
  | .lengthLow => 12
  | .lengthHigh => 16
  | .type => 20

/-- `section->f` -/
def Boot.field (boot : Boot) (sect : BitVec 32) (f : MmapField) : BitVec 32 := boot.load32 (sect + BitVec.ofNat 32 f.offset)

/-- The fields that a turn of the walk reads, in the order in which it first reads them. The type of a section that is skipped for its
base is not looked at. -/
def MmapEntry.fieldsRead (e : MmapEntry) : List MmapField :=
  if e.baseLow = 0 ∧ e.baseHigh ≠ 0 then [.baseLow, .baseHigh, .size]
  else
    (if e.baseLow = 0 then [.baseLow, .baseHigh, .type] else [.baseLow, .type]) ++
      (if e.type ≠ 1 then [.size] else [.lengthLow, .size])

/-- The bytes from the start of a section up to the end of the last field that is read of it. -/
def MmapEntry.extent (e : MmapEntry) : Nat := if e.baseLow = 0 ∧ e.baseHigh ≠ 0 then 12 else 24

theorem MmapField.offset_le (f : MmapField) : f.offset ≤ 20 := by
  cases f <;> decide

namespace MmapEntry

variable (e : MmapEntry)

/-- When a field is read. -/
theorem mem_fieldsRead (f : MmapField) : f ∈ e.fieldsRead ↔
    match f with
    | .size | .baseLow => True
    | .baseHigh => e.baseLow = 0
    | .type => ¬(e.baseLow = 0 ∧ e.baseHigh ≠ 0)
    | .lengthLow => e.skipped = false
    | .lengthHigh => False := by
  unfold fieldsRead skipped
  by_cases hbase : e.baseLow = 0 ∧ e.baseHigh ≠ 0
  · rw [if_pos hbase]
    cases f <;> simp_all
  · rw [if_neg hbase]
    by_cases hlow : e.baseLow = 0 <;> by_cases htype : e.type = 1 <;> cases f <;> simp_all

theorem extent_le : e.extent ≤ 24 := by
  unfold extent
  split <;> decide

theorem fieldsRead_le : ∀ f ∈ e.fieldsRead, f.offset + 4 ≤ e.extent := by
  unfold fieldsRead extent
  by_cases hbase : e.baseLow = 0 ∧ e.baseHigh ≠ 0
  · rw [if_pos hbase, if_pos hbase]
    decide
  · rw [if_neg hbase, if_neg hbase]
    split <;> split <;> decide

theorem exists_fieldsRead : ∃ f ∈ e.fieldsRead, f.offset + 4 = e.extent := by
  unfold fieldsRead extent
  by_cases hbase : e.baseLow = 0 ∧ e.baseHigh ≠ 0
  · rw [if_pos hbase, if_pos hbase]
    exact ⟨.baseHigh, by decide, rfl⟩
  · rw [if_neg hbase, if_neg hbase]
    refine ⟨.type, List.mem_append_left _ ?_, rfl⟩
    split <;> decide

end MmapEntry

/-- Whether an entry is skipped depends on the fields that are read. -/
theorem MmapEntry.skipped_congr {e e' : MmapEntry} (hlow : e'.baseLow = e.baseLow) (hhigh : e.baseLow = 0 → e'.baseHigh = e.baseHigh)
    (htype : ¬(e.baseLow = 0 ∧ e.baseHigh ≠ 0) → e'.type = e.type) : e'.skipped = e.skipped := by
  unfold skipped
  rw [hlow]
  by_cases hbase : e.baseLow = 0 ∧ e.baseHigh ≠ 0
  · rw [hhigh hbase.1, decide_eq_true (Or.inl hbase), decide_eq_true (Or.inl hbase)]
  · rw [htype hbase]
    by_cases hzero : e.baseLow = 0
    · rw [hhigh hzero]
    · simp only [hzero, false_and]

/-- A new zone depends on two fields of its entry only. -/
theorem initZone_congr {e e' : MmapEntry} (hbase : e'.baseLow = e.baseLow) (hlength : e'.lengthLow = e.lengthLow) (m : Mem)
    (zone : BitVec 32) : initZone m zone e' = initZone m zone e := by
  unfold initZone writeHeader
  rw [hbase, hlength]

theorem Boot.field_size (boot : Boot) (sect : BitVec 32) : boot.field sect .size = (boot.entry sect).size :=
  congrArg boot.load32 (BitVec.add_zero sect)

/-- A turn of the walk depends on these fields only. -/
theorem walkStep_congr (k : Kernel) {boot boot' : Boot} {w : Walk}
    (h : ∀ f ∈ (boot.entry w.sect).fieldsRead, boot'.field w.sect f = boot.field w.sect f) :
    walkStep k boot' w = walkStep k boot w := by
  have hread := (boot.entry w.sect).mem_fieldsRead
  have hsize : (boot'.entry w.sect).size = (boot.entry w.sect).size := by
    rw [← boot.field_size, ← boot'.field_size]
    exact h .size ((hread _).mpr trivial)
  have hlow : (boot'.entry w.sect).baseLow = (boot.entry w.sect).baseLow := h .baseLow ((hread _).mpr trivial)
  have hhigh : (boot.entry w.sect).baseLow = 0 → (boot'.entry w.sect).baseHigh = (boot.entry w.sect).baseHigh := by
    intro hzero
    exact h .baseHigh ((hread _).mpr hzero)
  have htype : ¬((boot.entry w.sect).baseLow = 0 ∧ (boot.entry w.sect).baseHigh ≠ 0) →
      (boot'.entry w.sect).type = (boot.entry w.sect).type := by
    intro hbase
    exact h .type ((hread _).mpr hbase)
  have hlength : (boot.entry w.sect).skipped = false → (boot'.entry w.sect).lengthLow = (boot.entry w.sect).lengthLow := by
    intro hs
    exact h .lengthLow ((hread _).mpr hs)
  have hskipped := MmapEntry.skipped_congr hlow hhigh htype
  unfold walkStep
  simp only [hskipped, MmapEntry.next, hsize]
  by_cases hs : (boot.entry w.sect).skipped = true
  · rw [if_pos hs, if_pos hs]
  · rw [if_neg hs, if_neg hs]
    simp only [initZone_congr hlow (hlength (by simpa using hs))]

/-! ## Safe walks -/

/-- The walk of the memory map, with its variables before each turn. -/
def walkTraced (k : Kernel) (boot : Boot) (mbt : MultibootInfo) (m : Mem) : Comp (Walk × List Walk) :=
  visits (fun w => w.sect < mbt.mmapEnd) (walkStep k boot)
    { sect := mbt.mmapStart, mem := m, currentZone := 0, pmmStructuresSize := 0 }

/-- It returns where the walk returns, with the same variables. -/
theorem traces_walk (k : Kernel) (boot : Boot) (mbt : MultibootInfo) (m : Mem) :
    Traces (walk k boot mbt m) (walkTraced k boot mbt m) := by
  intro w
  constructor
  · intro hw
    obtain ⟨vs, hv⟩ := hw.exists_visits
    exact ⟨vs, returns_visits.mpr hv⟩
  · rintro ⟨vs, hw⟩
    exact (returns_visits.mp hw).returns

/-- All bytes of a field are in the memory map, by their physical addresses. -/
def FieldInside (mbt : MultibootInfo) (sect : BitVec 32) (f : MmapField) : Prop :=
  ∀ i < 4, mbt.mmapAddr.toNat ≤ (sect + BitVec.ofNat 32 (f.offset + i) - virtualKernelOffset).toNat ∧
    (sect + BitVec.ofNat 32 (f.offset + i) - virtualKernelOffset).toNat < mbt.mmapAddr.toNat + mbt.mmapLength.toNat

/-- The walk ends, its section pointer goes up at each step, and every field that it reads is in the memory map. -/
def SafeWalk (k : Kernel) (boot : Boot) (mbt : MultibootInfo) (m : Mem) : Prop :=
  Ensures (walkTraced k boot mbt m) (fun t =>
    (t.2 ++ [t.1]).IsChain (fun v w => v.sect < w.sect) ∧
      ∀ v ∈ t.2, ∀ f ∈ (boot.entry v.sect).fieldsRead, FieldInside mbt v.sect f)

/-- The size fields lead from the section at `p` to the one at `q`. -/
inductive Leads (boot : Boot) (stop : BitVec 32) : BitVec 32 → BitVec 32 → Prop where
  | here {p : BitVec 32} : Leads boot stop p p
  | next {p q : BitVec 32} (h : p < stop) (rest : Leads boot stop ((boot.entry p).next p) q) : Leads boot stop p q

/-- The size of a section leads up, and what is read of the section ends where the map ends at the latest. -/
structure SectionFits (boot : Boot) (stop p : BitVec 32) : Prop where
  pos : (boot.entry p).size + 4 ≠ 0
  below : p.toNat + ((boot.entry p).size + 4).toNat < 2 ^ 32
  room : p.toNat + (boot.entry p).extent ≤ stop.toNat

/-- The map does not reach the end of the address space. -/
def MultibootInfo.NoWrap (mbt : MultibootInfo) : Prop :=
  mbt.mmapAddr.toNat + mbt.mmapLength.toNat + virtualKernelOffset.toNat < 2 ^ 32

section

variable {mbt : MultibootInfo} {boot : Boot} {p : BitVec 32} {f : MmapField}

theorem MultibootInfo.NoWrap.toNat_mmapStart (h : mbt.NoWrap) :
    mbt.mmapStart.toNat = mbt.mmapAddr.toNat + virtualKernelOffset.toNat := by
  unfold NoWrap at h
  rw [mmapStart, BitVec.toNat_add]
  exact Nat.mod_eq_of_lt (by omega)

theorem MultibootInfo.NoWrap.toNat_mmapEnd (h : mbt.NoWrap) :
    mbt.mmapEnd.toNat = mbt.mmapAddr.toNat + mbt.mmapLength.toNat + virtualKernelOffset.toNat := by
  unfold NoWrap at h
  rw [mmapEnd, BitVec.toNat_add, BitVec.toNat_add, Nat.mod_eq_of_lt (show mbt.mmapAddr.toNat + mbt.mmapLength.toNat < 2 ^ 32 by omega)]
  exact Nat.mod_eq_of_lt h

/-- A field of a section that starts in the map is in the map when it ends there. -/
theorem fieldInside_of_room (hwrap : mbt.NoWrap) (hstart : mbt.mmapStart ≤ p) (hroom : p.toNat + f.offset + 4 ≤ mbt.mmapEnd.toNat) :
    FieldInside mbt p f := by
  intro i hi
  have hoffset : virtualKernelOffset.toNat = 0xC0000000 := rfl
  have hend := hwrap.toNat_mmapEnd
  rw [BitVec.le_def, hwrap.toNat_mmapStart] at hstart
  have hlt := p.isLt
  have hle := f.offset_le
  have haddr : (p + BitVec.ofNat 32 (f.offset + i) - virtualKernelOffset).toNat =
      p.toNat + (f.offset + i) - virtualKernelOffset.toNat := by
    bv_omega
  omega

theorem FieldInside.room (h : FieldInside mbt p f) (hwrap : mbt.NoWrap) : p.toNat + f.offset + 4 ≤ mbt.mmapEnd.toNat := by
  obtain ⟨_, hlast⟩ := h 3 (by decide)
  have hoffset : virtualKernelOffset.toNat = 0xC0000000 := rfl
  have hend := hwrap.toNat_mmapEnd
  unfold MultibootInfo.NoWrap at hwrap
  have hlt := p.isLt
  have hle := f.offset_le
  rw [BitVec.toNat_sub, BitVec.toNat_add, BitVec.toNat_ofNat] at hlast
  omega

/-- A section leads up exactly when its size, plus four, is not 0 and does not lead past the end of the address space. -/
theorem lt_next_iff : p < (boot.entry p).next p ↔
    (boot.entry p).size + 4 ≠ 0 ∧ p.toNat + ((boot.entry p).size + 4).toNat < 2 ^ 32 := by
  rw [MmapEntry.next, BitVec.add_assoc]
  generalize (boot.entry p).size + 4 = d
  have hzero : d ≠ 0 ↔ d.toNat ≠ 0 := by
    rw [ne_eq, ← BitVec.toNat_inj]
    rfl
  have hp := p.isLt
  have hd := d.isLt
  rw [hzero, BitVec.lt_def, BitVec.toNat_add]
  omega

/-- What is read of a section that fits is in the map. -/
theorem SectionFits.inside (h : SectionFits boot mbt.mmapEnd p) (hwrap : mbt.NoWrap) (hstart : mbt.mmapStart ≤ p) :
    ∀ f ∈ (boot.entry p).fieldsRead, FieldInside mbt p f := by
  intro f hf
  have hle := (boot.entry p).fieldsRead_le f hf
  have hroom := h.room
  exact fieldInside_of_room hwrap hstart (by omega)

/-- A section that leads up and all of whose fields that are read are in the map fits. -/
theorem sectionFits_of_inside (hwrap : mbt.NoWrap) (hlt : p < (boot.entry p).next p)
    (hinside : ∀ f ∈ (boot.entry p).fieldsRead, FieldInside mbt p f) : SectionFits boot mbt.mmapEnd p := by
  obtain ⟨hpos, hbelow⟩ := lt_next_iff.mp hlt
  obtain ⟨f, hf, hextent⟩ := (boot.entry p).exists_fieldsRead
  have hroom := (hinside f hf).room hwrap
  exact ⟨hpos, hbelow, by omega⟩

end

section

variable {k : Kernel} {boot : Boot} {mbt : MultibootInfo} {m : Mem} {stop : BitVec 32}

/-- A walk that returns has taken a turn at every section that the size fields lead to. -/
theorem exists_visited {w t : Walk} {vs : List Walk} (hv : Visits (fun w => w.sect < stop) (walkStep k boot) w vs t) :
    ∀ {p : BitVec 32}, Leads boot stop w.sect p → p < stop → ∃ v ∈ vs, v.sect = p := by
  induction hv with
  | @exit w hc =>
    intro p hp hlt
    have hge : ¬w.sect < stop := of_decide_eq_false hc
    cases hp with
    | here => exact absurd hlt hge
    | next h _ => exact absurd h hge
  | @turn w u t vs hc hu _ ih =>
    intro p hp hlt
    cases hp with
    | here => exact ⟨w, List.mem_cons_self, rfl⟩
    | next _ rest =>
      rw [← (walkStep_returns hu).1] at rest
      obtain ⟨v, hvs, hsect⟩ := ih rest hlt
      exact ⟨v, List.mem_cons_of_mem w hvs, hsect⟩

/-- What the walk keeps: its section is in the map or behind it, and the sections that the size fields lead to from there fit, and have a
block if they are usable. -/
structure FitsOn (boot : Boot) (mbt : MultibootInfo) (w : Walk) : Prop where
  start_le : mbt.mmapStart ≤ w.sect
  fits : ∀ p, Leads boot mbt.mmapEnd w.sect p → p < mbt.mmapEnd → SectionFits boot mbt.mmapEnd p
  blocks : ∀ p, Leads boot mbt.mmapEnd w.sect p → p < mbt.mmapEnd → (boot.entry p).skipped = false → 1 ≤ (boot.entry p).blocks

/-- A turn of the walk goes up and keeps it. -/
theorem FitsOn.walkStep_ensures {w : Walk} (h : FitsOn boot mbt w) (hlt : w.sect < mbt.mmapEnd) :
    Ensures (walkStep k boot w) (fun u => FitsOn boot mbt u ∧ w.sect < u.sect) := by
  obtain ⟨u, hu⟩ := exists_walkStep k (h.blocks w.sect .here hlt)
  have hsect := (walkStep_returns hu).1
  have hfits := h.fits w.sect .here hlt
  have hup : w.sect < u.sect := by
    rw [hsect]
    exact lt_next_iff.mpr ⟨hfits.pos, hfits.below⟩
  have hleads : ∀ p, Leads boot mbt.mmapEnd u.sect p → Leads boot mbt.mmapEnd w.sect p := by
    intro p hp
    rw [hsect] at hp
    exact .next hlt hp
  refine ⟨u, hu, ⟨?_, ?_, ?_⟩, hup⟩
  · exact BitVec.le_trans h.start_le (BitVec.le_of_lt hup)
  · exact fun p hp => h.fits p (hleads p hp)
  · exact fun p hp => h.blocks p (hleads p hp)

/-- Every section that a safe walk comes to fits. -/
theorem SafeWalk.sectionFits (h : SafeWalk k boot mbt m) (hwrap : mbt.NoWrap) :
    ∀ p, Leads boot mbt.mmapEnd mbt.mmapStart p → p < mbt.mmapEnd → SectionFits boot mbt.mmapEnd p := by
  intro p hp hlt
  obtain ⟨⟨t, vs⟩, hr, hchain, hinside⟩ := h
  have hv := returns_visits.mp hr
  obtain ⟨v, hvs, rfl⟩ := exists_visited hv hp hlt
  obtain ⟨u, hu, hup⟩ := (hv.isChain_iff _).mp hchain v hvs
  rw [(walkStep_returns hu).1] at hup
  exact sectionFits_of_inside hwrap hup (hinside v hvs)

/-- The walk of a memory map, apart from what the walk writes, whose usable sections have a block each is safe exactly when every section
that it comes to fits. -/
theorem safeWalk_iff (hwrap : mbt.NoWrap)
    (hblocks : ∀ p, Leads boot mbt.mmapEnd mbt.mmapStart p → p < mbt.mmapEnd → (boot.entry p).skipped = false →
      1 ≤ (boot.entry p).blocks) :
    SafeWalk k boot mbt m ↔ ∀ p, Leads boot mbt.mmapEnd mbt.mmapStart p → p < mbt.mmapEnd → SectionFits boot mbt.mmapEnd p := by
  constructor
  · intro hsafe
    exact hsafe.sectionFits hwrap
  · intro hfits
    have hfirst : FitsOn boot mbt ⟨mbt.mmapStart, m, 0, 0⟩ := ⟨BitVec.le_refl _, hfits, hblocks⟩
    -- the section pointer goes up, so that its distance from the end of the address space goes down
    have hloop : Ensures (walk k boot mbt m) (fun _ => True) := by
      refine (ensures_loop (FitsOn boot mbt) (fun w => 2 ^ 32 - w.sect.toNat) ?_ hfirst).imp (fun _ _ => trivial)
      intro w hw hc
      refine (hw.walkStep_ensures (of_decide_eq_true hc)).imp ?_
      rintro u ⟨hu, hup⟩
      rw [BitVec.lt_def] at hup
      exact ⟨hu, by omega⟩
    obtain ⟨t, ht, _⟩ := hloop
    obtain ⟨vs, hvs⟩ := (traces_walk k boot mbt m t).mp ht
    have hv := returns_visits.mp hvs
    obtain ⟨hall, _⟩ := hv.invariant (FitsOn boot mbt) (fun w u hw hc hu =>
      ((hw.walkStep_ensures (of_decide_eq_true hc)).of_returns hu).1) hfirst
    refine ⟨(t, vs), hvs, ?_, ?_⟩
    · rw [hv.isChain_iff]
      intro v hvs
      obtain ⟨hfit, hc⟩ := hall v hvs
      exact (hfit.walkStep_ensures (of_decide_eq_true hc)).imp (fun _ hu => hu.2)
    · intro v hvs
      obtain ⟨hfit, hc⟩ := hall v hvs
      exact (hfit.fits v.sect .here (of_decide_eq_true hc)).inside hwrap hfit.start_le

/-- The sections that a walk from the first entry comes to are entries, and each ends in the map. -/
theorem LaidOut.entry_mem {p : BitVec 32} {es : List MmapEntry} (h : LaidOut boot p es)
    (hstop : p.toNat + (es.map (fun e => e.size.toNat + 4)).sum = stop.toNat) :
    ∀ {q : BitVec 32}, Leads boot stop p q → q < stop →
      boot.entry q ∈ es ∧ q.toNat + ((boot.entry q).size.toNat + 4) ≤ stop.toNat := by
  induction h with
  | @nil p =>
    intro q hq hlt
    have hge : ¬p < stop := by
      rw [BitVec.lt_def, ← hstop]
      simp
    cases hq with
    | here => exact absurd hlt hge
    | next hp _ => exact absurd hp hge
  | @cons p es _ ih =>
    intro q hq hlt
    rw [List.map_cons, List.sum_cons] at hstop
    have hfits := stop.isLt
    cases hq with
    | here => exact ⟨List.mem_cons_self, by omega⟩
    | next _ rest =>
      have hnext := MmapEntry.toNat_next (e := boot.entry p) (p := p) (by omega)
      obtain ⟨hmem, hle⟩ := ih (by omega) rest hlt
      exact ⟨List.mem_cons_of_mem _ hmem, hle⟩

/-- The sections of a well-formed memory map fit. -/
theorem WellFormed.sectionFits {es : List MmapEntry} (h : WellFormed boot mbt es) {p : BitVec 32}
    (hp : Leads boot mbt.mmapEnd mbt.mmapStart p) (hlt : p < mbt.mmapEnd) : SectionFits boot mbt.mmapEnd p := by
  obtain ⟨hmem, hle⟩ := h.laid.entry_mem h.toNat_end hp hlt
  have hsize := h.size_ge _ hmem
  have hend := mbt.mmapEnd.isLt
  have hextent := (boot.entry p).extent_le
  have hadd : ((boot.entry p).size + 4).toNat = (boot.entry p).size.toNat + 4 := by
    rw [BitVec.toNat_add]
    exact Nat.mod_eq_of_lt (show (boot.entry p).size.toNat + 4 < 2 ^ 32 by omega)
  refine ⟨?_, by omega, by omega⟩
  intro hzero
  rw [hzero] at hadd
  exact absurd hadd (by simp)

end

/-- The walk of `twoZones` is safe. -/
theorem safeWalk_twoZones : SafeWalk smallKernel (bootOf 0x9000 twoZones) (mapInfo 0x9000 twoZones) (fun _ => 0) := by
  have hwf : WellFormed (bootOf 0x9000 twoZones) (mapInfo 0x9000 twoZones) twoZones := wellFormed_bootOf (by decide) (by decide)
  have hblocks : ∀ e ∈ usable twoZones, 1 ≤ e.blocks := by decide
  refine (safeWalk_iff (by unfold MultibootInfo.NoWrap; decide) ?_).mpr (fun p hp hlt => hwf.sectionFits hp hlt)
  intro p hp hlt hs
  refine hblocks _ (List.mem_filter.mpr ⟨(hwf.laid.entry_mem hwf.toNat_end hp hlt).1, ?_⟩)
  rw [hs]
  rfl

/-- A memory map whose only section has a size that leads back to the section. -/
def backToItself : List MmapEntry := [⟨0xFFFFFFFC, 0x1000, 0, 0x1000, 0, 2⟩]

/-- The description of a memory map that ends behind the second field of its only section. -/
def cutMap : MultibootInfo := ⟨mbtFlagIsMmap, 8, 0x9000⟩

/-- The section pointer stays at a section whose size is 4 below 0, and the type of a section that is cut off is read behind the map. -/
theorem walk_not_safe :
    ((mapInfo 0x9000 backToItself).NoWrap ∧
      ¬SafeWalk smallKernel (bootOf 0x9000 backToItself) (mapInfo 0x9000 backToItself) (fun _ => 0)) ∧
    cutMap.NoWrap ∧ ¬SafeWalk smallKernel (bootOf 0x9000 twoZones) cutMap (fun _ => 0) := by
  have hback : (mapInfo 0x9000 backToItself).NoWrap := by
    unfold MultibootInfo.NoWrap
    decide
  have hcut : cutMap.NoWrap := by
    unfold MultibootInfo.NoWrap
    decide
  refine ⟨⟨hback, ?_⟩, hcut, ?_⟩
  · intro hsafe
    have hsize : ((bootOf 0x9000 backToItself).entry (mapInfo 0x9000 backToItself).mmapStart).size + 4 = 0 := by decide
    exact (hsafe.sectionFits hback _ .here (by decide)).pos hsize
  · intro hsafe
    have hextent : ¬cutMap.mmapStart.toNat + ((bootOf 0x9000 twoZones).entry cutMap.mmapStart).extent ≤ cutMap.mmapEnd.toNat := by
      decide
    exact hextent (hsafe.sectionFits hcut _ .here (by decide)).room

end LumOS
