import LumOS.Pmm.Mirror

/-!
# Whether `init_pmm` returns

`init_pmm` returns on a memory map, whatever is in the memory before, exactly when the map has a usable entry and every usable entry
has a whole block (`init_terminates_iff`). An entry that is shorter makes `unset_bits` run from 0 to the largest number, which is no
end. Without a usable entry the list of zones is what happens to be in the memory behind the kernel, and that need not be a list
that ends.
-/

namespace LumOS

open Comp

/-! ## A map without a usable entry -/

/-- The walk of a map without a usable entry returns and writes nothing. -/
theorem walk_unusable {k : Kernel} {boot : Boot} {stop p : BitVec 32} {es : List MmapEntry} (hes : MapEntries boot stop p es)
    (hu : usable es = []) : ∀ {w : Walk}, w.sect = p →
    Ensures (loop (fun w => w.sect < stop) (walkStep k boot) w)
      (fun w' => w'.mem = w.mem ∧ w'.pmmStructuresSize = w.pmmStructuresSize) := by
  induction hes with
  | done hge =>
    intro w hp
    refine ⟨w, returns_loop_exit ?_, rfl, rfl⟩
    rw [hp]
    exact decide_eq_false hge
  | @entry p es hlt _ ih =>
    intro w hp
    subst hp
    have hs : (boot.entry w.sect).skipped = true := by
      by_contra hs
      rw [usable_of_not_skipped (by simpa using hs)] at hu
      cases hu
    rw [usable_of_skipped hs] at hu
    obtain ⟨w', hw', hq⟩ := ih hu (w := { w with sect := (boot.entry w.sect).next w.sect }) rfl
    exact ⟨w', returns_loop_turn (decide_eq_true hlt) (by rw [walkStep_skipped k boot hs]; exact returns_pure.mpr rfl) hw', hq⟩

/-- The memory behind the kernel reads as a zone that is its own successor. -/
structure SelfLinked (k : Kernel) (m : Mem) : Prop where
  start : zoneField m (Mem.cell k.kernelEnd 0) .start = k.kernelEnd
  end_ : zoneField m (Mem.cell k.kernelEnd 0) .end_ = k.kernelEnd
  bitmap : zoneField m (Mem.cell k.kernelEnd 0) .bitmap = Mem.cell k.kernelEnd 8
  next : zoneField m (Mem.cell k.kernelEnd 0) .nextZone = Mem.cell k.kernelEnd 0

/-- The memory with one word everywhere. -/
def uniform (v : BitVec 32) : Mem := fun _ => v

/-- A memory that reads so. -/
def selfLinked (k : Kernel) : Mem :=
  setZoneField (uniform k.kernelEnd) (Mem.cell k.kernelEnd 0) .bitmap (Mem.cell k.kernelEnd 8)

theorem selfLinked_selfLinked (k : Kernel) : SelfLinked k (selfLinked k) := by
  have hother : ∀ f, zoneField (uniform k.kernelEnd) (Mem.cell k.kernelEnd 0) f = k.kernelEnd := fun _ => rfl
  constructor <;> rw [selfLinked, zoneField_setZoneField]
  · exact hother .start
  · exact hother .end_
  · rfl
  · exact (hother .nextZone).trans (Mem.cell_zero _).symm

section

variable {k : Kernel} {m m' : Mem} {resEnd : BitVec 32}

/-- The kernel starts below its virtual addresses. -/
theorem Kernel.resStart_lt (k : Kernel) : k.resStart < k.kernelEnd := by
  have h1 := k.offset_le
  have h2 := k.start_le
  simp only [Kernel.resStart, virtualKernelOffset] at h1 ⊢
  bv_omega

/-- The reservation of such a zone sets at most the first bit behind its header. -/
theorem SelfLinked.reserveZone (h : SelfLinked k m)
    (hr : Returns (LumOS.reserveZone k.resStart resEnd m (Mem.cell k.kernelEnd 0)) m') : SelfLinked k m' := by
  have hlt := k.resStart_lt
  unfold LumOS.reserveZone at hr
  simp only [h.start, h.end_, h.bitmap, if_pos hlt] at hr
  by_cases ho : (k.resStart ≤ k.kernelEnd ∧ resEnd ≥ k.kernelEnd) ∨ (k.resStart ≥ k.kernelEnd ∧ k.resStart ≤ k.kernelEnd)
  · have hend : (if k.kernelEnd < resEnd then k.kernelEnd else resEnd) = k.kernelEnd := by
      by_cases hlt' : k.kernelEnd < resEnd
      · exact if_pos hlt'
      · rw [if_neg hlt']
        bv_omega
    have hzero : getOffset k.kernelEnd k.kernelEnd = 0 := by
      simp [getOffset, blockSize]
    rw [if_pos ho, hend, hzero] at hr
    have hset : Ensures (setBits m (Mem.cell k.kernelEnd 8) 0 0) (fun m' => Filled k.kernelEnd m m' (32 * 8) (32 * 8 + 1) true) :=
      setBits_ensures m k.kernelEnd 8 (by decide) (by decide) (by decide)
    have hfill := hset.of_returns hr
    have hfield : ∀ f, zoneField m' (Mem.cell k.kernelEnd 0) f = zoneField m (Mem.cell k.kernelEnd 0) f := by
      intro f
      exact zoneField_filled hfill (by decide) (by decide) f
    exact ⟨(hfield _).trans h.start, (hfield _).trans h.end_, (hfield _).trans h.bitmap, (hfield _).trans h.next⟩
  · rw [if_neg ho] at hr
    rw [← returns_pure.mp hr]
    exact h

/-- The reservation goes round in such a list. -/
theorem SelfLinked.reserveKernel_diverges (h : SelfLinked k m) :
    Diverges (reserveKernel k.resStart resEnd m k.memoryZones) := by
  have hne := k.memoryZones_ne_zero
  rw [k.memoryZones_cell] at hne ⊢
  refine Diverges.bind ?_ _
  refine diverges_loop (fun s => SelfLinked k s.1 ∧ s.2 = Mem.cell k.kernelEnd 0) ?_ ?_ ⟨h, rfl⟩
  · rintro ⟨m₁, zone⟩ ⟨_, hzone⟩
    simp only at hzone
    rw [hzone]
    exact decide_eq_true hne
  · rintro ⟨m₁, zone⟩ t ⟨h₁, hzone⟩ ht
    simp only at h₁ hzone
    subst hzone
    obtain ⟨m₂, hm₂, ht⟩ := returns_bind.mp ht
    rw [← returns_pure.mp ht]
    have h₂ := h₁.reserveZone hm₂
    exact ⟨h₂, h₂.next⟩

end

/-! ## When `init_pmm` returns -/

section

variable {k : Kernel} {boot : Boot} {mbt : MultibootInfo} {es : List MmapEntry}

/-- Without a usable entry there is a memory from which `init_pmm` does not return. -/
theorem initPmm_unusable (hmap : MemoryMap boot mbt es) (hu : usable es = []) (m : Mem) :
    ¬Returns (initPmm k boot mbt (selfLinked k)) m := by
  intro hr
  unfold initPmm at hr
  split at hr
  · exact not_returns_diverge hr
  obtain ⟨w, hw, hr⟩ := returns_bind.mp hr
  obtain ⟨m₁, hm₁, _⟩ := returns_bind.mp hr
  have hmem : w.mem = selfLinked k :=
    ((walk_unusable (k := k) hmap hu (w := ⟨mbt.mmapStart, selfLinked k, 0, 0⟩) rfl).of_returns hw).1
  rw [hmem] at hm₁
  exact (selfLinked_selfLinked k).reserveKernel_diverges.not_returns m₁ hm₁

/-- On a well-formed memory map `init_pmm` returns, whatever is in the memory before, exactly when there is a usable entry and every
usable entry has a block. -/
theorem init_terminates_iff (hwf : WellFormed boot mbt es) (hfit : Fits k.kernelEnd (cellsOf (newZones es))) :
    (∀ m₀, ∃ m, Returns (initPmm k boot mbt m₀) m) ↔ usable es ≠ [] ∧ ∀ e ∈ usable es, 1 ≤ e.blocks := by
  constructor
  · intro hall
    constructor
    · intro hu
      obtain ⟨m, hm⟩ := hall (selfLinked k)
      exact initPmm_unusable hwf.memoryMap hu m hm
    · obtain ⟨m, hm⟩ := hall (selfLinked k)
      exact initPmm_blocks hwf.memoryMap hm
  · rintro ⟨hne, hb⟩ m₀
    obtain ⟨m, hm, _⟩ := initPmm_ensures m₀ hwf.available hwf.memoryMap hne hfit hb
    exact ⟨m, hm⟩

end

/-- `init_pmm` returns on `twoZones`. -/
theorem init_terminates_twoZones :
    ∃ m, Returns (initPmm smallKernel (bootOf 0x9000 twoZones) (mapInfo 0x9000 twoZones) (fun _ => 0)) m :=
  (init_terminates_iff (wellFormed_bootOf (by decide) (by decide)) twoZones_placed.fits).mpr ⟨by decide, by decide⟩ _

/-- A memory map of half a block. -/
def halfBlock : List MmapEntry := [⟨20, 0x1000, 0, 0x800, 0, 1⟩]

/-- The last block of a zone without a block is block number `2 ^ 32 - 1`. -/
theorem init_not_terminates : WellFormed (bootOf 0x9000 halfBlock) (mapInfo 0x9000 halfBlock) halfBlock ∧
    ∀ m₀ m, ¬Returns (initPmm smallKernel (bootOf 0x9000 halfBlock) (mapInfo 0x9000 halfBlock) m₀) m := by
  have hwf : WellFormed (bootOf 0x9000 halfBlock) (mapInfo 0x9000 halfBlock) halfBlock :=
    wellFormed_bootOf (by decide) (by decide)
  refine ⟨hwf, ?_⟩
  intro m₀ m hr
  exact absurd (initPmm_blocks hwf.memoryMap hr) (by decide)

end LumOS
