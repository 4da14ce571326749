import LumOS.Kernel.Main
import LumOS.Pmm.Packed
import LumOS.Pmm.Safety

/-!
# What the kernel runs on

The linear addresses of the kernel's image and of the PMM's structures behind it lead, through the page tables that `_start` has left, to
memory of which `pmm_alloc` gives nothing out, as long as the zones lie apart, what is given back are blocks of the first one, and the
structures are in the part of the memory that is mapped (`kernel_spared`). The page tables are part of the image, so what a client stores
in its blocks does not change them.
-/

namespace LumOS

open Comp Paging

/-- The linear address is in the kernel's image, or in the PMM's structures. -/
def InKernel (k : Kernel) (es : List MmapEntry) (linear : BitVec 32) : Prop :=
  k.kernelStart ≤ linear ∧ linear.toNat < k.kernelEnd.toNat + (structuresSize es).toNat

section

variable {k : Kernel} {boot : Boot} {mbt : MultibootInfo} {es : List MmapEntry} {c : Client}

/-- Below the page of `VGA_MEMORY` the window is at a fixed distance. -/
theorem window_image {linear : BitVec 32} (hlow : virtualKernelOffset ≤ linear) (hhigh : linear.toNat < 0xC03FF000) :
    ∃ physical, window linear = some physical ∧ physical.toNat + virtualKernelOffset.toNat = linear.toNat := by
  have hoffset : virtualKernelOffset.toNat = 0xC0000000 := rfl
  rw [BitVec.le_def, hoffset] at hlow
  have hd : directoryIndex linear = 768 := by
    rw [directoryIndex_eq]
    omega
  have ht : tableIndex linear ≠ 1023 := by
    rw [tableIndex_eq]
    omega
  refine ⟨linear - virtualKernelOffset, by rw [window, if_pos hd, if_neg ht], ?_⟩
  rw [BitVec.toNat_sub, hoffset]
  omega

/-- The memory behind the kernel and its structures is reserved. -/
theorem InKernel.reserved {linear physical : BitVec 32} (h : InKernel k es linear) (hp : Placed k es)
    (hphysical : physical.toNat + virtualKernelOffset.toNat = linear.toNat) : physical.toNat ∈ reservedRange k es := by
  obtain ⟨hlow, hhigh⟩ := h
  have hne : newZones es ≠ [] := fun hnil => hp.usable_ne (List.map_eq_nil_iff.mp hnil)
  have hend := toNat_resEnd hp.fits hne
  have hsize : (structuresSize es).toNat = 4 * cellsOf (newZones es) := toNat_size hp.fits
  have hstart : k.resStart.toNat + virtualKernelOffset.toNat = k.kernelStart.toNat := by
    have hoffset := k.offset_le
    rw [BitVec.le_def] at hoffset
    rw [Kernel.resStart, BitVec.toNat_sub_of_le k.offset_le]
    omega
  rw [BitVec.le_def] at hlow
  change (k.resEnd (structuresSize es)).toNat + _ + 1 = _ at hend
  exact ⟨by omega, by omega⟩

/-- In every run on a memory map of disjoint entries below 4 GiB, whose structures fit and on which no reservation changes the next
zone's start, in which only blocks of the first zone are given back, with the kernel and the PMM's structures in the part of the memory
that `_start` maps: a linear address of the kernel or of the structures is present, and what it leads to is in no block that the client
holds. -/
theorem kernel_spared {phys tables : Mem} (img : BootImage) (hbss : ∀ j < 1024, phys.load (Mem.cell img.cr3 j) = 0)
    (hstart : start img phys = some tables) (hmap : MemoryMap boot mbt es) (hd : DisjointMap es) (hp : Placed k es) (hn : NoSpill k es)
    (hwindow : k.kernelEnd.toNat + (structuresSize es).toNat ≤ 0xC03FF000)
    (hc : (clientSystem k boot mbt ownedByZone).Reachable c) {linear : BitVec 32} (hlinear : InKernel k es linear) :
    ∃ physical, translate tables img.cr3 linear = some physical ∧ ∀ a ∈ c.held, a ≠ 0 → physical.toNat ∉ block a := by
  have hlow : virtualKernelOffset ≤ linear := BitVec.le_trans k.offset_le hlinear.1
  obtain ⟨physical, himage, hphysical⟩ := window_image hlow (Nat.lt_of_lt_of_le hlinear.2 hwindow)
  obtain ⟨tables', hstart', htranslate⟩ := translate_start hbss
  rw [hstart] at hstart'
  refine ⟨physical, ?_, fun a ha hne hin => ?_⟩
  · rw [Option.some.inj hstart', htranslate, himage]
  · obtain ⟨s, ts, hrep, -, -, hout⟩ := client_tracked hmap hd hp hn (fun _ _ _ h => h) hc
    have hpool := (pool_sound hout).2 a (mem_outOf.mpr ⟨ha, hne⟩)
    obtain ⟨-, hdisjoint⟩ := pool_block hp hd hn (client_blocks hmap hp hc) hpool
    exact Set.disjoint_left.mp hdisjoint hin (hlinear.reserved hp hphysical)

end

/-- On `twoZones`, with a block out, the byte at the end of the structures of both zones. -/
theorem kernel_spared_twoZones : ∃ (tables : Mem) (c : Client) (physical : BitVec 32), start smallImage (fun _ => 0) = some tables ∧
    c.held = [0x1000] ∧ translate tables smallImage.cr3 0xC0102047 = some physical ∧ physical.toNat ∉ block 0x1000 := by
  have hbss : ∀ j < 1024, Mem.load (fun _ => 0) (Mem.cell smallImage.cr3 j) = 0 := fun _ _ => rfl
  obtain ⟨tables, hstart, -⟩ := translate_start hbss
  obtain ⟨c, hc, hheld⟩ := exists_session smallKernel ownedByZone (bootOf 0x9000 twoZones) (mapInfo 0x9000 twoZones) 40 [.alloc]
    (fun c => c.held) [0x1000] (by decide)
  obtain ⟨physical, htranslate, hout⟩ := kernel_spared smallImage hbss hstart twoZones_memoryMap
    twoZones_disjoint twoZones_placed twoZones_noSpill (by decide) hc
    (show InKernel smallKernel twoZones 0xC0102047 from ⟨by decide, by decide⟩)
  exact ⟨tables, c, physical, hstart, hheld, htranslate, hout 0x1000 (by rw [hheld]; simp) (by decide)⟩

end LumOS
