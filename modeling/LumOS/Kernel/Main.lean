import LumOS.Boot.Start
import LumOS.Pmm.Safety

/-!
# `kernel_main`

The part of `kernel/kernel.c` that uses the PMM: two blocks are allocated, the first is given back, and a byte is stored to the second
one's address. `pmm_alloc` returns physical addresses, and the store goes through the page tables that `_start` has left, in which no
linear address is mapped to itself: the byte is never stored in the block (`test_store_unbacked`).

The other initialisations of `kernel_main` are left out, and so are its output and the endless loop at its end.
-/

namespace LumOS

open Comp Paging

/-- What `kernel_main` has when it stores: the two addresses, and the memory before and after the second call of `pmm_alloc` and now. -/
structure TestStore where
  t : BitVec 32
  u : BitVec 32
  before : Mem
  after : Mem
  mem : Mem

/-- `kernel_main`, up to `*u = 'c'`. -/
def kernelMain (k : Kernel) (boot : Boot) (mbt : MultibootInfo) (m : Mem) : Comp TestStore := do
  let m ← initPmm k boot mbt m
  let (t, before) ← pmmAlloc k m
  let (u, after) ← pmmAlloc k before
  let m ← pmmFree k after t
  return { t := t, u := u, before := before, after := after, mem := m }

/-- The block that starts at `a` is one that is used in the second memory and was not used in the first. -/
def NewlyUsed (k : Kernel) (m m' : Mem) (a : BitVec 32) : Prop :=
  ∃ q i, InList m k.memoryZones q ∧ i < (zoneField m q .length).toNat ∧ zoneBit m q i = false ∧ zoneBit m' q i = true ∧
    a = getAddress (zoneField m q .start) (BitVec.ofNat 32 i)

/-- The address that is stored to is present in the page tables, and its physical address is in the block that the second call of
`pmm_alloc` has taken. -/
def TestStore.Backed (s : TestStore) (k : Kernel) (tables : Mem) (cr3 : BitVec 32) : Prop :=
  ∃ a physical, NewlyUsed k s.before s.after a ∧ translate tables cr3 s.u = some physical ∧
    a.toNat ≤ physical.toNat ∧ physical.toNat < a.toNat + 4096

/-! ## The block that `pmm_alloc` takes -/

/-- The second zone is the first with no other block used than the one at `a`. -/
structure Zone.Grown (a : BitVec 32) (z z' : Zone) : Prop where
  cells : z'.cells = z.cells
  used : ∀ i, z.used i = false → z'.used i = true → a = z.address i

theorem Zone.Grown.refl (a : BitVec 32) (z : Zone) : Zone.Grown a z z where
  cells := rfl
  used := by
    intro i hu hu'
    rw [hu] at hu'
    cases hu'

/-- `pmm_alloc` takes no other block than the one it returns. -/
theorem AllocStep.grown {zs zs' : List Zone} {a : BitVec 32} (h : AllocStep zs a zs') : List.Forall₂ (Zone.Grown a) zs zs' := by
  have hrefl : ∀ ys : List Zone, List.Forall₂ (Zone.Grown a) ys ys := fun ys => List.forall₂_same.mpr (fun y _ => .refl a y)
  cases h with
  | noZone _ => exact hrefl _
  | noBlock _ _ _ => exact hrefl _
  | @block pre z suf i _ _ _ _ _ =>
    refine List.rel_append (hrefl pre) (.cons ⟨rfl, ?_⟩ (hrefl suf))
    intro j hu hu'
    have htaken : (decide (j = i) || z.used j) = true := hu'
    rw [hu, Bool.or_false, decide_eq_true_eq] at htaken
    rw [htaken]

theorem grown_middle {a : BitVec 32} {z : Zone} {suf : List Zone} : ∀ {pre zs' : List Zone},
    List.Forall₂ (Zone.Grown a) (pre ++ z :: suf) zs' →
      ∃ pre' z' suf', zs' = pre' ++ z' :: suf' ∧ cellsOf pre' = cellsOf pre ∧ Zone.Grown a z z' := by
  intro pre
  induction pre with
  | nil =>
    intro zs' h
    cases h with
    | cons hz _ => exact ⟨[], _, _, rfl, rfl, hz⟩
  | cons y pre ih =>
    intro zs' h
    cases h with
    | cons hy h =>
      obtain ⟨pre', z', suf', rfl, hcells, hz⟩ := ih h
      exact ⟨_ :: pre', z', suf', rfl, by rw [cellsOf, cellsOf, hy.cells, hcells], hz⟩

section

variable {k : Kernel} {boot : Boot} {mbt : MultibootInfo} {es : List MmapEntry} {m m' : Mem} {zs : List Zone} {a : BitVec 32}

/-- The block that `pmm_alloc` returns is the one it takes. -/
theorem Shaped.newlyUsed (hs : Shaped k es zs) (hp : Placed k es) (hz : ZonesAt k.kernelEnd m 0 zs)
    (h : Returns (LumOS.pmmAlloc k m) (a, m')) (ha : a ≠ 0) : NewlyUsed k m m' a ∧ ∀ b, NewlyUsed k m m' b → b = a := by
  obtain ⟨zs', hstep, hz'⟩ := hs.pmmAlloc hp hz h
  have hin : ∀ q, InList m k.memoryZones q ↔ ∃ pre z suf, zs = pre ++ z :: suf ∧ q = Mem.cell k.kernelEnd (0 + cellsOf pre) := by
    intro q
    rw [k.memoryZones_eq (hs.ne hp)]
    exact inList_iff (hs.fits hp) hz (Nat.le_of_eq (Nat.zero_add _))
  constructor
  · generalize hys : zs = ys at hstep
    cases hstep with
    | noZone _ => exact absurd rfl ha
    | noBlock _ _ _ => exact absurd rfl ha
    | @block pre z suf i _ _ hi hu _ =>
      have hl := z.length_le_bits
      have hza := (hys ▸ hz).middle
      have hza' := hz'.middle
      refine ⟨_, i, (hin _).mpr ⟨pre, z, suf, hys, rfl⟩, ?_, ?_, ?_, ?_⟩
      · rw [hza.header .length]
        exact hi
      · rw [hza.zoneBit_eq (by omega), hu]
      · rw [hza'.zoneBit_eq (show i < 32 * z.bitmapWords.toNat by omega)]
        show (decide (i = i) || z.used i) = true
        rw [decide_eq_true rfl, Bool.true_or]
      · rw [hza.header .start]
        rfl
  · rintro b ⟨q, i, hq, hi, hu, hu', rfl⟩
    obtain ⟨pre, z, suf, rfl, rfl⟩ := (hin q).mp hq
    obtain ⟨pre', z', suf', rfl, hcells, hgrown⟩ := grown_middle hstep.grown
    have hl := z.length_le_bits
    have hwords : z'.bitmapWords.toNat = z.bitmapWords.toNat := Nat.add_left_cancel hgrown.cells
    have hza := hz.middle
    have hza' := hz'.middle
    rw [hcells] at hza'
    rw [hza.header .length] at hi
    change i < z.length.toNat at hi
    rw [hza.zoneBit_eq (by omega)] at hu
    rw [hza'.zoneBit_eq (by omega)] at hu'
    rw [hgrown.used i hu hu', hza.header .start]
    rfl

/-- The byte is not stored in the block: on every memory map on which `kernel_main` comes to the store with an address that is not
`NULL`, the second call of `pmm_alloc` has taken the block at `u` and no other, and the page tables lead from `u` to nothing or to an
address below it. -/
theorem test_store_unbacked {mbt : MultibootInfo} {m₀ phys tables : Mem} {s : TestStore} (img : BootImage)
    (hbss : ∀ j < 1024, phys.load (Mem.cell img.cr3 j) = 0) (hstart : start img phys = some tables)
    (hmap : MemoryMap boot mbt es) (hp : Placed k es) (hr : Returns (kernelMain k boot mbt m₀) s) (hu : s.u ≠ 0) :
    NewlyUsed k s.before s.after s.u ∧ ¬s.Backed k tables img.cr3 := by
  unfold kernelMain at hr
  obtain ⟨m₁, hinit, hr⟩ := returns_bind.mp hr
  obtain ⟨⟨t, before⟩, hfirst, hr⟩ := returns_bind.mp hr
  obtain ⟨⟨u, after⟩, hsecond, hr⟩ := returns_bind.mp hr
  obtain ⟨m₃, _, hr⟩ := returns_bind.mp hr
  obtain rfl := returns_pure.mp hr
  -- the zones before the second call
  have hshaped : Shaped k es (initialZones k es) := rfl
  obtain ⟨zs, hstep, hz⟩ := hshaped.pmmAlloc hp (initPmm_returns hmap hp.usable_ne hp.fits hinit).2 hfirst
  obtain ⟨hnew, hunique⟩ := (hshaped.alloc hstep).newlyUsed hp hz hsecond hu
  refine ⟨hnew, ?_⟩
  rintro ⟨a, physical, ha, htranslate, hle, _⟩
  obtain rfl := hunique a ha
  obtain ⟨tables', hstart', hwindow⟩ := translate_start hbss
  rw [hstart] at hstart'
  rw [Option.some.inj hstart', hwindow] at htranslate
  exact absurd (window_lt htranslate) (Nat.not_lt.mpr hle)

end

theorem smallImage_aligned : Aligned 0xC0100000 := by decide

theorem smallImage_offset_le : virtualKernelOffset ≤ 0xC0100000 := by decide

theorem smallImage_mapped : (0xC0100000 : BitVec 32).toNat + 8192 ≤ 0xC03FF000 := by decide

/-- The page structures are the first two pages of the kernel. -/
def smallImage : BootImage := ⟨0xC0100000, smallImage_aligned, smallImage_offset_le, smallImage_mapped⟩

/-- On `twoZones` the block at 0x3800 is taken. -/
theorem test_store_unbacked_twoZones : ∃ tables s, start smallImage (fun _ => 0) = some tables ∧
    Returns (kernelMain smallKernel (bootOf 0x9000 twoZones) (mapInfo 0x9000 twoZones) (fun _ => 0)) s ∧ s.t = 0x1000 ∧
      s.u = 0x3800 ∧ NewlyUsed smallKernel s.before s.after s.u ∧ ¬s.Backed smallKernel tables smallImage.cr3 := by
  have hbss : ∀ j < 1024, Mem.load (fun _ => 0) (Mem.cell smallImage.cr3 j) = 0 := fun _ _ => rfl
  obtain ⟨tables, hstart, _⟩ := translate_start hbss
  obtain ⟨s, hs, hx⟩ := exists_returns_of_run
    (c := kernelMain smallKernel (bootOf 0x9000 twoZones) (mapInfo 0x9000 twoZones) (fun _ => 0)) (n := 40)
    (f := fun s => [s.t, s.u]) (x := [0x1000, 0x3800]) (by decide)
  simp only [List.cons.injEq, and_true] at hx
  have hu : s.u ≠ 0 := by
    rw [hx.2]
    decide
  exact ⟨tables, s, hstart, hs, hx.1, hx.2,
    test_store_unbacked smallImage hbss hstart twoZones_memoryMap twoZones_placed hs hu⟩

/-- There the linear address 0x3800 is not present. -/
theorem test_store_faults : MemoryMap (bootOf 0x9000 twoZones) (mapInfo 0x9000 twoZones) twoZones ∧ DisjointMap twoZones ∧
    ∃ tables s, start smallImage (fun _ => 0) = some tables ∧
      Returns (kernelMain smallKernel (bootOf 0x9000 twoZones) (mapInfo 0x9000 twoZones) (fun _ => 0)) s ∧ s.t = 0x1000 ∧
      s.u = 0x3800 ∧ translate tables smallImage.cr3 s.u = none ∧ ¬s.Backed smallKernel tables smallImage.cr3 := by
  have hbss : ∀ j < 1024, Mem.load (fun _ => 0) (Mem.cell smallImage.cr3 j) = 0 := fun _ _ => rfl
  obtain ⟨tables, hstart, hwindow⟩ := translate_start hbss
  obtain ⟨s, hs, hx⟩ := exists_returns_of_run
    (c := kernelMain smallKernel (bootOf 0x9000 twoZones) (mapInfo 0x9000 twoZones) (fun _ => 0)) (n := 40)
    (f := fun s => [s.t, s.u]) (x := [0x1000, 0x3800]) (by decide)
  simp only [List.cons.injEq, and_true] at hx
  have hnone : translate tables smallImage.cr3 s.u = none := by
    rw [hwindow, hx.2]
    decide
  refine ⟨twoZones_memoryMap, twoZones_disjoint, tables, s, hstart, hs, hx.1, hx.2, hnone, ?_⟩
  rintro ⟨_, _, _, htranslate, _⟩
  rw [hnone] at htranslate
  cases htranslate

end LumOS
