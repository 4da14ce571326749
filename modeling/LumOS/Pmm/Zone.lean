import LumOS.Pmm.Bitmap

/-!
# Zones and their lists in memory

A `Zone` is what a header and the bitmap behind it say: the header's fields and, for each block, whether it is used. Its bitmap
covers its blocks and its padding is set; the structure carries both, so that no list of zones lacks them. `ZoneAt` says that a
zone is in memory at a cell, and `ZonesAt` that a list of zones is, back to back and linked by `next_zone` in the list's order.

The search along a list (`search_ensures`) is the loop with which `pmm_alloc` and `pmm_free` choose a zone.
-/

namespace LumOS

open Comp

/-- A zone of the physical memory: the header but for its two pointers, and the bits of the bitmap. -/
structure Zone where
  start : BitVec 32
  end_ : BitVec 32
  length : BitVec 32
  free : BitVec 32
  lastOffset : BitVec 32
  bitmapWords : BitVec 32
  used : Nat → Bool
  /-- No more blocks than the address space has. -/
  length_le : length.toNat ≤ 2 ^ 20
  /-- The bitmap has a bit for each block. -/
  length_le_bits : length.toNat ≤ 32 * bitmapWords.toNat
  /-- The bits that stand for no block are set. -/
  padded : ∀ i, length.toNat ≤ i → used i = true

namespace Zone

/-- The cells a zone takes: eight for the header and one for each word of the bitmap. -/
def cells (z : Zone) : Nat := 8 + z.bitmapWords.toNat

/-- The address of a block. -/
def address (z : Zone) (i : Nat) : BitVec 32 := getAddress z.start (BitVec.ofNat 32 i)

/-- The header of a zone at cell `h`, whose successor in the list is at `next`. -/
def header (z : Zone) (base : BitVec 32) (h : Nat) (next : BitVec 32) : Field → BitVec 32
  | .start => z.start
  | .end_ => z.end_
  | .length => z.length
  | .free => z.free
  | .lastOffset => z.lastOffset
  | .bitmapWords => z.bitmapWords
  | .bitmap => Mem.cell base (h + 8)
  | .nextZone => next

/-- The zone with another count of free blocks. -/
def withFree (z : Zone) (v : BitVec 32) : Zone := { z with free := v }

/-- The zone with the blocks that satisfy `p` used as well. -/
def reserve (z : Zone) (p : Nat → Bool) : Zone :=
  { z with
    used := fun j => p j || z.used j
    padded := fun j hj => by rw [z.padded j hj, Bool.or_true] }

/-- The zone with a block taken. -/
def take (z : Zone) (i : Nat) : Zone := (z.reserve (fun j => decide (j = i))).withFree (z.free - 1)

/-- The zone with a block not used. -/
def clear (z : Zone) (i : Nat) (hi : i < z.length.toNat) : Zone :=
  { z with
    used := fun j => !decide (j = i) && z.used j
    padded := fun j hj => by
      have hne : ¬j = i := by omega
      simp [hne, z.padded j hj] }

/-- The zone with a block given back. -/
def release (z : Zone) (i : Nat) (hi : i < z.length.toNat) : Zone := (z.clear i hi).withFree (z.free + 1)

@[simp] theorem withFree_cells (z : Zone) (v : BitVec 32) : (z.withFree v).cells = z.cells := rfl

@[simp] theorem reserve_cells (z : Zone) (p : Nat → Bool) : (z.reserve p).cells = z.cells := rfl

@[simp] theorem clear_cells (z : Zone) (i : Nat) (hi : i < z.length.toNat) : (z.clear i hi).cells = z.cells := rfl

@[simp] theorem take_cells (z : Zone) (i : Nat) : (z.take i).cells = z.cells := rfl

@[simp] theorem release_cells (z : Zone) (i : Nat) (hi : i < z.length.toNat) : (z.release i hi).cells = z.cells := rfl

theorem address_toNat (z : Zone) (i : BitVec 32) : z.address i.toNat = getAddress z.start i := by
  rw [address, BitVec.ofNat_toNat, BitVec.setWidth_eq]

theorem eight_le_cells (z : Zone) : 8 ≤ z.cells := Nat.le_add_right _ _

end Zone

/-- The cells a list of zones takes. -/
def cellsOf : List Zone → Nat
  | [] => 0
  | z :: zs => z.cells + cellsOf zs

@[simp] theorem cellsOf_append (zs ys : List Zone) : cellsOf (zs ++ ys) = cellsOf zs + cellsOf ys := by
  induction zs with
  | nil => simp [cellsOf]
  | cons z zs ih => simp [cellsOf, ih, Nat.add_assoc]

/-- The structures of a zone take some memory. -/
theorem eight_le_cellsOf {zs : List Zone} (hne : zs ≠ []) : 8 ≤ cellsOf zs := by
  cases zs with
  | nil => exact absurd rfl hne
  | cons z zs =>
    have := z.eight_le_cells
    simp only [cellsOf]
    omega

/-- The pointer to a list of zones at cell `h`: `NULL` when there is none. -/
def ptrTo (base : BitVec 32) (h : Nat) : List Zone → BitVec 32
  | [] => 0
  | _ :: _ => Mem.cell base h

/-- `memory_zones` is the end of the kernel. -/
theorem Kernel.memoryZones_cell (k : Kernel) : k.memoryZones = Mem.cell k.kernelEnd 0 := (Mem.cell_zero _).symm

/-- The list is never empty. -/
theorem Kernel.memoryZones_ne_zero (k : Kernel) : k.memoryZones ≠ 0 := by
  have h1 := k.offset_le
  have h2 := k.start_le
  simp only [Kernel.memoryZones, virtualKernelOffset] at h1 ⊢
  bv_omega

/-- The list that starts at `memory_zones` starts at the end of the kernel. -/
theorem Kernel.memoryZones_eq (k : Kernel) {zs : List Zone} (hne : zs ≠ []) : k.memoryZones = ptrTo k.kernelEnd 0 zs := by
  cases zs with
  | nil => exact absurd rfl hne
  | cons z zs => exact k.memoryZones_cell

/-- A field of the zone at a cell is a cell. -/
theorem zoneField_cell (m : Mem) (base : BitVec 32) (h : Nat) (f : Field) :
    zoneField m (Mem.cell base h) f = m.load (Mem.cell base (h + f.index)) := by
  rw [zoneField, Mem.cell_add, ← Mem.cell]

theorem setZoneField_cell (m : Mem) (base : BitVec 32) (h : Nat) (f : Field) (v : BitVec 32) :
    setZoneField m (Mem.cell base h) f v = m.store (Mem.cell base (h + f.index)) v := by
  rw [setZoneField, Mem.cell_add, ← Mem.cell]

theorem Field.index_lt (f : Field) : f.index < 8 := by
  cases f <;> decide

theorem Field.index_inj {f g : Field} (h : f.index = g.index) : f = g := by
  cases f <;> cases g <;> first | rfl | exact absurd h (by decide)

/-- A write to a field, seen from the fields of the same zone. -/
theorem zoneField_setZoneField (m : Mem) (zone : BitVec 32) (f g : Field) (v : BitVec 32) :
    zoneField (setZoneField m zone g v) zone f = if f = g then v else zoneField m zone f := by
  have hf := f.index_lt
  have hg := g.index_lt
  simp only [zoneField, setZoneField]
  rw [Mem.load_store_cell m zone v (by simp only [Mem.cells]; omega) (by simp only [Mem.cells]; omega)]
  by_cases he : f = g
  · rw [if_pos he, if_pos (by rw [he])]
  · rw [if_neg he, if_neg]
    intro hi
    exact he (Field.index_inj (by omega))

/-- A write to a field leaves the bits outside of the field's cell. -/
theorem bit_setZoneField {base : BitVec 32} {m : Mem} {h : Nat} {f : Field} {v : BitVec 32} {n : Nat}
    (hh : h + 8 ≤ Mem.cells) (hn : n < 32 * Mem.cells) (hne : n / 32 ≠ h + f.index) :
    (setZoneField m (Mem.cell base h) f v).bit base n = m.bit base n := by
  have hf := f.index_lt
  rw [setZoneField_cell, Mem.bit_store_cell m base v (by omega) hn, if_neg hne]

/-- A zone is in memory at cell `h`, its successor at `next`: the fields of its header and the bits of its bitmap. -/
structure ZoneAt (base : BitVec 32) (m : Mem) (h : Nat) (z : Zone) (next : BitVec 32) : Prop where
  header : ∀ f, zoneField m (Mem.cell base h) f = z.header base h next f
  bits : ∀ i < 32 * z.bitmapWords.toNat, m.bit base (32 * (h + 8) + i) = z.used i

/-- A list of zones is in memory from cell `h` on. -/
def ZonesAt (base : BitVec 32) (m : Mem) (h : Nat) : List Zone → Prop
  | [] => True
  | z :: zs => ZoneAt base m h z (ptrTo base (h + z.cells) zs) ∧ ZonesAt base m (h + z.cells) zs

/-- The fields of the first zone are read at `memory_zones`. -/
theorem ZonesAt.first {k : Kernel} {z : Zone} {suf : List Zone} {m : Mem} (hz : ZonesAt k.kernelEnd m 0 (z :: suf)) (f : Field) :
    zoneField m k.memoryZones f = z.header k.kernelEnd 0 (ptrTo k.kernelEnd (0 + z.cells) suf) f := by
  rw [k.memoryZones_cell, hz.1.header f]

/-- The memory the zones take ends at or below the end of the address space. The memory is the whole of the 32-bit address space here:
page faults are left out, although `boot.S` maps 4 MiB only. -/
def Fits (base : BitVec 32) (n : Nat) : Prop := 0 < base.toNat ∧ base.toNat + 4 * n ≤ 2 ^ 32

theorem Fits.lt_cells {base : BitVec 32} {n : Nat} (h : Fits base n) : n < Mem.cells := by
  have h1 := h.1
  have h2 := h.2
  simp only [Mem.cells]
  omega

/-- No zone that fits is at `NULL`. -/
theorem Fits.cell_ne_zero {base : BitVec 32} {n h : Nat} (hf : Fits base n) (hh : h < n) : Mem.cell base h ≠ 0 := by
  intro h0
  have h1 := hf.1
  have h2 := hf.2
  have hcell : (Mem.cell base h).toNat = base.toNat + 4 * h := Mem.toNat_cell (by omega)
  rw [h0] at hcell
  have hz : (0 : BitVec 32).toNat = 0 := rfl
  omega

section

variable {base : BitVec 32} {m m' : Mem}

/-- A zone is in any memory that agrees with the first on the zone's bits. -/
theorem ZoneAt.congr {h : Nat} {z : Zone} {next : BitVec 32} (hz : ZoneAt base m h z next)
    (hm : ∀ n, 32 * h ≤ n → n < 32 * (h + z.cells) → m'.bit base n = m.bit base n) : ZoneAt base m' h z next := by
  have h8 := z.eight_le_cells
  refine ⟨fun f => ?_, fun i hi => ?_⟩
  · rw [← hz.header f, zoneField_cell, zoneField_cell]
    have hf := f.index_lt
    exact Mem.load_cell_ext (fun n h1 h2 => hm n (by omega) (by omega))
  · rw [← hz.bits i hi]
    exact hm _ (by omega) (by simp only [Zone.cells]; omega)

/-- A list of zones is in any memory that agrees with the first on the list's bits. -/
theorem ZonesAt.congr {zs : List Zone} : ∀ {h : Nat}, ZonesAt base m h zs →
    (∀ n, 32 * h ≤ n → n < 32 * (h + cellsOf zs) → m'.bit base n = m.bit base n) → ZonesAt base m' h zs := by
  induction zs with
  | nil => intro h _ _; trivial
  | cons z zs ih =>
    intro h hz hm
    simp only [cellsOf] at hm
    refine ⟨hz.1.congr (fun n h1 h2 => hm n h1 (by omega)), ih hz.2 (fun n h1 h2 => hm n ?_ (by omega))⟩
    omega

/-- One zone of a list in memory. -/
theorem ZonesAt.middle {z : Zone} {suf : List Zone} : ∀ {pre : List Zone} {h : Nat}, ZonesAt base m h (pre ++ z :: suf) →
    ZoneAt base m (h + cellsOf pre) z (ptrTo base (h + cellsOf pre + z.cells) suf) := by
  intro pre
  induction pre with
  | nil => intro h hz; exact hz.1
  | cons y pre ih =>
    intro h hz
    have := ih hz.2
    simpa only [cellsOf, ← Nat.add_assoc] using this

/-- The pointer to a list depends only on whether the list is empty. -/
theorem ptrTo_append_cons (h : Nat) (pre suf suf' : List Zone) (z z' : Zone) :
    ptrTo base h (pre ++ z :: suf) = ptrTo base h (pre ++ z' :: suf') := by
  cases pre <;> rfl

/-- A list in memory with one zone replaced: when the memory changed only in that zone's cells, and there it holds another zone
with the same place and the same successor, it holds the list with the zone replaced. -/
theorem ZonesAt.update {z z' : Zone} {suf : List Zone} (hc : z'.cells = z.cells) :
    ∀ (pre : List Zone) {h : Nat}, ZonesAt base m h (pre ++ z :: suf) →
    ZoneAt base m' (h + cellsOf pre) z' (ptrTo base (h + cellsOf pre + z.cells) suf) →
    (∀ n, n < 32 * (h + cellsOf pre) ∨ 32 * (h + cellsOf pre + z.cells) ≤ n →
      n < 32 * (h + cellsOf (pre ++ z :: suf)) → m'.bit base n = m.bit base n) →
    ZonesAt base m' h (pre ++ z' :: suf) := by
  intro pre
  induction pre with
  | nil =>
    intro h hz hz' hm
    simp only [cellsOf, List.nil_append, Nat.add_zero] at hz' hm
    refine ⟨by rw [hc]; exact hz', ?_⟩
    rw [hc]
    exact ZonesAt.congr hz.2 (fun n h1 h2 => hm n (by omega) (by omega))
  | cons y pre ih =>
    intro h hz hz' hm
    simp only [List.cons_append, cellsOf, ← Nat.add_assoc] at hz' hm
    refine ⟨?_, ih hz.2 hz' (fun n h1 h2 => hm n h1 h2)⟩
    show ZoneAt base m' h y (ptrTo base (h + y.cells) (pre ++ z' :: suf))
    rw [ptrTo_append_cons _ pre suf suf z' z]
    exact hz.1.congr (fun n h1 h2 => hm n (by omega) (by rw [cellsOf_append]; simp only [cellsOf]; omega))

/-- The search along a list of zones, for a test on a zone in memory that reads `p`: it ends at the first zone that fails `p`, or
with `NULL` when none does. -/
theorem search_ensures {n : Nat} (hfit : Fits base n) (test : BitVec 32 → Bool) (p : Zone → Bool)
    (htest : ∀ h z next, ZoneAt base m h z next → test (Mem.cell base h) = p z) {zs : List Zone} :
    ∀ {h : Nat}, ZonesAt base m h zs → h + cellsOf zs ≤ n →
    Ensures (loop (fun zone => zone ≠ 0 ∧ test zone = true) (fun zone => pure (zoneField m zone .nextZone)) (ptrTo base h zs))
      (fun ptr => (ptr = 0 ∧ ∀ z ∈ zs, p z = true) ∨
        ∃ pre z suf, zs = pre ++ z :: suf ∧ (∀ y ∈ pre, p y = true) ∧ p z = false ∧
          ptr = Mem.cell base (h + cellsOf pre)) := by
  induction zs with
  | nil =>
    intro h _ _
    exact ⟨0, returns_loop_exit (by simp [ptrTo]), Or.inl ⟨rfl, by simp⟩⟩
  | cons z zs ih =>
    intro h hz hn
    have h8 := z.eight_le_cells
    simp only [cellsOf] at hn
    have hne : ptrTo base h (z :: zs) ≠ 0 := hfit.cell_ne_zero (by omega)
    have hp : test (ptrTo base h (z :: zs)) = p z := htest h z _ hz.1
    have hnext : zoneField m (ptrTo base h (z :: zs)) .nextZone = ptrTo base (h + z.cells) zs := hz.1.header .nextZone
    cases hpz : p z with
    | false =>
      refine ⟨_, returns_loop_exit (by simp [hp, hpz]), Or.inr ⟨[], z, zs, rfl, by simp, hpz, ?_⟩⟩
      simp [ptrTo, cellsOf]
    | true =>
      obtain ⟨ptr, hret, hq⟩ := ih hz.2 (by omega)
      rw [← hnext] at hret
      refine ⟨ptr, returns_loop_turn (decide_eq_true ⟨hne, hp.trans hpz⟩) (returns_pure.mpr rfl) hret, ?_⟩
      rcases hq with ⟨h0, hall⟩ | ⟨pre, y, suf, rfl, hpre, hy, hptr⟩
      · exact Or.inl ⟨h0, by simpa [hpz] using hall⟩
      · refine Or.inr ⟨z :: pre, y, suf, rfl, by simpa [hpz] using hpre, hy, ?_⟩
        rw [hptr, cellsOf, Nat.add_assoc]

end

end LumOS
