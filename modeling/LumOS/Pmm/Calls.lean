import LumOS.Pmm.Counters
import LumOS.Pmm.Exact

/-!
# Any calls of `pmm_alloc` and `pmm_free`

`callSystem` is the PMM with callers that keep to no rule but one: what they give to `pmm_free` satisfies `ok` there. `pmm_free` adds one
to the counter of the first zone whether the block was used or not, so that the `surplus` of the counter over the unused blocks grows with
each block that was not. Together with what `init_pmm` leaves there (`surplus_builtFrom`) that says when the counter is right:
in every run of calls exactly when the first zone has no block used after `init_pmm` and every block given back is used
(`counter_bounded_iff`).
-/

namespace LumOS

open Comp

/-! ## The calls -/

/-- A call of `pmm_alloc`, or of `pmm_free` with an address that satisfies `ok`. -/
inductive CallStep (k : Kernel) (ok : Mem → BitVec 32 → Prop) : Mem → Mem → Prop where
  | alloc {m m' : Mem} {a : BitVec 32} (h : Returns (pmmAlloc k m) (a, m')) : CallStep k ok m m'
  | free {m m' : Mem} {a : BitVec 32} (hok : ok m a) (h : Returns (pmmFree k m a) m') : CallStep k ok m m'

/-- The PMM with such calls, from `init_pmm` on. -/
def callSystem (k : Kernel) (boot : Boot) (mbt : MultibootInfo) (ok : Mem → BitVec 32 → Prop) : System Mem where
  init m := ∃ m₀, Returns (initPmm k boot mbt m₀) m
  step := CallStep k ok

/-- The address is in a block of the first zone of the list. -/
def InFirst (k : Kernel) (m : Mem) (a : BitVec 32) : Prop :=
  inZone (zoneField m k.memoryZones .start) (zoneField m k.memoryZones .length) a

instance (k : Kernel) (m : Mem) (a : BitVec 32) : Decidable (InFirst k m a) :=
  inferInstanceAs (Decidable (inZone (zoneField m k.memoryZones .start) (zoneField m k.memoryZones .length) a))

/-- The address is in a block of the first zone of the list, and the block's bit is set. -/
def UsedInFirst (k : Kernel) (m : Mem) (a : BitVec 32) : Prop :=
  InFirst k m a ∧
    testBit m (zoneField m k.memoryZones .bitmap) (getOffset (zoneField m k.memoryZones .start) a) = true

instance (k : Kernel) (m : Mem) (a : BitVec 32) : Decidable (UsedInFirst k m a) :=
  inferInstanceAs (Decidable (InFirst k m a ∧ _))

section

variable {k : Kernel} {ok : Mem → BitVec 32 → Prop} [∀ m a, Decidable (ok m a)]

variable (k) (ok) in
/-- One call, when it is one that may be made and its loops take at most `n` turns. -/
def Call.run (n : Nat) (m : Mem) : Call → Option Mem
  | .alloc => ((pmmAlloc k m).run n).map Prod.snd
  | .free a => if ok m a then (pmmFree k m a).run n else none

theorem Call.step_of_run {n : Nat} {m m' : Mem} {call : Call} (h : call.run k ok n m = some m') : CallStep k ok m m' := by
  cases call with
  | alloc =>
    obtain ⟨r, hr, rfl⟩ := Option.map_eq_some_iff.mp h
    exact .alloc ⟨n, hr⟩
  | free a =>
    rw [Call.run] at h
    by_cases hok : ok m a
    · rw [if_pos hok] at h
      exact .free hok ⟨n, h⟩
    · rw [if_neg hok] at h
      cases h

variable (k) (ok) in
/-- A memory that `init_pmm` and a list of calls end in, from a memory of zeros, with what is read off it. -/
theorem exists_calls (boot : Boot) (mbt : MultibootInfo) (n : Nat) (calls : List Call) {β : Type} (f : Mem → β) (x : β)
    (h : (((initPmm k boot mbt (fun _ => 0)).run n).bind (fun m => calls.foldlM (fun m call => call.run k ok n m) m)).map f =
      some x) : ∃ m, (callSystem k boot mbt ok).Reachable m ∧ f m = x := by
  obtain ⟨m, hm, hx⟩ := Option.map_eq_some_iff.mp h
  obtain ⟨m₁, h₁, hcalls⟩ := Option.bind_eq_some_iff.mp hm
  have hstart : (callSystem k boot mbt ok).Reachable m₁ := .init ⟨_, n, h₁⟩
  clear h hm h₁
  refine ⟨m, ?_, hx⟩
  induction calls generalizing m₁ with
  | nil =>
    obtain rfl : m₁ = m := Option.some.inj hcalls
    exact hstart
  | cons call calls ih =>
    rw [List.foldlM_cons] at hcalls
    obtain ⟨m₂, h1, h2⟩ := Option.bind_eq_some_iff.mp hcalls
    exact ih m₂ h2 (hstart.step (Call.step_of_run h1))

end

/-! ## The surplus of a counter -/

/-- By how much a zone's counter is above the number of its unused blocks. -/
def Zone.surplus (z : Zone) : Int := z.free.toNat - z.unset

theorem Zone.surplus_take {z : Zone} {i : Nat} (hf : z.free ≠ 0) (hi : i < z.length.toNat) (hu : z.used i = false) :
    (z.take i).surplus = z.surplus := by
  have hunset := z.unset_take hi hu
  have hfree : (z.free - 1).toNat + 1 = z.free.toNat := by
    have h0 : (0 : BitVec 32).toNat = 0 := rfl
    have h1 : (1 : BitVec 32).toNat = 1 := rfl
    bv_omega
  have hcount : (z.take i).free = z.free - 1 := rfl
  rw [surplus, surplus, hcount]
  omega

/-- Giving back a used block keeps the surplus. -/
theorem Zone.surplus_release {z : Zone} {i : Nat} (hi : i < z.length.toNat) (hu : z.used i = true)
    (hf : z.free.toNat + 1 < 2 ^ 32) : (z.release i hi).surplus = z.surplus := by
  have hunset := z.unset_release hi hu
  have hcount : (z.release i hi).free = z.free + 1 := rfl
  have h1 : (1 : BitVec 32).toNat = 1 := rfl
  rw [surplus, surplus, hcount, BitVec.toNat_add, h1, Nat.mod_eq_of_lt hf]
  omega

/-- Giving back a block that is not used leaves the bitmap, and raises the counter. -/
theorem Zone.surplus_release_unused {z : Zone} {i : Nat} (hi : i < z.length.toNat) (hu : z.used i = false)
    (hf : z.free.toNat + 1 < 2 ^ 32) : (z.release i hi).surplus = z.surplus + 1 := by
  have hsame : (z.release i hi).used = z.used := by
    funext j
    show (!decide (j = i) && z.used j) = z.used j
    by_cases hj : j = i
    · rw [hj, hu, Bool.and_false]
    · rw [decide_eq_false hj]
      rfl
  have hunset : (z.release i hi).unset = z.unset := by
    have hlength : (z.release i hi).length = z.length := rfl
    rw [unset, unset, hsame, hlength]
  have hcount : (z.release i hi).free = z.free + 1 := rfl
  have h1 : (1 : BitVec 32).toNat = 1 := rfl
  rw [surplus, surplus, hcount, hunset, BitVec.toNat_add, h1, Nat.mod_eq_of_lt hf]
  omega

/-- `pmm_alloc` changes no surplus. -/
theorem AllocStep.surplus {zs zs' : List Zone} {a : BitVec 32} (h : AllocStep zs a zs') :
    zs'.map Zone.surplus = zs.map Zone.surplus := by
  cases h with
  | noZone _ => rfl
  | noBlock _ _ _ => rfl
  | block _ hz hi hu _ => rw [List.map_append, List.map_cons, Zone.surplus_take hz hi hu, ← List.map_cons, ← List.map_append]

/-- No block of a marked entry's zone is used after `init_pmm`: it does not start at address 0, and the bits that are set for the reserved
range begin behind its blocks. -/
def ClearAtInit (k : Kernel) (es : List MmapEntry) (p : MmapEntry × Bool) : Prop :=
  p.1.baseLow ≠ 0 ∧ ((markedZone p).overlaps k.resStart (k.resEnd (structuresSize es)) = true →
    p.1.blocks ≤ ((markedZone p).startbit k.resStart).toNat)

instance (k : Kernel) (es : List MmapEntry) (p : MmapEntry × Bool) : Decidable (ClearAtInit k es p) :=
  inferInstanceAs (Decidable (_ ∧ (_ → _)))

/-- After `init_pmm` the surplus of a zone is the number of its used blocks. -/
theorem surplus_builtFrom {k : Kernel} {es : List MmapEntry} (hp : Placed k es) {p : MmapEntry × Bool} (hb : 1 ≤ p.1.blocks) :
    0 ≤ (builtFrom k es p).surplus ∧ ((builtFrom k es p).surplus = 0 ↔ ClearAtInit k es p) := by
  have hfree : (builtFrom k es p).free = (builtFrom k es p).length := by
    rw [builtFrom_length, builtFrom, Zone.reserved_free]
    obtain ⟨e, b⟩ := p
    cases b <;> rfl
  have hsum := (builtFrom k es p).unset_add_taken
  have hsurplus : (builtFrom k es p).surplus = (builtFrom k es p).taken := by
    rw [Zone.surplus, hfree]
    omega
  refine ⟨by omega, ?_⟩
  rw [hsurplus, Int.natCast_eq_zero, Zone.taken_eq_zero, toNat_builtFrom_length]
  constructor
  · intro hall
    have hclear : ∀ i < p.1.blocks, ¬(builtFrom k es p).used i = true := by
      intro i hi
      rw [hall i hi]
      exact Bool.false_ne_true
    refine ⟨fun h0 => hclear 0 hb ((builtFrom_used_iff hb).mpr (Or.inl ⟨h0, rfl⟩)), fun ho => ?_⟩
    by_contra hlt
    rw [Nat.not_le] at hlt
    have hrange := (markedZone_rangeOk hp hb ho).1
    exact hclear _ hlt ((builtFrom_used_iff hlt).mpr (Or.inr ⟨ho, Nat.le_refl _, by omega⟩))
  · rintro ⟨hbase, hover⟩ i hi
    by_contra hu
    rw [Bool.not_eq_false, builtFrom_used_iff hi] at hu
    rcases hu with ⟨h0, _⟩ | ⟨ho, hstart, _⟩
    · exact hbase h0
    · have := hover ho
      omega

/-! ## The zones in a run of calls -/

/-- A call on zones: what is given back satisfies `ok` and is in a block of the first zone. -/
inductive ZoneCall (ok : BitVec 32 → Prop) : List Zone → List Zone → Prop where
  | alloc {zs zs' : List Zone} {a : BitVec 32} (h : AllocStep zs a zs') : ZoneCall ok zs zs'
  | free {z : Zone} {suf : List Zone} {a : BitVec 32} (hok : ok a) (hi : (getOffset z.start a).toNat < z.length.toNat) :
      ZoneCall ok (z :: suf) (z.release _ hi :: suf)

/-- Zones of the shapes that `init_pmm` leaves are in memory. -/
structure HasZones (k : Kernel) (es : List MmapEntry) (m : Mem) (zs : List Zone) : Prop where
  shaped : Shaped k es zs
  inMem : ZonesAt k.kernelEnd m 0 zs

section

variable {k : Kernel} {boot : Boot} {mbt : MultibootInfo} {es : List MmapEntry} {ok : Mem → BitVec 32 → Prop}
variable {m m' : Mem} {z : Zone} {zs suf : List Zone} {a : BitVec 32}

theorem HasZones.inFirst_iff (h : HasZones k es m (z :: suf)) : InFirst k m a ↔ (getOffset z.start a).toNat < z.length.toNat := by
  rw [InFirst, h.inMem.first .start, h.inMem.first .length]
  exact BitVec.lt_def

theorem HasZones.usedInFirst_iff (h : HasZones k es m (z :: suf)) :
    UsedInFirst k m a ↔ (getOffset z.start a).toNat < z.length.toNat ∧ z.used (getOffset z.start a).toNat = true := by
  have hl := z.length_le_bits
  rw [UsedInFirst, h.inFirst_iff, h.inMem.first .bitmap, h.inMem.first .start]
  refine and_congr_right ?_
  intro hi
  have hbit := h.inMem.1.bits (getOffset z.start a).toNat (by omega)
  rw [Nat.zero_add] at hbit
  rw [Zone.header, Zone.header, Nat.zero_add, testBit_eq, hbit]

/-- A call leaves zones of these shapes, and does to them what it does to a list of zones. -/
theorem HasZones.step (hp : Placed k es) (hb : ∀ e ∈ usable es, 1 ≤ e.blocks) (hok : ∀ m a, ok m a → InFirst k m a)
    (hz : HasZones k es m zs) (h : CallStep k ok m m') : ∃ zs', ZoneCall (ok m) zs zs' ∧ HasZones k es m' zs' := by
  cases h with
  | alloc h =>
    obtain ⟨zs', hstep, hz'⟩ := hz.shaped.pmmAlloc hp hz.inMem h
    exact ⟨zs', .alloc hstep, hz.shaped.alloc hstep, hz'⟩
  | @free a ha h =>
    obtain ⟨_, z, suf, _, rfl, _⟩ := hz.shaped.head hp
    have hi := hz.inFirst_iff.mp (hok m a ha)
    exact ⟨_, .free ha hi, hz.shaped.release hi, hz.shaped.pmmFree hp hb hz.inMem hi h⟩

/-- `init_pmm` leaves the zones of the marked entries. -/
theorem hasZones_init (hmap : MemoryMap boot mbt es) (hp : Placed k es) {m₀ : Mem} (hr : Returns (initPmm k boot mbt m₀) m) :
    HasZones k es m ((marks k es).map (builtFrom k es)) := by
  rw [← initialZones_eq_marks]
  exact ⟨rfl, (initPmm_returns hmap hp.usable_ne hp.fits hr).2⟩

/-! ## The counter of the first zone -/

/-- The zone's counter is at most its number of blocks and its number of unset bits. -/
def CounterBounded (m : Mem) (zone : BitVec 32) : Prop :=
  zoneField m zone .free ≤ zoneField m zone .length ∧ (zoneField m zone .free).toNat ≤ freeBits m zone

theorem HasZones.counterBounded_iff (h : HasZones k es m (z :: suf)) : CounterBounded m k.memoryZones ↔ z.surplus ≤ 0 := by
  have hsum := z.unset_add_taken
  have hbits := h.inMem.1.freeBits_eq
  rw [Mem.cell_zero] at hbits
  rw [CounterBounded, Kernel.memoryZones, hbits, ← Kernel.memoryZones, h.inMem.first .free, h.inMem.first .length, Zone.header,
    Zone.header, BitVec.le_def, Zone.surplus]
  omega

/-- A counter that is right is below the word size. -/
theorem Zone.free_lt (h : z.surplus = 0) : z.free.toNat + 1 < 2 ^ 32 := by
  have hsum := z.unset_add_taken
  have hl := z.length_le
  rw [surplus] at h
  omega

/-- After a call the counter of the first zone is right if it was before, unless a block was given back that is not used. -/
theorem HasZones.balanced_step (hp : Placed k es) (hb : ∀ e ∈ usable es, 1 ≤ e.blocks) (hok : ∀ m a, ok m a → InFirst k m a)
    (hz : HasZones k es m (z :: suf)) (h0 : z.surplus = 0) (h : CallStep k ok m m') :
    ∃ z' suf', HasZones k es m' (z' :: suf') ∧
      (z'.surplus = 0 ∨ z'.surplus = 1 ∧ ∃ a, ok m a ∧ ¬UsedInFirst k m a) := by
  obtain ⟨zs', hcall, hz'⟩ := hz.step hp hb hok h
  generalize hzs : z :: suf = zs at hcall
  cases hcall with
  | alloc hstep =>
    have hsurplus := hstep.surplus
    rw [← hzs, List.map_cons] at hsurplus
    obtain ⟨z', suf', rfl, hz0, _⟩ := List.map_eq_cons_iff.mp hsurplus
    exact ⟨z', suf', hz', Or.inl (hz0.trans h0)⟩
  | @free y ys a ha hi =>
    obtain ⟨rfl, rfl⟩ := List.cons.inj hzs
    refine ⟨_, _, hz', ?_⟩
    cases hu : z.used (getOffset z.start a).toNat with
    | true => exact Or.inl ((Zone.surplus_release hi hu (Zone.free_lt h0)).trans h0)
    | false =>
      refine Or.inr ⟨by rw [Zone.surplus_release_unused hi hu (Zone.free_lt h0), h0]; rfl, a, ha, fun hused => ?_⟩
      rw [hz.usedInFirst_iff, hu] at hused
      exact Bool.false_ne_true hused.2

/-- A block that is not used can be given back, and then the counter is too high by one. -/
theorem HasZones.free_unused (hp : Placed k es) (hb : ∀ e ∈ usable es, 1 ≤ e.blocks) (hok : ∀ m a, ok m a → InFirst k m a)
    (hz : HasZones k es m (z :: suf)) (h0 : z.surplus = 0) (ha : ok m a) (hu : ¬UsedInFirst k m a) :
    ∃ m' z' suf', CallStep k ok m m' ∧ HasZones k es m' (z' :: suf') ∧ z'.surplus = 1 := by
  have hi := hz.inFirst_iff.mp (hok m a ha)
  rw [hz.usedInFirst_iff, not_and] at hu
  obtain ⟨m', hm', hz'⟩ := hz.shaped.pmmFree_ensures hp hb hz.inMem hi
  refine ⟨m', _, suf, .free ha hm', ⟨hz.shaped.release hi, hz'⟩, ?_⟩
  rw [Zone.surplus_release_unused hi (by simpa using hu hi) (Zone.free_lt h0), h0]
  rfl

/-- The first marked entry is the first usable one, without a mark. -/
theorem marks_head (hp : Placed k es) : ∃ e ps, (usable es).head? = some e ∧ marks k es = (e, false) :: ps := by
  have hne := hp.usable_ne
  rw [marks]
  cases hu : usable es with
  | nil => exact absurd hu hne
  | cons e us => exact ⟨e, _, rfl, rfl⟩

/-- When `init_pmm` has returned, the counter of the first zone is right or too high, and right when the zone has no block used. -/
theorem first_init (hmap : MemoryMap boot mbt es) (hp : Placed k es) {m₀ : Mem} (hr : Returns (initPmm k boot mbt m₀) m) :
    ∃ z suf, HasZones k es m (z :: suf) ∧ 0 ≤ z.surplus ∧
      (z.surplus = 0 ↔ ∀ e ∈ (usable es).head?, ClearAtInit k es (e, false)) := by
  obtain ⟨e, ps, he, hmarks⟩ := marks_head (k := k) hp
  have hz := hasZones_init hmap hp hr
  rw [hmarks, List.map_cons] at hz
  obtain ⟨hle, hiff⟩ := surplus_builtFrom hp (p := (e, false)) (initPmm_blocks hmap hr e (List.mem_of_mem_head? he))
  refine ⟨_, _, hz, hle, hiff.trans ?_⟩
  rw [he]
  constructor
  · intro h f hf
    rwa [← Option.some.inj hf]
  · intro h
    exact h e rfl

/-- The counter of the first zone is right in a run in which it is bounded, and in one in which only used blocks are given back. -/
theorem first_balanced (hmap : MemoryMap boot mbt es) (hp : Placed k es) (hb : ∀ e ∈ usable es, 1 ≤ e.blocks)
    (hok : ∀ m a, ok m a → InFirst k m a) (hclear : ∀ e ∈ (usable es).head?, ClearAtInit k es (e, false))
    (hrun : (∀ m, (callSystem k boot mbt ok).Reachable m → CounterBounded m k.memoryZones) ∨
      ∀ m, (callSystem k boot mbt ok).Reachable m → ∀ a, ok m a → UsedInFirst k m a)
    (hm : (callSystem k boot mbt ok).Reachable m) : ∃ z suf, HasZones k es m (z :: suf) ∧ z.surplus = 0 := by
  refine hm.invariant (fun m => ∃ z suf, HasZones k es m (z :: suf) ∧ z.surplus = 0) ?_ ?_
  · rintro m ⟨m₀, hr⟩
    obtain ⟨z, suf, hz, _, hiff⟩ := first_init hmap hp hr
    exact ⟨z, suf, hz, hiff.mpr hclear⟩
  · rintro m m' hm ⟨z, suf, hz, h0⟩ hstep
    obtain ⟨z', suf', hz', h0' | ⟨h1, a, ha, hu⟩⟩ := hz.balanced_step hp hb hok h0 hstep
    · exact ⟨z', suf', hz', h0'⟩
    · rcases hrun with hall | hused
      · have hbounded := hz'.counterBounded_iff.mp (hall m' (hm.step hstep))
        omega
      · exact absurd (hused m hm a ha) hu

/-- In every run of calls that give back addresses of the first zone's blocks, the zone's counter never exceeds its number of blocks
nor its number of unset bits exactly when no block of the zone is used after `init_pmm` and every block given back is used. -/
theorem counter_bounded_iff (hmap : MemoryMap boot mbt es) (hp : Placed k es) (hr : ∃ m₀ m, Returns (initPmm k boot mbt m₀) m)
    (hok : ∀ m a, ok m a → InFirst k m a) :
    (∀ m, (callSystem k boot mbt ok).Reachable m → CounterBounded m k.memoryZones) ↔
      (∀ e ∈ (usable es).head?, ClearAtInit k es (e, false)) ∧
        ∀ m, (callSystem k boot mbt ok).Reachable m → ∀ a, ok m a → UsedInFirst k m a := by
  obtain ⟨m₀, m₁, hr⟩ := hr
  have hb := initPmm_blocks hmap hr
  constructor
  · intro hall
    have hclear : ∀ e ∈ (usable es).head?, ClearAtInit k es (e, false) := by
      obtain ⟨z, suf, hz, hle, hiff⟩ := first_init hmap hp hr
      have hbounded := hz.counterBounded_iff.mp (hall m₁ (.init ⟨m₀, hr⟩))
      exact hiff.mp (Int.le_antisymm hbounded hle)
    refine ⟨hclear, ?_⟩
    intro m hm a ha
    obtain ⟨z, suf, hz, h0⟩ := first_balanced hmap hp hb hok hclear (Or.inl hall) hm
    by_contra hu
    obtain ⟨m', z', suf', hstep, hz', h1⟩ := hz.free_unused hp hb hok h0 ha hu
    have hbounded := hz'.counterBounded_iff.mp (hall m' (hm.step hstep))
    omega
  · rintro ⟨hclear, hused⟩ m hm
    obtain ⟨z, suf, hz, h0⟩ := first_balanced hmap hp hb hok hclear (Or.inr hused) hm
    exact hz.counterBounded_iff.mpr (Int.le_of_eq h0)

end

/-- The block of the first zone of `twoZones` has been given out, given back and given out again. -/
theorem counter_bounded_twoZones : ∃ m,
    (callSystem smallKernel (bootOf 0x9000 twoZones) (mapInfo 0x9000 twoZones) (UsedInFirst smallKernel)).Reachable m ∧
      zoneBit m smallKernel.memoryZones 0 = true ∧ CounterBounded m smallKernel.memoryZones := by
  obtain ⟨m, hm, hbit⟩ := exists_calls smallKernel (UsedInFirst smallKernel) (bootOf 0x9000 twoZones) (mapInfo 0x9000 twoZones) 40
    [.alloc, .free 0x1000, .alloc] (fun m => zoneBit m smallKernel.memoryZones 0) true (by decide)
  obtain ⟨m₁, hr, _⟩ := exists_init smallKernel (bootOf 0x9000 twoZones) (mapInfo 0x9000 twoZones) 40
    (fun _ => ()) () (by decide)
  exact ⟨m, hm, hbit, (counter_bounded_iff twoZones_memoryMap twoZones_placed ⟨_, m₁, hr⟩ (fun _ _ h => h.1)).mpr
    ⟨by decide, fun _ _ _ h => h⟩ m hm⟩

/-- The block has been given back twice: the counter of a zone of one block is 2. -/
theorem counter_unbounded : MemoryMap (bootOf 0x9000 twoZones) (mapInfo 0x9000 twoZones) twoZones ∧ ∃ m,
    (callSystem smallKernel (bootOf 0x9000 twoZones) (mapInfo 0x9000 twoZones) (InFirst smallKernel)).Reachable m ∧
      zoneField m smallKernel.memoryZones .free = 2 ∧ zoneField m smallKernel.memoryZones .length = 1 ∧
      ¬CounterBounded m smallKernel.memoryZones := by
  obtain ⟨m, hm, hx⟩ := exists_calls smallKernel (InFirst smallKernel) (bootOf 0x9000 twoZones) (mapInfo 0x9000 twoZones) 40
    [.alloc, .free 0x1000, .free 0x1000]
    (fun m => [zoneField m smallKernel.memoryZones .free, zoneField m smallKernel.memoryZones .length]) [2, 1] (by decide)
  simp only [List.cons.injEq, and_true] at hx
  refine ⟨twoZones_memoryMap, m, hm, hx.1, hx.2, fun h => ?_⟩
  have hle := h.1
  rw [hx.1, hx.2] at hle
  exact absurd hle (by decide)

end LumOS
