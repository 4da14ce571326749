import LumOS.Lib.System
import LumOS.Pmm.Reserve

/-!
# Clients of the PMM

A client calls `pmm_alloc` and gives back, by `pmm_free`, values it holds: those that `pmm_alloc` returned and that it has not
given back since. `clientSystem` is the PMM in memory with such a client, from `init_pmm` on; its parameter `ok` is what the
client looks at before it gives an address back (the start and the length of the first zone of the list, and the address).

`zoneSystem` is the same client over lists of zones. When every address that the client gives back is in a block of the first
zone, the PMM in memory does what the lists of zones do (`client_simulation`).
-/

namespace LumOS

open Comp

/-! ## The zones of a list in memory -/

/-- `q` is a zone of the list that starts at `zone`. -/
inductive InList (m : Mem) : BitVec 32 → BitVec 32 → Prop where
  | here {zone : BitVec 32} (h : zone ≠ 0) : InList m zone zone
  | next {zone q : BitVec 32} (h : zone ≠ 0) (hq : InList m (zoneField m zone .nextZone) q) : InList m zone q

/-- Bit `i` of the bitmap of a zone. -/
def zoneBit (m : Mem) (zone : BitVec 32) (i : Nat) : Bool := m.bit (zoneField m zone .bitmap) i

section

variable {base : BitVec 32} {m : Mem}

theorem ZoneAt.zoneBit_eq {h : Nat} {z : Zone} {next : BitVec 32} (hz : ZoneAt base m h z next) {i : Nat}
    (hi : i < 32 * z.bitmapWords.toNat) : zoneBit m (Mem.cell base h) i = z.used i := by
  rw [zoneBit, hz.header .bitmap, Zone.header, Mem.bit_cell]
  exact hz.bits i hi

/-- The zones of a list in memory are the zones of the list. -/
theorem inList_iff {n : Nat} (hfit : Fits base n) {zs : List Zone} {q : BitVec 32} :
    ∀ {h : Nat}, ZonesAt base m h zs → h + cellsOf zs ≤ n →
    (InList m (ptrTo base h zs) q ↔ ∃ pre z suf, zs = pre ++ z :: suf ∧ q = Mem.cell base (h + cellsOf pre)) := by
  induction zs with
  | nil =>
    intro h _ _
    constructor
    · rintro (h0 | ⟨h0, _⟩) <;> exact absurd rfl h0
    · rintro ⟨pre, z, suf, he, _⟩
      cases pre <;> cases he
  | cons z zs ih =>
    intro h hz hn
    simp only [cellsOf] at hn
    have h8 := z.eight_le_cells
    have hne : Mem.cell base h ≠ 0 := hfit.cell_ne_zero (by omega)
    have hnext : zoneField m (Mem.cell base h) .nextZone = ptrTo base (h + z.cells) zs := hz.1.header .nextZone
    constructor
    · rintro (_ | ⟨_, hq⟩)
      · exact ⟨[], z, zs, rfl, rfl⟩
      · change InList m (zoneField m (Mem.cell base h) .nextZone) q at hq
        rw [hnext] at hq
        obtain ⟨pre, y, suf, rfl, rfl⟩ := (ih hz.2 (by omega)).mp hq
        exact ⟨z :: pre, y, suf, rfl, by rw [cellsOf, Nat.add_assoc]⟩
    · rintro ⟨pre, y, suf, he, rfl⟩
      cases pre with
      | nil => exact .here hne
      | cons x pre =>
        obtain ⟨rfl, rfl⟩ := List.cons.inj he
        refine .next hne ?_
        change InList m (zoneField m (Mem.cell base h) .nextZone) _
        rw [hnext]
        exact (ih hz.2 (by omega)).mpr ⟨pre, y, suf, rfl, by rw [cellsOf, Nat.add_assoc]⟩

/-- A zone in the list that starts at `memory_zones` is a zone of the list. -/
theorem ZonesAt.exists_of_inList {k : Kernel} {zs : List Zone} (hne : zs ≠ []) (hfit : Fits k.kernelEnd (cellsOf zs))
    (hz : ZonesAt k.kernelEnd m 0 zs) {q : BitVec 32} (hq : InList m k.memoryZones q) :
    ∃ pre z suf, zs = pre ++ z :: suf ∧ q = Mem.cell k.kernelEnd (0 + cellsOf pre) := by
  rw [k.memoryZones_eq hne] at hq
  exact (inList_iff hfit hz (Nat.le_of_eq (Nat.zero_add _))).mp hq

end

/-! ## The client over the memory -/

/-- The PMM's memory and the values the client holds. -/
structure Client where
  mem : Mem
  held : List (BitVec 32)

/-- A call of the client. It gives back a value it holds, when `ok` holds of the first zone's start, its length and the value. -/
inductive ClientStep (k : Kernel) (ok : BitVec 32 → BitVec 32 → BitVec 32 → Prop) : Client → Client → Prop where
  | alloc {c : Client} {a : BitVec 32} {m : Mem} (h : Returns (pmmAlloc k c.mem) (a, m)) :
      ClientStep k ok c ⟨m, a :: c.held⟩
  | free {c : Client} {a : BitVec 32} {m : Mem} (ha : a ∈ c.held)
      (hok : ok (zoneField c.mem k.memoryZones .start) (zoneField c.mem k.memoryZones .length) a)
      (h : Returns (pmmFree k c.mem a) m) : ClientStep k ok c ⟨m, c.held.erase a⟩

/-- The PMM with a client, from `init_pmm` on. What is in the memory before is arbitrary. -/
def clientSystem (k : Kernel) (boot : Boot) (mbt : MultibootInfo) (ok : BitVec 32 → BitVec 32 → BitVec 32 → Prop) :
    System Client where
  init c := c.held = [] ∧ ∃ m₀, Returns (initPmm k boot mbt m₀) c.mem
  step := ClientStep k ok

/-- The client gives back any value but `NULL`. -/
def notNull (_start _length addr : BitVec 32) : Prop := addr ≠ 0

/-- The address is in a block of the zone. -/
def inZone (start length addr : BitVec 32) : Prop := getOffset start addr < length

/-- The address is not `NULL` and is in a block of the zone. -/
def ownedByZone (start length addr : BitVec 32) : Prop := addr ≠ 0 ∧ inZone start length addr

instance (start length addr : BitVec 32) : Decidable (notNull start length addr) := inferInstanceAs (Decidable (addr ≠ 0))

instance (start length addr : BitVec 32) : Decidable (inZone start length addr) :=
  inferInstanceAs (Decidable (getOffset start addr < length))

instance (start length addr : BitVec 32) : Decidable (ownedByZone start length addr) :=
  inferInstanceAs (Decidable (addr ≠ 0 ∧ inZone start length addr))

/-! ## The client over lists of zones -/

/-- A list of zones and the values the client holds. -/
structure ZoneState where
  zones : List Zone
  held : List (BitVec 32)

/-- A call of the client. What it gives back is in a block of the first zone. -/
inductive ZoneStep (ok : BitVec 32 → BitVec 32 → BitVec 32 → Prop) : ZoneState → ZoneState → Prop where
  | alloc {s : ZoneState} {a : BitVec 32} {zs : List Zone} (h : AllocStep s.zones a zs) : ZoneStep ok s ⟨zs, a :: s.held⟩
  | free {z : Zone} {suf : List Zone} {held : List (BitVec 32)} {a : BitVec 32} (ha : a ∈ held) (hok : ok z.start z.length a)
      (hi : (getOffset z.start a).toNat < z.length.toNat) :
      ZoneStep ok ⟨z :: suf, held⟩ ⟨z.release _ hi :: suf, held.erase a⟩

/-- The zones with a client, from those `init_pmm` leaves on. -/
def zoneSystem (k : Kernel) (es : List MmapEntry) (ok : BitVec 32 → BitVec 32 → BitVec 32 → Prop) : System ZoneState where
  init s := s = ⟨initialZones k es, []⟩
  step := ZoneStep ok

/-- What no call changes of a zone. -/
structure Shape where
  start : BitVec 32
  end_ : BitVec 32
  length : BitVec 32
  lastOffset : BitVec 32
  bitmapWords : BitVec 32

def Zone.shape (z : Zone) : Shape := ⟨z.start, z.end_, z.length, z.lastOffset, z.bitmapWords⟩

@[simp] theorem Zone.take_shape (z : Zone) (i : Nat) : (z.take i).shape = z.shape := rfl

@[simp] theorem Zone.release_shape (z : Zone) (i : Nat) (hi : i < z.length.toNat) : (z.release i hi).shape = z.shape := rfl

/-- Zones of the same shapes take the same cells. -/
theorem cellsOf_shape {zs ys : List Zone} (h : zs.map Zone.shape = ys.map Zone.shape) : cellsOf zs = cellsOf ys := by
  induction zs generalizing ys with
  | nil =>
    cases ys with
    | nil => rfl
    | cons y ys => cases h
  | cons z zs ih =>
    cases ys with
    | nil => cases h
    | cons y ys =>
      obtain ⟨h1, h2⟩ := List.cons.inj h
      have hw : z.bitmapWords = y.bitmapWords := congrArg Shape.bitmapWords h1
      rw [cellsOf, cellsOf, ih h2, Zone.cells, Zone.cells, hw]

theorem Zone.reserved_shape (z : Zone) (resStart resEnd : BitVec 32) : (z.reserved resStart resEnd).shape = z.shape := by
  rw [reserved]
  split <;> rfl

theorem Zone.reserved_used {z : Zone} {i : Nat} (resStart resEnd : BitVec 32) (h : z.used i = true) :
    (z.reserved resStart resEnd).used i = true := by
  rw [reserved]
  split
  · show (_ || z.used i) = true
    rw [h, Bool.or_true]
  · exact h

theorem AllocStep.shapes {zs zs' : List Zone} {a : BitVec 32} (h : AllocStep zs a zs') :
    zs'.map Zone.shape = zs.map Zone.shape := by
  cases h with
  | noZone _ => rfl
  | noBlock _ _ _ => rfl
  | block _ _ _ _ _ => simp

/-- The zones have the shapes of those that `init_pmm` leaves. -/
def Shaped (k : Kernel) (es : List MmapEntry) (zs : List Zone) : Prop := zs.map Zone.shape = (initialZones k es).map Zone.shape

theorem Shaped.alloc {k : Kernel} {es : List MmapEntry} {zs zs' : List Zone} {a : BitVec 32} (hs : Shaped k es zs)
    (h : AllocStep zs a zs') : Shaped k es zs' :=
  h.shapes.trans hs

theorem Shaped.release {k : Kernel} {es : List MmapEntry} {z : Zone} {suf : List Zone} (hs : Shaped k es (z :: suf)) {i : Nat}
    (hi : i < z.length.toNat) : Shaped k es (z.release i hi :: suf) :=
  hs

/-- The calls leave the shapes of the zones. -/
theorem zone_shapes {k : Kernel} {es : List MmapEntry} {ok : BitVec 32 → BitVec 32 → BitVec 32 → Prop} {s : ZoneState}
    (h : (zoneSystem k es ok).Reachable s) : Shaped k es s.zones := by
  refine h.invariant (fun s => Shaped k es s.zones) ?_ ?_
  · rintro s rfl
    rfl
  · rintro s _ _ ih (⟨h⟩ | ⟨_, _, hi⟩)
    · exact ih.alloc h
    · exact ih.release hi

/-! ## The memory does what the zones do -/

/-- The memory map has an entry that the PMM uses, and the structures for its entries fit between the end of the kernel and the end
of the address space. -/
structure Placed (k : Kernel) (es : List MmapEntry) : Prop where
  usable_ne : usable es ≠ []
  fits : Fits k.kernelEnd (cellsOf (newZones es))

/-- The zones after a call or none are in the client's memory. -/
def Represents (k : Kernel) (c : Client) (s : ZoneState) : Prop := ZonesAt k.kernelEnd c.mem 0 s.zones ∧ c.held = s.held

section

variable {k : Kernel} {boot : Boot} {mbt : MultibootInfo} {es : List MmapEntry}
variable {ok : BitVec 32 → BitVec 32 → BitVec 32 → Prop}

/-- Every state of a client comes after `init_pmm` has returned. -/
theorem client_init {c : Client} (h : (clientSystem k boot mbt ok).Reachable c) :
    ∃ m₀ m, Returns (initPmm k boot mbt m₀) m := by
  refine h.invariant (fun _ => ∃ m₀ m, Returns (initPmm k boot mbt m₀) m) ?_ (fun _ _ _ ih _ => ih)
  rintro c ⟨_, m₀, h⟩
  exact ⟨m₀, c.mem, h⟩

/-- In every state of a client the usable entries have blocks. -/
theorem client_blocks (hmap : MemoryMap boot mbt es) (hp : Placed k es) {c : Client}
    (h : (clientSystem k boot mbt ok).Reachable c) : ∀ e ∈ usable es, 1 ≤ e.blocks := by
  obtain ⟨m₀, m, hr⟩ := client_init h
  exact (initPmm_returns hmap hp.usable_ne hp.fits hr).1

theorem cellsOf_initialZones (k : Kernel) (es : List MmapEntry) : cellsOf (initialZones k es) = cellsOf (newZones es) :=
  cellsOf_reserveZones _ _ _ _

section

variable {zs : List Zone}

/-- Zones of these shapes fit where the first ones did. -/
theorem Shaped.fits (h : Shaped k es zs) (hp : Placed k es) : Fits k.kernelEnd (cellsOf zs) := by
  rw [cellsOf_shape h, cellsOf_initialZones]
  exact hp.fits

/-- A zone of such a list has the shape of an entry's zone, with its start changed or not. -/
theorem Shaped.entry (h : Shaped k es zs) {z : Zone} (hz : z ∈ zs) : ∃ e ∈ usable es, ∃ b, z.shape = (e.zone.bump b).shape := by
  have hmem : z.shape ∈ zs.map Zone.shape := List.mem_map_of_mem hz
  rw [h] at hmem
  obtain ⟨y, hy, he⟩ := List.mem_map.mp hmem
  obtain ⟨x, hx, b, rfl⟩ := mem_reserveZones hy
  obtain ⟨e, hue, rfl⟩ := List.mem_map.mp hx
  exact ⟨e, hue, b, by rw [← he, Zone.reserved_shape]⟩

/-- The searches of `pmm_alloc` start at offset 0. -/
theorem Shaped.hint (h : Shaped k es zs) : ∀ z ∈ zs, z.lastOffset = 0 := by
  intro z hz
  obtain ⟨e, _, b, hshape⟩ := h.entry hz
  have hlast : z.lastOffset = (e.zone.bump b).lastOffset := congrArg Shape.lastOffset hshape
  rw [hlast]
  cases b <;> rfl

/-- The first zone is the first usable entry's: the reservation leaves its shape. -/
theorem Shaped.head (h : Shaped k es zs) (hp : Placed k es) :
    ∃ e z suf, e ∈ (usable es).head? ∧ zs = z :: suf ∧ z.shape = e.zone.shape := by
  have hs := h
  rw [Shaped, initialZones, newZones] at hs
  cases hu : usable es with
  | nil => exact absurd hu hp.usable_ne
  | cons e us =>
    rw [hu, List.map_cons, reserveZones, List.map_cons, Zone.bump_false] at hs
    cases hz : zs with
    | nil =>
      rw [hz] at hs
      cases hs
    | cons z suf =>
      rw [hz, List.map_cons] at hs
      exact ⟨e, z, suf, rfl, rfl, by rw [(List.cons.inj hs).1, Zone.reserved_shape]⟩

theorem Shaped.ne (h : Shaped k es zs) (hp : Placed k es) : zs ≠ [] := by
  obtain ⟨_, z, suf, _, rfl, _⟩ := h.head hp
  exact List.cons_ne_nil z suf

end

/-- The zones of a reachable state fit where the first ones did. -/
theorem zone_fits (hp : Placed k es) {s : ZoneState} (h : (zoneSystem k es ok).Reachable s) :
    Fits k.kernelEnd (cellsOf s.zones) :=
  (zone_shapes h).fits hp

/-- A zone of a reachable state has the shape of an entry's zone, with its start changed or not. -/
theorem zone_entry {s : ZoneState} (h : (zoneSystem k es ok).Reachable s) {z : Zone} (hz : z ∈ s.zones) :
    ∃ e ∈ usable es, ∃ b, z.shape = (e.zone.bump b).shape :=
  (zone_shapes h).entry hz

/-- The searches of `pmm_alloc` start at offset 0. -/
theorem zone_hint {s : ZoneState} (h : (zoneSystem k es ok).Reachable s) : ∀ z ∈ s.zones, z.lastOffset = 0 :=
  (zone_shapes h).hint

/-- The first zone of a reachable state is a usable entry's. -/
theorem zone_head (hp : Placed k es) {s : ZoneState} (h : (zoneSystem k es ok).Reachable s) :
    ∃ e z suf, e ∈ usable es ∧ s.zones = z :: suf ∧ z.shape = e.zone.shape := by
  obtain ⟨e, z, suf, he, hzs, hshape⟩ := (zone_shapes h).head hp
  exact ⟨e, z, suf, List.mem_of_mem_head? he, hzs, hshape⟩

theorem zone_ne (hp : Placed k es) {s : ZoneState} (h : (zoneSystem k es ok).Reachable s) : s.zones ≠ [] :=
  (zone_shapes h).ne hp

/-- An address in a block of an entry's zone is not below the zone and above it at once. -/
theorem MmapEntry.zone_search (e : MmapEntry) (he : 1 ≤ e.blocks) {a : BitVec 32}
    (hi : (getOffset e.zone.start a).toNat < e.zone.length.toNat) : ¬(e.zone.start > a ∧ a > e.zone.end_) := by
  have hspan := e.zone_span he
  have hlen : e.zone.length.toNat = e.lengthLow.toNat / 4096 := e.toNat_length
  rw [toNat_getOffset, hlen] at hi
  rintro ⟨h1, h2⟩
  bv_omega

/-- The search of `pmm_free` for an address in a block of the first of these zones ends there. -/
theorem Shaped.search {z : Zone} {suf : List Zone} {a : BitVec 32} (hs : Shaped k es (z :: suf)) (hp : Placed k es)
    (hb : ∀ e ∈ usable es, 1 ≤ e.blocks) (hi : (getOffset z.start a).toNat < z.length.toNat) : ¬(z.start > a ∧ a > z.end_) := by
  obtain ⟨e, _, _, he, hcons, hshape⟩ := hs.head hp
  obtain ⟨rfl, rfl⟩ := List.cons.inj hcons
  have h1 : z.start = e.zone.start := congrArg Shape.start hshape
  have h2 : z.end_ = e.zone.end_ := congrArg Shape.end_ hshape
  have h3 : z.length = e.zone.length := congrArg Shape.length hshape
  rw [h1, h3] at hi
  rw [h1, h2]
  exact e.zone_search (hb e (List.mem_of_mem_head? he)) hi

/-- `pmm_alloc` on zones of the shapes that `init_pmm` leaves returns, and is a step of the zones. -/
theorem Shaped.pmmAlloc_ensures {zs : List Zone} {m : Mem} (hs : Shaped k es zs) (hp : Placed k es)
    (hz : ZonesAt k.kernelEnd m 0 zs) :
    Ensures (LumOS.pmmAlloc k m) (fun r => ∃ zs', AllocStep zs r.1 zs' ∧ ZonesAt k.kernelEnd r.2 0 zs') :=
  LumOS.pmmAlloc_ensures k hz (hs.ne hp) (hs.fits hp) hs.hint

theorem Shaped.pmmAlloc {zs : List Zone} {m m' : Mem} {a : BitVec 32} (hs : Shaped k es zs) (hp : Placed k es)
    (hz : ZonesAt k.kernelEnd m 0 zs) (h : Returns (LumOS.pmmAlloc k m) (a, m')) :
    ∃ zs', AllocStep zs a zs' ∧ ZonesAt k.kernelEnd m' 0 zs' :=
  (hs.pmmAlloc_ensures hp hz).of_returns h

/-- `pmm_free` of an address in a block of the first of these zones returns, and gives that block back. -/
theorem Shaped.pmmFree_ensures {z : Zone} {suf : List Zone} {m : Mem} {a : BitVec 32} (hs : Shaped k es (z :: suf))
    (hp : Placed k es) (hb : ∀ e ∈ usable es, 1 ≤ e.blocks) (hz : ZonesAt k.kernelEnd m 0 (z :: suf))
    (hi : (getOffset z.start a).toNat < z.length.toNat) :
    Ensures (LumOS.pmmFree k m a) (fun m' => ZonesAt k.kernelEnd m' 0 (z.release _ hi :: suf)) := by
  exact LumOS.pmmFree_ensures k hz (hs.fits hp) (hs.search hp hb hi) hi

theorem Shaped.pmmFree {z : Zone} {suf : List Zone} {m m' : Mem} {a : BitVec 32} (hs : Shaped k es (z :: suf)) (hp : Placed k es)
    (hb : ∀ e ∈ usable es, 1 ≤ e.blocks) (hz : ZonesAt k.kernelEnd m 0 (z :: suf))
    (hi : (getOffset z.start a).toNat < z.length.toNat) (h : Returns (LumOS.pmmFree k m a) m') :
    ZonesAt k.kernelEnd m' 0 (z.release _ hi :: suf) :=
  (hs.pmmFree_ensures hp hb hz hi).of_returns h

/-- The PMM in memory does what the zones do, when every address given back is in a block of the first zone. -/
theorem client_simulation (hmap : MemoryMap boot mbt es) (hp : Placed k es)
    (hok : ∀ start length a, ok start length a → inZone start length a) :
    System.Simulation (clientSystem k boot mbt ok) (zoneSystem k es ok) (Represents k) where
  init := by
    rintro c ⟨hheld, m₀, hr⟩
    exact ⟨⟨initialZones k es, []⟩, rfl, (initPmm_returns hmap hp.usable_ne hp.fits hr).2, hheld⟩
  step := by
    rintro c c' s hc hs ⟨hz, hheld⟩ hst
    have hshaped := zone_shapes hs
    cases hst with
    | alloc h =>
      obtain ⟨zs', hstep, hz'⟩ := hshaped.pmmAlloc hp hz h
      exact ⟨⟨zs', _⟩, .single (.alloc hstep), hz', by rw [hheld]⟩
    | @free a m ha hok' h =>
      obtain ⟨e, z, suf, _, hzs, _⟩ := zone_head hp hs
      obtain ⟨zones, held⟩ := s
      simp only at hzs hheld hz hshaped
      subst hzs hheld
      rw [hz.first .start, hz.first .length] at hok'
      have hi : (getOffset z.start a).toNat < z.length.toNat := hok _ _ _ hok'
      exact ⟨⟨z.release _ hi :: suf, _⟩, .single (.free ha hok' hi),
        hshaped.pmmFree hp (client_blocks hmap hp hc) hz hi h, rfl⟩

end

end LumOS
