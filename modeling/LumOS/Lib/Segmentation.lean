import LumOS.Lib.Descriptor
import Mathlib.Data.List.Nodup

/-!
# Segmentation on the 80386

The descriptor tables, the segment registers and the task register of the processor in protected mode. A load finds a descriptor in the
global table, checks it against the privilege level, marks it as accessed, or as busy, and keeps a copy of it; an interrupt finds a gate
in the interrupt table, and from there the segment of its handler. What the processor refuses is `none`. Local descriptor tables, task
gates, call gates, changes of the privilege level and segments that expand down are left out.

A table is made entry by entry. When each entry is written in place, what is in an entry at the end is what was written last
(`decode_tableOf`), whatever is written elsewhere.
-/

/-- What `lgdt` and `lidt` load. -/
structure TableRegister where
  limit : BitVec 16
  base : BitVec 32
  deriving DecidableEq

/-- The address of an entry, when all of it is within the limit. -/
def TableRegister.entry (r : TableRegister) (index : Nat) : Option (BitVec 32) :=
  if 8 * index + 7 ≤ r.limit.toNat then some (r.base + BitVec.ofNat 32 (8 * index)) else none

namespace SegmentDescriptor

/-- P -/
def present (d : SegmentDescriptor) : Bool := d.type.getLsbD 7

/-- DPL -/
def dpl (d : SegmentDescriptor) : BitVec 2 := d.type.extractLsb' 5 2

/-- S: a segment of code or data, not of the system. -/
def memory (d : SegmentDescriptor) : Bool := d.type.getLsbD 4

/-- Code -/
def executable (d : SegmentDescriptor) : Bool := d.memory && d.type.getLsbD 3

/-- Code that runs at the level of its caller -/
def conforming (d : SegmentDescriptor) : Bool := d.executable && d.type.getLsbD 2

/-- Data that can be written -/
def writable (d : SegmentDescriptor) : Bool := d.memory && !d.executable && d.type.getLsbD 1

/-- Data, or code that can be read -/
def readable (d : SegmentDescriptor) : Bool := d.memory && (!d.executable || d.type.getLsbD 1)

/-- A task state segment of the 80386 that is not in use -/
def availableTask (d : SegmentDescriptor) : Bool := d.type.extractLsb' 0 5 = 0x09

/-- The offset of the last byte -/
def last (d : SegmentDescriptor) : Nat := if d.flags.getLsbD 3 then 4096 * d.limit.toNat + 4095 else d.limit.toNat

/-- The linear address of an offset in the segment. -/
def linear (d : SegmentDescriptor) (offset : BitVec 32) : Option (BitVec 32) :=
  if offset.toNat ≤ d.last then some (d.base + offset) else none

/-- A segment that begins at 0 and has no end. -/
theorem linear_flat {d : SegmentDescriptor} (hbase : d.base = 0) (hlast : d.last = 2 ^ 32 - 1) (offset : BitVec 32) :
    d.linear offset = some offset := by
  have hfits := offset.isLt
  rw [linear, if_pos (by omega), hbase]
  exact congrArg some (BitVec.zero_add offset)

end SegmentDescriptor

/-- P -/
def GateDescriptor.present (g : GateDescriptor) : Bool := g.type.getLsbD 7

/-- An interrupt gate of the 80386 -/
def GateDescriptor.interruptGate (g : GateDescriptor) : Bool := g.type.extractLsb' 0 5 = 0x0E

/-- The segment registers. -/
inductive SegmentRegister where
  | es
  | cs
  | ss
  | ds
  | fs
  | gs
  deriving DecidableEq

/-- The contents of a segment register, with the part that is hidden. -/
structure Segment where
  selector : BitVec 16
  descriptor : SegmentDescriptor
  deriving DecidableEq

/-- The memory and the registers that segmentation uses. -/
structure Processor where
  mem : Bytes 32
  gdtr : TableRegister
  idtr : TableRegister
  segment : SegmentRegister → Segment
  task : Option Segment

/-- RPL -/
def rpl (selector : BitVec 16) : BitVec 2 := selector.extractLsb' 0 2

namespace Processor

/-- CPL -/
def cpl (p : Processor) : BitVec 2 := rpl (p.segment .cs).selector

/-- The six bytes that a table register is loaded from. -/
def tableRegister (p : Processor) (a : BitVec 32) : TableRegister where
  limit := p.mem.load (a + 1) ++ p.mem.load a
  base := p.mem.double (a + 2)

/-- `lgdt` -/
def lgdt (p : Processor) (a : BitVec 32) : Processor := { p with gdtr := p.tableRegister a }

/-- `lidt` -/
def lidt (p : Processor) (a : BitVec 32) : Processor := { p with idtr := p.tableRegister a }

/-- Where the descriptor of a selector is: not that of a null selector, nor of one for a local table. -/
def find (p : Processor) (selector : BitVec 16) : Option (BitVec 32) :=
  if selector.toNat < 4 ∨ selector.getLsbD 2 then none else p.gdtr.entry (selector.toNat / 8)

/-- Bits of the type of a descriptor are set in the table. -/
def mark (p : Processor) (a : BitVec 32) (bits : BitVec 8) : Processor :=
  { p with mem := p.mem.store (a + 5) (p.mem.load (a + 5) ||| bits) }

/-- A descriptor found is kept in a register, as accessed. -/
def keep (p : Processor) (reg : SegmentRegister) (selector : BitVec 16) (a : BitVec 32) : Processor :=
  let p := p.mark a 0x01
  { p with segment := Function.update p.segment reg ⟨selector, p.mem.segmentDescriptor a⟩ }

/-- The checks of a load of a register, other than `cs`. -/
def loads (p : Processor) (reg : SegmentRegister) (selector : BitVec 16) (d : SegmentDescriptor) : Bool :=
  d.present && if reg = .ss then d.writable && rpl selector = p.cpl && d.dpl = p.cpl
    else d.readable && (d.conforming || decide (rpl selector ≤ d.dpl) && decide (p.cpl ≤ d.dpl))

/-- `mov` to a segment register, not with a null selector -/
def mov (p : Processor) (reg : SegmentRegister) (selector : BitVec 16) : Option Processor :=
  (p.find selector).bind (fun a =>
    if p.loads reg selector (p.mem.segmentDescriptor a) then some (p.keep reg selector a) else none)

/-- `ltr` -/
def ltr (p : Processor) (selector : BitVec 16) : Option Processor :=
  (p.find selector).bind (fun a =>
    let d := p.mem.segmentDescriptor a
    if p.cpl = 0 ∧ d.availableTask ∧ d.present then
      let p := p.mark a 0x02
      some { p with task := some ⟨selector, p.mem.segmentDescriptor a⟩ }
    else none)

/-- A segment of code at the privilege level, with an offset in it. -/
def enters (p : Processor) (d : SegmentDescriptor) (offset : BitVec 32) : Bool :=
  d.present && d.executable && (if d.conforming then decide (d.dpl ≤ p.cpl) else d.dpl = p.cpl) && (d.linear offset).isSome

/-- `jmp` to an offset in another segment -/
def jmpFar (p : Processor) (selector : BitVec 16) (offset : BitVec 32) : Option (Processor × BitVec 32) :=
  (p.find selector).bind (fun a =>
    let d := p.mem.segmentDescriptor a
    if p.enters d offset ∧ (d.conforming ∨ rpl selector ≤ p.cpl) then
      some (p.keep .cs (selector.extractLsb' 2 14 ++ p.cpl) a, offset)
    else none)

/-- An interrupt from outside, or an exception, with this vector: the processor when the handler is entered, and where that is. -/
def interrupt (p : Processor) (vector : BitVec 8) : Option (Processor × BitVec 32) :=
  (p.idtr.entry vector.toNat).bind (fun a =>
    let g := p.mem.gateDescriptor a
    if g.present ∧ g.interruptGate then
      (p.find g.selector).bind (fun b =>
        if p.enters (p.mem.segmentDescriptor b) g.base then
          some (p.keep .cs (g.selector.extractLsb' 2 14 ++ p.cpl) b, g.base)
        else none)
    else none)

end Processor

/-! ## Tables -/

namespace Bytes

/-- Two memories hold the same bytes, this many, from an address on. -/
def SameAt (m m' : Bytes 32) (a : BitVec 32) (n : Nat) : Prop :=
  ∀ k < n, m'.load (a + BitVec.ofNat 32 k) = m.load (a + BitVec.ofNat 32 k)

theorem SameAt.trans {m m' m'' : Bytes 32} {a : BitVec 32} {n : Nat} (h : m.SameAt m' a n) (h' : m'.SameAt m'' a n) :
    m.SameAt m'' a n := fun k hk => (h' k hk).trans (h k hk)

theorem SameAt.double {m m' : Bytes 32} {a : BitVec 32} (h : m.SameAt m' a 4) : m'.double a = m.double a := by
  have h0 := h 0 (by decide)
  have h1 := h 1 (by decide)
  have h2 := h 2 (by decide)
  have h3 := h 3 (by decide)
  rw [BitVec.add_zero] at h0
  rw [Bytes.double, Bytes.double, h0]
  exact congrArg₂ (· ++ ·) (congrArg₂ (· ++ ·) (congrArg₂ (· ++ ·) h3 h2) h1) rfl

/-- A part of what is the same. -/
theorem SameAt.part {m m' : Bytes 32} {a : BitVec 32} {n : Nat} (h : m.SameAt m' a n) (i : Nat) {k : Nat} (hk : i + k ≤ n) :
    m.SameAt m' (a + BitVec.ofNat 32 i) k := by
  intro j hj
  have hij := h (i + j) (by omega)
  rw [BitVec.ofNat_add, ← BitVec.add_assoc] at hij
  exact hij

theorem SameAt.doubles {m m' : Bytes 32} {a : BitVec 32} (h : m.SameAt m' a 8) :
    m'.double a = m.double a ∧ m'.double (a + 4) = m.double (a + 4) := by
  have hlow := h.part 0 (k := 4) (by decide)
  rw [BitVec.add_zero] at hlow
  exact ⟨hlow.double, (h.part 4 (k := 4) (by decide)).double⟩

theorem SameAt.segmentDescriptor {m m' : Bytes 32} {a : BitVec 32} (h : m.SameAt m' a 8) :
    m'.segmentDescriptor a = m.segmentDescriptor a := by
  obtain ⟨hlow, hhigh⟩ := h.doubles
  rw [Bytes.segmentDescriptor, hlow, hhigh, Bytes.segmentDescriptor]

theorem SameAt.gateDescriptor {m m' : Bytes 32} {a : BitVec 32} (h : m.SameAt m' a 8) :
    m'.gateDescriptor a = m.gateDescriptor a := by
  obtain ⟨hlow, hhigh⟩ := h.doubles
  rw [Bytes.gateDescriptor, hlow, hhigh, Bytes.gateDescriptor]

/-- The address of an entry of a table. -/
def entryAddress (table : BitVec 32) (index : Nat) : BitVec 32 := table + BitVec.ofNat 32 (8 * index)

section

variable {α δ : Type}

/-- A table made entry by entry, each at its index. -/
def tableOf (write : Bytes 32 → BitVec 32 → α → Bytes 32) (table : BitVec 32) (entries : List (Nat × α)) (m : Bytes 32) :
    Bytes 32 :=
  entries.foldl (fun m e => write m (entryAddress table e.1) e.2) m

/-- What writes an entry leaves alone what is not in its 8 bytes. -/
def InPlace (write : Bytes 32 → BitVec 32 → α → Bytes 32) : Prop :=
  ∀ m entry x a, 8 ≤ offset entry a → (write m entry x).load a = m.load a

variable {write : Bytes 32 → BitVec 32 → α → Bytes 32} {decode : Bytes 32 → BitVec 32 → δ} {d : α → δ} {table : BitVec 32}
  {entries : List (Nat × α)} {m : Bytes 32} {n : Nat}

/-- What is outside of the table stays. -/
theorem load_tableOf (hwrite : InPlace write) (hindex : ∀ e ∈ entries, e.1 < n) {a : BitVec 32} (ha : 8 * n ≤ offset table a) :
    (tableOf write table entries m).load a = m.load a := by
  induction entries generalizing m with
  | nil => rfl
  | cons e entries ih =>
    rw [List.forall_mem_cons] at hindex
    refine (ih hindex.2).trans (hwrite _ _ _ _ ?_)
    have hlt := hindex.1
    have hsize := (a - table).isLt
    unfold offset entryAddress at *
    bv_omega

/-- The other entries stay. -/
theorem sameAt_write (hwrite : InPlace write) {i j : Nat} (hi : i < n) (hj : j < n) (hn : n ≤ 2 ^ 28) (hne : i ≠ j) (x : α) :
    m.SameAt (write m (entryAddress table i) x) (entryAddress table j) 8 := by
  intro k hk
  refine hwrite _ _ _ _ ?_
  unfold offset entryAddress
  bv_omega

/-- An entry of a table is what was written there, and what it was before when nothing was. -/
theorem decode_tableOf (hwrite : InPlace write) (hlocal : ∀ m m' a, SameAt m m' a 8 → decode m' a = decode m a)
    (hdecode : ∀ e ∈ entries, ∀ m entry, decode (write m entry e.2) entry = d e.2) (hnodup : (entries.map Prod.fst).Nodup)
    (hindex : ∀ e ∈ entries, e.1 < n) (hn : n ≤ 2 ^ 28) {i : Nat} (hi : i < n) :
    decode (tableOf write table entries m) (entryAddress table i) =
      (entries.find? (fun e => e.1 = i)).elim (decode m (entryAddress table i)) (fun e => d e.2) := by
  induction entries generalizing m with
  | nil => rfl
  | cons e entries ih =>
    rw [List.forall_mem_cons] at hdecode hindex
    rw [List.map_cons, List.nodup_cons] at hnodup
    have hrest := ih hdecode.2 hnodup.2 hindex.2 (m := write m (entryAddress table e.1) e.2)
    rw [List.find?_cons]
    by_cases he : e.1 = i
    · subst he
      have hnone : entries.find? (fun e' => e'.1 = e.1) = none := by
        rw [List.find?_eq_none]
        intro e' he' heq
        exact hnodup.1 (List.mem_map.mpr ⟨e', he', of_decide_eq_true heq⟩)
      rw [hnone, Option.elim_none, hdecode.1] at hrest
      rw [decide_eq_true rfl]
      exact hrest
    · rw [hlocal _ _ _ (sameAt_write hwrite hindex.1 hi hn he e.2)] at hrest
      rw [decide_eq_false he]
      exact hrest

end

end Bytes

/-! ## Loads -/

/-- The type of a descriptor is a byte of its own. -/
theorem Bytes.type_segmentDescriptor (m : Bytes 32) (a : BitVec 32) : (m.segmentDescriptor a).type = m.load (a + 5) := by
  apply BitVec.eq_of_getLsbD_eq
  intro i hi
  have hbyte : a + 4 + 1 = a + 5 := by bv_omega
  show (((m.double (a + 4)).extractLsb' 8 8).getLsbD i) = _
  rw [BitVec.getLsbD_extractLsb', decide_eq_true hi, Bool.true_and, Bytes.getLsbD_double, if_neg (by omega), if_pos (by omega),
    hbyte, Nat.add_sub_cancel_left]

/-- The table register that a limit and a base are loaded as. -/
theorem Processor.tableRegister_storeField {p : Processor} {m : Bytes 32} {a : BitVec 32} {v : Nat} {limit : BitVec v} {base : BitVec 32}
    (hm : p.mem = (m.storeField a ⟨0, 2⟩ limit).storeField a ⟨2, 4⟩ base) :
    p.tableRegister a = ⟨limit.setWidth 16, base⟩ := by
  have hlimit : p.mem.load (a + 1) ++ p.mem.load a = limit.setWidth 16 := by
    apply BitVec.eq_of_getLsbD_eq
    intro i hi
    rw [hm]
    simp [Bytes.load_storeField]
    grind
  have hbase : p.mem.double (a + 2) = base := by
    apply BitVec.eq_of_getLsbD_eq
    intro i hi
    rw [hm, Bytes.getLsbD_double]
    simp [Bytes.load_storeField, BitVec.add_assoc]
    grind
  rw [tableRegister, hlimit, hbase]

namespace Processor

variable {p : Processor} {reg : SegmentRegister} {selector : BitVec 16} {offset a : BitVec 32}

theorem load_mark (p : Processor) (a b : BitVec 32) (bits : BitVec 8) :
    (p.mark a bits).mem.load b = if b = a + 5 then p.mem.load (a + 5) ||| bits else p.mem.load b := rfl

/-- A descriptor is marked. -/
theorem segmentDescriptor_mark (p : Processor) (a : BitVec 32) (bits : BitVec 8) :
    (p.mark a bits).mem.segmentDescriptor a =
      { p.mem.segmentDescriptor a with type := (p.mem.segmentDescriptor a).type ||| bits } := by
  have hother : ∀ k < 8, k ≠ 5 →
      (p.mark a bits).mem.load (a + BitVec.ofNat 32 k) = p.mem.load (a + BitVec.ofNat 32 k) := by
    intro k hk hne
    rw [load_mark, if_neg (by bv_omega)]
  have hlow : (p.mark a bits).mem.double a = p.mem.double a := by
    refine Bytes.SameAt.double ?_
    intro k hk
    exact hother k (by omega) (by omega)
  have hhigh : ∀ i < 32, i / 8 ≠ 1 → ((p.mark a bits).mem.double (a + 4)).getLsbD i = (p.mem.double (a + 4)).getLsbD i := by
    intro i hi hne
    have h4 := hother 4 (by decide) (by decide)
    have h6 := hother 6 (by decide) (by decide)
    have h7 := hother 7 (by decide) (by decide)
    have hbyte2 : a + 4 + 2 = a + 6 := by bv_omega
    have hbyte3 : a + 4 + 3 = a + 7 := by bv_omega
    simp only [Bytes.getLsbD_double, hbyte2, hbyte3]
    split_ifs with h0 h1 h2
    · exact congrArg (fun b : BitVec 8 => b.getLsbD i) h4
    · omega
    · exact congrArg (fun b : BitVec 8 => b.getLsbD (i - 16)) h6
    · exact congrArg (fun b : BitVec 8 => b.getLsbD (i - 24)) h7
  have hpart : ∀ s n, (∀ i < n, (s + i) / 8 ≠ 1 ∧ s + i < 32) →
      ((p.mark a bits).mem.double (a + 4)).extractLsb' s n = (p.mem.double (a + 4)).extractLsb' s n := by
    intro s n hs
    refine extractLsb'_eq_of_getLsbD ?_
    intro i hi
    rw [hhigh _ (hs i hi).2 (hs i hi).1, BitVec.getLsbD_extractLsb', decide_eq_true hi, Bool.true_and]
  have htype := Bytes.type_segmentDescriptor (p.mark a bits).mem a
  rw [load_mark, if_pos rfl, ← Bytes.type_segmentDescriptor] at htype
  simp only [Bytes.segmentDescriptor, SegmentDescriptor.ofDoubles] at htype ⊢
  rw [htype, hlow, hpart 24 8 (by omega), hpart 0 8 (by omega), hpart 16 4 (by omega), hpart 20 4 (by omega)]

/-- A descriptor that has the bits already stays as it is, and the memory with it. -/
theorem mark_eq_self {bits : BitVec 8} (h : (p.mem.segmentDescriptor a).type ||| bits = (p.mem.segmentDescriptor a).type) :
    p.mark a bits = p := by
  rw [Bytes.type_segmentDescriptor] at h
  have hmem : p.mem.store (a + 5) (p.mem.load (a + 5) ||| bits) = p.mem := by
    funext b
    rw [Bytes.store, h]
    by_cases hb : b = a + 5
    · rw [if_pos hb, hb]
      rfl
    · rw [if_neg hb]
  rw [mark, hmem]

theorem mov_eq (hfind : p.find selector = some a) (h : p.loads reg selector (p.mem.segmentDescriptor a) = true) :
    p.mov reg selector = some (p.keep reg selector a) := by
  rw [mov, hfind, Option.bind_some, if_pos h]

theorem jmpFar_eq (hfind : p.find selector = some a) (h : p.enters (p.mem.segmentDescriptor a) offset = true)
    (hrpl : rpl selector ≤ p.cpl) :
    p.jmpFar selector offset = some (p.keep .cs (selector.extractLsb' 2 14 ++ p.cpl) a, offset) := by
  rw [jmpFar, hfind, Option.bind_some]
  exact if_pos ⟨h, .inr hrpl⟩

theorem ltr_eq (hfind : p.find selector = some a) (hcpl : p.cpl = 0) (htask : (p.mem.segmentDescriptor a).availableTask = true)
    (hpresent : (p.mem.segmentDescriptor a).present = true) :
    p.ltr selector = some { p.mark a 0x02 with task := some ⟨selector, (p.mark a 0x02).mem.segmentDescriptor a⟩ } := by
  rw [ltr, hfind, Option.bind_some]
  exact if_pos ⟨hcpl, htask, hpresent⟩

/-- What a register keeps when its segment was accessed before. -/
theorem keep_eq_self (h : (p.mem.segmentDescriptor a).type ||| 0x01 = (p.mem.segmentDescriptor a).type)
    (hreg : p.segment reg = ⟨selector, p.mem.segmentDescriptor a⟩) : p.keep reg selector a = p := by
  have hmark := mark_eq_self h
  have hsegment : Function.update p.segment reg ⟨selector, p.mem.segmentDescriptor a⟩ = p.segment := by
    rw [← hreg, Function.update_eq_self]
  simp only [keep, hmark, hsegment]

/-- A gate that is not present. -/
theorem interrupt_none {vector : BitVec 8} {a : BitVec 32} (hentry : p.idtr.entry vector.toNat = some a)
    (hgate : (p.mem.gateDescriptor a).present = false) : p.interrupt vector = none := by
  rw [interrupt, hentry, Option.bind_some]
  refine if_neg ?_
  rw [hgate]
  exact fun h => Bool.false_ne_true h.1

/-- A gate to the segment that the interrupted code runs in. -/
theorem interrupt_same {vector : BitVec 8} {a b : BitVec 32} {g : GateDescriptor} (hentry : p.idtr.entry vector.toNat = some a)
    (hgate : p.mem.gateDescriptor a = g) (hkind : g.present = true ∧ g.interruptGate = true) (hfind : p.find g.selector = some b)
    (henters : p.enters (p.mem.segmentDescriptor b) g.base = true) (hcs : p.segment .cs = ⟨g.selector, p.mem.segmentDescriptor b⟩)
    (haccessed : (p.mem.segmentDescriptor b).type ||| 0x01 = (p.mem.segmentDescriptor b).type) :
    p.interrupt vector = some (p, g.base) := by
  have hselector : g.selector.extractLsb' 2 14 ++ p.cpl = g.selector := by
    rw [cpl, hcs]
    apply BitVec.eq_of_getLsbD_eq
    intro i hi
    simp only [rpl, BitVec.getLsbD_append, BitVec.getLsbD_extractLsb']
    grind
  have hkeep : p.keep .cs g.selector b = p := keep_eq_self haccessed hcs
  rw [interrupt, hentry, Option.bind_some, hgate]
  simp only
  rw [if_pos hkind, hfind, Option.bind_some, if_pos henters, hselector, hkeep]

end Processor
