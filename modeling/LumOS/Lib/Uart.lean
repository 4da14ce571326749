import Mathlib.Data.List.Sublists
import Mathlib.Logic.Relation
import Mathlib.Tactic.Common

/-!
# A serial port of a PC

A 16550 with its FIFOs of 16 bytes. A byte that is written goes into the FIFO of the transmitter, or is lost when that is full; from there
it goes into the shift register, and some time later on to the line, or into the receiver when the loopback is on. A byte can come from
the other side at any time. Interrupts and errors of the line are left out.

What is on its way, `Uart.pending`, only loses bytes to the loopback (`Uart.Step.pending`, `Uart.Step.normal`), and the way ends
(`Uart.drains`).
-/

/-- The registers that are only written to: interrupt enable, line control, modem control, whether the FIFOs are on, and the divisor. -/
structure UartConfig where
  ier : BitVec 8
  lcr : BitVec 8
  mcr : BitVec 8
  fifo : Bool
  divisor : BitVec 16
  deriving DecidableEq

namespace UartConfig

/-- DLAB -/
def dlab (c : UartConfig) : Bool := c.lcr.getLsbD 7

/-- Loopback -/
def loopback (c : UartConfig) : Bool := c.mcr.getLsbD 4

/-- How many bytes a direction holds. -/
def room (c : UartConfig) : Nat := if c.fifo then 16 else 1

/-- A write to a register. -/
def outb (c : UartConfig) (reg : BitVec 3) (v : BitVec 8) : UartConfig :=
  if reg = 0 then if c.dlab then { c with divisor := c.divisor.extractLsb' 8 8 ++ v } else c
  else if reg = 1 then if c.dlab then { c with divisor := v ++ c.divisor.extractLsb' 0 8 } else { c with ier := v &&& 0x0F }
  else if reg = 2 then { c with fifo := v.getLsbD 0 }
  else if reg = 3 then { c with lcr := v }
  else if reg = 4 then { c with mcr := v &&& 0x1F }
  else c

end UartConfig

/-- A 16550: the registers, the bytes in the transmitter's FIFO, the shift register, the bytes in the receiver's FIFO, and what an empty
one gives. With these are kept the bytes that have gone out, and those that were written when there was no room. -/
structure Uart where
  config : UartConfig
  tx : List (BitVec 8)
  shift : Option (BitVec 8)
  rx : List (BitVec 8)
  last : BitVec 8
  wire : List (BitVec 8)
  lost : List (BitVec 8)

namespace Uart

/-- A byte for the transmitter. -/
def transmit (u : Uart) (v : BitVec 8) : Uart :=
  if u.tx.length < u.config.room then { u with tx := u.tx ++ [v] } else { u with lost := u.lost ++ [v] }

/-- A byte for the receiver. -/
def receive (u : Uart) (v : BitVec 8) : Uart := { u with rx := if u.rx.length < u.config.room then u.rx ++ [v] else u.rx }

/-- A write to the FIFO control register empties the FIFOs that it says, and both when they are turned on or off. -/
def control (u : Uart) (v : BitVec 8) : Uart :=
  let turned := v.getLsbD 0 != u.config.fifo
  { u with
    rx := if turned || (v.getLsbD 0 && v.getLsbD 1) then [] else u.rx
    tx := if turned || (v.getLsbD 0 && v.getLsbD 2) then [] else u.tx }

/-- A write to a register. -/
def outb (u : Uart) (reg : BitVec 3) (v : BitVec 8) : Uart :=
  let w := if reg = 0 ∧ u.config.dlab = false then u.transmit v else if reg = 2 then u.control v else u
  { w with config := u.config.outb reg v }

/-- A read of the data register, with DLAB off. -/
def data (u : Uart) : BitVec 8 × Uart :=
  match u.rx with
  | [] => (u.last, u)
  | v :: rx => (v, { u with rx := rx, last := v })

/-- The line status register: data to be read, and room in the transmitter. -/
def lineStatus (u : Uart) : BitVec 8 :=
  (if u.rx = [] then 0x00 else 0x01) ||| (if u.tx = [] then 0x20 else 0x00) |||
    (if u.tx = [] ∧ u.shift = none then 0x40 else 0x00)

/-- What the chip does by itself. -/
inductive Step : Uart → Uart → Prop where
  | load {u : Uart} {v : BitVec 8} {tx : List (BitVec 8)} (htx : u.tx = v :: tx) (hshift : u.shift = none) :
      Step u { u with tx := tx, shift := some v }
  | emit {u : Uart} {v : BitVec 8} (hloop : u.config.loopback = false) (hshift : u.shift = some v) :
      Step u { u with shift := none, wire := u.wire ++ [v] }
  | echo {u : Uart} {v : BitVec 8} (hloop : u.config.loopback = true) (hshift : u.shift = some v) :
      Step u { u.receive v with shift := none }
  | arrive {u : Uart} (v : BitVec 8) (hloop : u.config.loopback = false) : Step u (u.receive v)

/-- What has gone out and what is still on its way. -/
def pending (u : Uart) : List (BitVec 8) := u.wire ++ (u.shift.toList ++ u.tx)

@[simp] theorem outb_config (u : Uart) (reg : BitVec 3) (v : BitVec 8) : (u.outb reg v).config = u.config.outb reg v := rfl

/-- What has gone out comes first. -/
theorem wire_sublist (u : Uart) : u.wire.Sublist u.pending := List.sublist_append_left _ _

section

variable {u u' : Uart}

/-- The chip does not change the registers, and loses nothing. -/
theorem Step.kept (h : Step u u') : u'.config = u.config ∧ u'.lost = u.lost ∧ (u.tx = [] → u'.tx = []) := by
  cases h with
  | load htx hshift =>
    refine ⟨rfl, rfl, ?_⟩
    intro hnil
    rw [hnil] at htx
    cases htx
  | emit hloop hshift => exact ⟨rfl, rfl, id⟩
  | echo hloop hshift => exact ⟨rfl, rfl, id⟩
  | arrive v hloop => exact ⟨rfl, rfl, id⟩

/-- With the loopback off what is on its way goes out. -/
theorem Step.normal (h : Step u u') (hloop : u.config.loopback = false) : u'.pending = u.pending := by
  cases h with
  | load htx hshift => simp [pending, htx, hshift]
  | emit hloop hshift => simp [pending, hshift]
  | echo hloop' hshift =>
    rw [hloop] at hloop'
    cases hloop'
  | arrive v hloop => rfl

/-- With the loopback on nothing goes out. -/
theorem Step.looped (h : Step u u') (hloop : u.config.loopback = true) : u'.wire = u.wire := by
  cases h with
  | load htx hshift => rfl
  | emit hloop' hshift =>
    rw [hloop] at hloop'
    cases hloop'
  | echo hloop' hshift => rfl
  | arrive v hloop' => rfl

/-- In either case nothing is added to what is on its way, and what has gone out is a part of it. -/
theorem Step.pending (h : Step u u') : u'.pending.Sublist u.pending := by
  by_cases hloop : u.config.loopback = true
  · cases h with
    | load htx hshift => simp [Uart.pending, htx, hshift]
    | emit hloop' hshift =>
      rw [hloop] at hloop'
      cases hloop'
    | echo hloop' hshift =>
      simp only [Uart.pending, hshift, receive, Option.toList_none, List.nil_append]
      exact List.Sublist.append_left (List.sublist_append_right _ _) _
    | arrive v hloop' => exact List.Sublist.refl _
  · rw [h.normal (by simpa using hloop)]

/-- A write that is not of data adds nothing. -/
theorem outb_register {reg : BitVec 3} (hreg : ¬(reg = 0 ∧ u.config.dlab = false)) (v : BitVec 8) :
    (u.outb reg v).pending.Sublist u.pending ∧ (u.outb reg v).lost = u.lost ∧ (u.tx = [] → (u.outb reg v).tx = []) := by
  rw [outb]
  simp only [if_neg hreg]
  split
  · refine ⟨?_, rfl, ?_⟩
    · simp only [Uart.pending, control]
      refine List.Sublist.append_left (List.Sublist.append_left ?_ _) _
      split
      · exact List.nil_sublist _
      · exact List.Sublist.refl _
    · intro htx
      simp only [control, htx, ite_self]
  · exact ⟨List.Sublist.refl _, rfl, id⟩

/-- A write of data to an empty transmitter. -/
theorem outb_data (htx : u.tx = []) (hdlab : u.config.dlab = false) (v : BitVec 8) :
    (u.outb 0 v).pending = u.pending ++ [v] ∧ (u.outb 0 v).wire = u.wire ∧ (u.outb 0 v).lost = u.lost ∧
      (u.outb 0 v).config = u.config := by
  have hroom : u.tx.length < u.config.room := by
    rw [htx, UartConfig.room]
    split <;> decide
  have hconfig : u.config.outb 0 v = u.config := by
    simp [UartConfig.outb, hdlab]
  have houtb : u.outb 0 v = { u with tx := u.tx ++ [v] } := by
    simp only [outb, hconfig, transmit, if_pos hroom, hdlab, and_self, if_true]
  rw [houtb]
  refine ⟨?_, rfl, rfl, rfl⟩
  simp [Uart.pending, htx]

/-- The line status says whether the transmitter is empty. -/
theorem lineStatus_empty (u : Uart) : u.lineStatus &&& 0x20 = 0 ↔ u.tx ≠ [] := by
  unfold lineStatus
  by_cases hrx : u.rx = [] <;> by_cases htx : u.tx = [] <;> by_cases hshift : u.shift = none <;> simp [hrx, htx, hshift]

/-- The transmitter gets empty. -/
theorem drains (u : Uart) : ∃ u', Relation.ReflTransGen Step u u' ∧ u'.tx = [] ∧ u'.shift = none := by
  have hemit : ∀ u : Uart, ∃ u', Relation.ReflTransGen Step u u' ∧ u'.tx = u.tx ∧ u'.shift = none := by
    intro u
    cases hshift : u.shift with
    | none => exact ⟨u, .refl, rfl, hshift⟩
    | some v =>
      cases hloop : u.config.loopback with
      | false => exact ⟨_, .single (.emit hloop hshift), rfl, rfl⟩
      | true => exact ⟨_, .single (.echo hloop hshift), rfl, rfl⟩
  induction htx : u.tx generalizing u with
  | nil =>
    obtain ⟨u', hsteps, htx', hshift⟩ := hemit u
    exact ⟨u', hsteps, htx'.trans htx, hshift⟩
  | cons v tx ih =>
    obtain ⟨u₁, hsteps, htx₁, hshift⟩ := hemit u
    have hload := Step.load (htx₁.trans htx) hshift
    obtain ⟨u₂, hrest, hdone⟩ := ih { u₁ with tx := tx, shift := some v } rfl
    exact ⟨u₂, (hsteps.tail hload).trans hrest, hdone⟩

end

end Uart
