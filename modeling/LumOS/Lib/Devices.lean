import Mathlib.Tactic.Common

/-!
# The timer and the keyboard controller of a PC

Channel 0 of an 8253, which is given its counts in two bytes, and the output buffer of an 8042. The controller puts a byte in its buffer
only when the one before has been read, and its line requests an interrupt until the byte is read or the request is acknowledged.
-/

/-- Channel 0 of an 8253: its mode, the low byte of a count of which the high byte is still to come, and the count. -/
structure Pit where
  mode : Option (BitVec 3)
  low : Option (BitVec 8)
  count : Option (BitVec 16)

namespace Pit

/-- A control word. One for another channel changes nothing here; of those for channel 0 only binary counts in two bytes are in the
model. -/
def command (p : Pit) (v : BitVec 8) : Pit :=
  if v.extractLsb' 6 2 ≠ 0 then p
  else if v.extractLsb' 4 2 = 3 ∧ v.getLsbD 0 = false then { mode := some (v.extractLsb' 1 3), low := none, count := none }
  else { mode := none, low := none, count := none }

/-- A byte of a count, the low one first. -/
def data (p : Pit) (v : BitVec 8) : Pit :=
  match p.low with
  | none => { p with low := some v }
  | some l => { p with low := none, count := some (v ++ l) }

/-- A write to a port, which is one of the channel's or not. -/
def outb (p : Pit) (portAddr : BitVec 16) (data : BitVec 8) : Pit :=
  if portAddr = 0x43 then p.command data else if portAddr = 0x40 then p.data data else p

end Pit

/-- The clocks of the input from one interrupt to the next, when the channel makes square waves (mode 3): a count of 0 stands for
`2 ^ 16`, and none is had from a count of 1, which that mode does not allow. -/
def pitPeriod (count : BitVec 16) : Option Nat :=
  if count = 1 then none else some (if count = 0 then 65536 else count.toNat)

/-- The output buffer of an 8042: the byte that its data port gives, whether it is still to be read, and whether the interrupt it has
requested is still to be acknowledged. -/
structure KeyPort where
  byte : BitVec 8
  full : Bool
  edge : Bool

namespace KeyPort

/-- The line is raised and the interrupt is not acknowledged yet. -/
def requests (k : KeyPort) : Bool := k.edge && k.full

/-- A byte comes from the keyboard. -/
def receive (k : KeyPort) (b : BitVec 8) : KeyPort := { k with byte := b, full := true, edge := true }

/-- The data port is read. -/
def read (k : KeyPort) : KeyPort := { k with full := false }

/-- The interrupt is acknowledged. -/
def acknowledge (k : KeyPort) : KeyPort := { k with edge := false }

/-- The bytes that are still to be read. -/
def pending (k : KeyPort) : List (BitVec 8) := if k.full then [k.byte] else []

end KeyPort
