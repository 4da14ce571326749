import LumOS.Interrupts.Stubs
import LumOS.Keyboard.Basic
import LumOS.Lib.Devices
import LumOS.Lib.Pic
import LumOS.Lib.System
import LumOS.Timer.Sleep
import Mathlib.Data.List.Basic

/-!
# The kernel and its interrupts

`kernel_main` from `idt_init` to `init_keyboard`, the two interrupt controllers, the timer, the keyboard controller, and the handlers of
`isr.c`, as one transition system. The initialisations go on one access at a time, and from `load_idt` on an interrupt can come between
any two of them; the lines change at any time, also between the request of an interrupt and its acknowledgement, and a key can be
pressed at any time. A handler runs with interrupts off, one access at a time.

`load_idt` and the gates are those of `Stubs`. What comes after `init_keyboard` in `kernel_main` does not touch these devices. A target
frequency of zero, by which `init_timer` would divide, is left out.
-/

namespace LumOS

open System

/-- The functions that are registered as handlers. -/
inductive Handler where
  | timerTick
  | keyboardHandler
  deriving DecidableEq

/-- The accesses to the devices and to what handlers share with `kernel_main`. -/
inductive Op where
  | outb (portAddr : BitVec 16) (data : BitVec 8)
  | loadIdt
  | registerInterruptHandler (idtNum : BitVec 32) (handler : Handler)
  | setClocksPerSecond (targetFrequency : BitVec 32)
  | drain
  | clearStatus
  | dispatch (irqNum idtNum : BitVec 32)
  deriving DecidableEq

/-- `PIC_MASTER_COMMAND_PORT` -/
def picMasterCommandPort : BitVec 16 := 0x20

/-- `PIC_MASTER_DATA_PORT` -/
def picMasterDataPort : BitVec 16 := picMasterCommandPort + 1

/-- `PIC_SLAVE_COMMAND_PORT` -/
def picSlaveCommandPort : BitVec 16 := 0xA0

/-- `PIC_SLAVE_DATA_PORT` -/
def picSlaveDataPort : BitVec 16 := picSlaveCommandPort + 1

/-- `PIC_EOI` -/
def picEoi : BitVec 8 := 0x20

/-- `PIT_CHANNEL0_DATA` -/
def pitChannel0Data : BitVec 16 := 0x40

/-- `PIT_CHANNEL0_COMMAND` -/
def pitChannel0Command : BitVec 16 := 0x43

/-- `sendEOI` -/
def sendEoi (irqNum : BitVec 32) : List Op :=
  (if 8 ≤ irqNum then [.outb picSlaveCommandPort picEoi] else []) ++ [.outb picMasterCommandPort picEoi]

/-- `irq_handler` -/
def irqHandler (irqNum idtNum : BitVec 32) : List Op := .dispatch irqNum idtNum :: sendEoi irqNum

/-- `idt_init`, after which the gates are `idtInit` -/
def idtInitOps : List Op :=
  [.outb picMasterCommandPort 0x11, .outb picSlaveCommandPort 0x11, .outb picMasterDataPort 0x20, .outb picSlaveDataPort 0x28,
    .outb picMasterDataPort 0x04, .outb picSlaveDataPort 0x02, .outb picMasterDataPort 0x01, .outb picSlaveDataPort 0x01,
    .outb picMasterDataPort 0xFF, .outb picSlaveDataPort 0xFF, .loadIdt]

/-- `(uint16_t)(1193182 / targetFrequency)` -/
def divider (targetFrequency : BitVec 32) : BitVec 16 := (1193182 / targetFrequency).setWidth 16

/-- `init_timer` -/
def initTimerOps (targetFrequency : BitVec 32) : List Op :=
  [.outb picMasterDataPort 0xFE, .outb picSlaveDataPort 0xFF, .registerInterruptHandler 32 .timerTick,
    .setClocksPerSecond targetFrequency, .outb pitChannel0Command 0x36,
    .outb pitChannel0Data ((divider targetFrequency &&& 0x00FF).setWidth 8),
    .outb pitChannel0Data ((divider targetFrequency >>> 8).setWidth 8)]

/-- `init_keyboard` -/
def initKeyboardOps : List Op :=
  [.registerInterruptHandler 33 .keyboardHandler, .drain, .clearStatus, .outb picMasterDataPort 0xFC, .outb picSlaveDataPort 0xFF]

/-- `kernel_main`, from `idt_init` to `init_keyboard` -/
def bootOps (targetFrequency : BitVec 32) : List Op := idtInitOps ++ initTimerOps targetFrequency ++ initKeyboardOps

/-! ## The state -/

/-- What the initialisations set up: the devices, `handlers`, and `CLOCKS_PER_SECOND`. -/
structure Setup where
  pics : Pics
  pit : Pit
  handlers : BitVec 32 → Option Handler
  clocksPerSecond : BitVec 32

namespace Setup

/-- What an access does to the setup. -/
def exec (s : Setup) : Op → Setup
  | .outb portAddr data => { s with pics := s.pics.outb portAddr data, pit := s.pit.outb portAddr data }
  | .registerInterruptHandler idtNum handler => { s with handlers := Function.update s.handlers idtNum (some handler) }
  | .setClocksPerSecond targetFrequency => { s with clocksPerSecond := targetFrequency }
  | _ => s

/-- The setup without what is in service. -/
def config (s : Setup) : Setup := { s with pics := s.pics.config }

/-- Accesses one after the other. -/
def run (s : Setup) (ops : List Op) : Setup := ops.foldl exec s

end Setup

/-- The processor is in `kernel_main`, or in a handler with these accesses still to come, or it hangs. -/
inductive Cpu where
  | main
  | irq (ops : List Op)
  | halted
  deriving DecidableEq

/-- A call of `irq_handler`, with what it has found in `handlers`. -/
structure IrqCall where
  irqNum : BitVec 32
  idtNum : BitVec 32
  handler : Option Handler
  deriving DecidableEq

/-- The machine: the setup, the keyboard controller, the variables of the handlers, the interrupt flag, what is still to come of
`kernel_main`, and where the processor is. With these are kept the vectors of the interrupts accepted, the calls of `irq_handler`, and
the bytes that have come from the keyboard, those that were dropped, and those that the handler got. -/
structure Board where
  setup : Setup
  port : KeyPort
  ticks : BitVec 32
  keyboard : Keyboard
  iflag : Bool
  main : List Op
  cpu : Cpu
  accepted : List (BitVec 8)
  calls : List IrqCall
  sent : List (BitVec 8)
  dropped : List (BitVec 8)
  received : List (BitVec 8)

namespace Board

/-- A handler is called; where there is none, `irq_handler` only prints a message. -/
def call (b : Board) : Option Handler → Board
  | none => b
  | some .timerTick => { b with ticks := (timerTick ⟨b.ticks, b.setup.clocksPerSecond⟩).ticks }
  | some .keyboardHandler =>
    { b with
      keyboard := b.keyboard.after b.port.byte
      port := b.port.read
      received := b.received ++ [b.port.byte] }

/-- `irq_handler`, up to `sendEOI` -/
def dispatch (b : Board) (irqNum idtNum : BitVec 32) : Board :=
  { b.call (b.setup.handlers idtNum) with calls := b.calls ++ [⟨irqNum, idtNum, b.setup.handlers idtNum⟩] }

/-- An access. -/
def exec (b : Board) : Op → Board
  | .loadIdt => { b with iflag := true }
  | .drain => { b with port := b.port.read, dropped := b.dropped ++ b.port.pending }
  | .clearStatus => { b with keyboard := initKeyboard b.keyboard }
  | .dispatch irqNum idtNum => b.dispatch irqNum idtNum
  | op => { b with setup := b.setup.exec op }

/-- What is still to come of `kernel_main` after an access: the loop that reads what the keyboard controller holds ends when that is
nothing. -/
def remaining (b : Board) (op : Op) (rest : List Op) : List Op := if op = .drain ∧ b.port.full then op :: rest else rest

/-- Where an interrupt leads: its gate is to the code of an IRQ, or it is an exception, or not present. -/
def entry (vector : Option (BitVec 8)) : Cpu :=
  match vector.bind (fun v => (idtInit.find? (fun gate => gate.vector = v.toNat)).bind (fun gate => defining gate.base)) with
  | some (.irqNoErrCode num abs) => .irq (irqHandler (BitVec.ofNat 32 num) (BitVec.ofNat 32 abs))
  | _ => .halted

/-- An interrupt is acknowledged, with these lines, and accepted. -/
def interrupt (b : Board) (master slave : BitVec 8) : Board :=
  { b with
    setup := { b.setup with pics := (b.setup.pics.acknowledge master slave).2 }
    port := if (b.setup.pics.master.acknowledge master).1 = 1 then b.port.acknowledge else b.port
    iflag := false
    cpu := entry (b.setup.pics.acknowledge master slave).1
    accepted := b.accepted ++ (b.setup.pics.acknowledge master slave).1.toList }

/-- Line 1 of the master is that of the keyboard controller. The others can be anything. -/
def Wired (b : Board) (master : BitVec 8) : Prop := master.getLsbD 1 = b.port.requests

/-- The lines request an interrupt. -/
def Requested (b : Board) : Prop := ∃ master slave, b.Wired master ∧ b.setup.pics.Interrupts master slave

/-- A step of the machine. -/
inductive Step : Board → Board → Prop where
  | main {b : Board} {op : Op} {rest : List Op} (hcpu : b.cpu = .main) (hmain : b.main = op :: rest) :
      Step b { b.exec op with main := b.remaining op rest }
  | interrupt {b : Board} {master slave : BitVec 8} (hcpu : b.cpu = .main) (hiflag : b.iflag = true) (hreq : b.Requested)
      (hwired : b.Wired master) : Step b (b.interrupt master slave)
  | handler {b : Board} {op : Op} {ops : List Op} (hcpu : b.cpu = .irq (op :: ops)) : Step b { b.exec op with cpu := .irq ops }
  | iret {b : Board} (hcpu : b.cpu = .irq []) : Step b { b with cpu := .main, iflag := true }
  | key {b : Board} (data : BitVec 8) (hfull : b.port.full = false) :
      Step b { b with port := b.port.receive data, sent := b.sent ++ [data] }

/-- `idt_init` is entered: interrupts are off, nothing is in service, and no handler is registered. -/
structure Start (targetFrequency : BitVec 32) (kb : Keyboard) (b : Board) : Prop where
  frequency : targetFrequency ≠ 0
  quiet : b.setup.pics.Quiet
  handlers : ∀ idtNum, b.setup.handlers idtNum = none
  ticks : b.ticks = 0
  keyboard : b.keyboard = kb
  iflag : b.iflag = false
  main : b.main = bootOps targetFrequency
  cpu : b.cpu = .main
  accepted : b.accepted = []
  calls : b.calls = []
  sent : b.sent = b.port.pending
  dropped : b.dropped = []
  received : b.received = []

/-- The system that starts with `idt_init`. -/
def system (targetFrequency : BitVec 32) (kb : Keyboard) : System Board where
  init := Start targetFrequency kb
  step := Step

end Board

namespace Board

/-- `kernel_main` goes on by one access. -/
def turn (b : Board) : Board :=
  match b.main with
  | [] => b
  | op :: rest => { b.exec op with main := b.remaining op rest }

/-- `kernel_main` goes on by a number of accesses. -/
def turns (b : Board) : Nat → Board
  | 0 => b
  | n + 1 => b.turn.turns n

end Board

/-! ## The initialisations -/

/-- The chips from `idt_init` on, with this mask at the master. -/
def bootPics (imr : BitVec 8) : Pics := ⟨⟨.ready, 0x20, 0x04, imr, 0⟩, ⟨.ready, 0x28, 0x02, 0xFF, 0⟩⟩

@[simp] theorem bootPics_imr (imr : BitVec 8) : (bootPics imr).master.imr = imr := rfl

@[simp] theorem bootPics_outb_master (imr data : BitVec 8) : (bootPics imr).outb picMasterDataPort data = bootPics data := rfl

@[simp] theorem bootPics_outb_slave (imr : BitVec 8) : (bootPics imr).outb picSlaveDataPort 0xFF = bootPics imr := rfl

@[simp] theorem bootPics_outb_command (imr data : BitVec 8) : (bootPics imr).outb pitChannel0Command data = bootPics imr := rfl

@[simp] theorem bootPics_outb_data (imr data : BitVec 8) : (bootPics imr).outb pitChannel0Data data = bootPics imr := rfl

/-- What holds of the setup between two accesses of `kernel_main`, when interrupts are on. -/
structure Enabled (main : List Op) (s : Setup) : Prop where
  pics : s.pics = bootPics s.pics.master.imr
  masked : s.pics.master.imr &&& 0xFC = 0xFC
  timer : s.handlers 32 = some .timerTick ∨ .registerInterruptHandler 32 .timerTick ∈ main
  keyboard : s.pics.master.imr.getLsbD 1 = false → s.handlers 33 = some .keyboardHandler ∧ .drain ∉ main ∧ .clearStatus ∉ main

attribute [mk_iff] Enabled

theorem Setup.run_idtInitOps {s : Setup} (hquiet : s.pics.Quiet) : s.run idtInitOps = { s with pics := bootPics 0xFF } := by
  cases s with
  | mk pics pit handlers clocksPerSecond =>
    cases pics with
    | mk master slave =>
      cases master
      cases slave
      obtain ⟨hmaster, hslave⟩ := hquiet
      simp only at hmaster hslave
      subst hmaster hslave
      rfl

theorem along_initTimerOps (targetFrequency : BitVec 32) {s : Setup} (hpics : s.pics = bootPics 0xFF) :
    Along Setup.exec Enabled (initTimerOps targetFrequency ++ initKeyboardOps) s := by
  simp only [initTimerOps, initKeyboardOps, List.cons_append, List.nil_append, Along, Setup.exec, enabled_iff, hpics,
    bootPics_outb_master, bootPics_outb_slave, bootPics_outb_command, bootPics_outb_data]
  simp

/-- Whatever the chips and the timer were, this holds all along the initialisations. -/
theorem along_bootOps (targetFrequency : BitVec 32) {s : Setup} (hquiet : s.pics.Quiet) :
    Along Setup.exec (fun main s => .loadIdt ∉ main → Enabled main s) (bootOps targetFrequency) s := by
  rw [bootOps, List.append_assoc]
  refine Along.append ?_ ?_
  · -- `load_idt` is the last of the accesses of `idt_init`
    intro done op ops hops hload
    have hlast : (done ++ op :: ops).getLast? = some .loadIdt := hops ▸ rfl
    rw [List.getLast?_append_of_ne_nil done (List.cons_ne_nil op ops)] at hlast
    exact absurd (List.mem_append_left _ (List.mem_of_getLast? hlast)) hload
  · refine (along_initTimerOps targetFrequency ?_).imp (fun _ _ h _ => h)
    show (s.run idtInitOps).pics = bootPics 0xFF
    rw [Setup.run_idtInitOps hquiet]

/-- What the initialisations leave: the lines of the timer and of the keyboard controller are not masked, the timer makes square waves
with this divider, and the two handlers are registered. -/
def bootSetup (targetFrequency : BitVec 32) : Setup where
  pics := bootPics 0xFC
  pit := { mode := some 3, low := none, count := some (divider targetFrequency) }
  handlers := Function.update (Function.update (fun _ => none) 32 (some .timerTick)) 33 (some .keyboardHandler)
  clocksPerSecond := targetFrequency

/-- A count is its two bytes. -/
theorem divider_bytes (d : BitVec 16) : (d >>> 8).setWidth 8 ++ (d &&& 0x00FF).setWidth 8 = d := by
  refine BitVec.eq_of_getLsbD_eq fun i hi => ?_
  have hbyte : ∀ i < 8, (0x00FF : BitVec 16).getLsbD i = true := by decide
  rw [BitVec.getLsbD_append]
  by_cases h : i < 8
  · rw [if_pos h, BitVec.getLsbD_setWidth, BitVec.getLsbD_and, hbyte i h, decide_eq_true h, Bool.and_true, Bool.true_and]
  · rw [if_neg h, BitVec.getLsbD_setWidth, BitVec.getLsbD_ushiftRight, decide_eq_true (by omega), Bool.true_and]
    congr 1
    omega

theorem pit_outb_pics (p : Pit) (data data' : BitVec 8) : (p.outb picMasterDataPort data).outb picSlaveDataPort data' = p := rfl

theorem pit_outb_count (p : Pit) (low high : BitVec 8) :
    ((p.outb pitChannel0Command 0x36).outb pitChannel0Data low).outb pitChannel0Data high =
      { mode := some 3, low := none, count := some (high ++ low) } := rfl

/-- Whatever the chips and the timer were, this is what the initialisations leave. -/
theorem Setup.run_bootOps (targetFrequency : BitVec 32) {s : Setup} (hquiet : s.pics.Quiet) (hnone : ∀ idtNum, s.handlers idtNum = none) :
    s.run (bootOps targetFrequency) = bootSetup targetFrequency := by
  have hhandlers : s.handlers = fun _ => none := funext hnone
  have hinit := Setup.run_idtInitOps hquiet
  rw [run] at hinit
  rw [run, bootOps, List.append_assoc, List.foldl_append, hinit]
  simp only [initTimerOps, initKeyboardOps, List.cons_append, List.nil_append, List.foldl_cons, List.foldl_nil, exec,
    bootPics_outb_master, bootPics_outb_slave, bootPics_outb_command, bootPics_outb_data, hhandlers,
    pit_outb_pics, pit_outb_count, divider_bytes]
  rfl

end LumOS
