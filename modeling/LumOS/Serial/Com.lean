import LumOS.Lib.System
import LumOS.Lib.Uart

/-!
# The serial port

`init_com1` and calls of `com1_send`, one access at a time, and the chip at `COM1`, as one transition system: between any two accesses the
chip moves bytes, and bytes can come in. The loopback test reads at once what it has written, so whether it finds it there is for the chip
to say; when it does not, the loopback stays on.

In either case no byte is written when there is no room for it, and unless the loopback stays on the bytes go out as they are sent
(`serial_in_order`). From wherever the processor is in this it gets to the end (`serial_finishes`).
-/

namespace LumOS

open System

/-- `COM1` -/
def com1 : BitVec 16 := 0x3F8

/-- `COM_DATA` -/
def comData : BitVec 16 := 0

/-- `COM_INTERRUPT_ENABLE` -/
def comInterruptEnable : BitVec 16 := 1

/-- `COM_BAUD_DIV_LSB` -/
def comBaudDivLsb : BitVec 16 := 0

/-- `COM_BAUD_DIV_MSB` -/
def comBaudDivMsb : BitVec 16 := 1

/-- `COM_FIFO_CTL` -/
def comFifoCtl : BitVec 16 := 2

/-- `COM_LINE_CTL` -/
def comLineCtl : BitVec 16 := 3

/-- `COM_DLAB` -/
def comDlab : BitVec 16 := 3

/-- `COM_MODEM_CTL` -/
def comModemCtl : BitVec 16 := 4

/-- The register of the chip at a port. -/
def comRegister (portAddr : BitVec 16) : BitVec 3 := (portAddr - com1).setWidth 3

/-- The accesses to the chip: a write, the loopback test, and `com1_send` before and after its loop. -/
inductive ComOp where
  | outb (portAddr : BitVec 16) (data : BitVec 8)
  | loopbackTest
  | com1Send (ch : BitVec 8)
  | sendReady (ch : BitVec 8)
  deriving DecidableEq

/-- The writes of `init_com1` before the loopback test. -/
def initCom1Writes : List (BitVec 16 × BitVec 8) :=
  [(com1 + comInterruptEnable, 0x00), (com1 + comDlab, 0x80), (com1 + comBaudDivLsb, 0x03), (com1 + comBaudDivMsb, 0x00),
    (com1 + comLineCtl, 0x03), (com1 + comFifoCtl, 0xC7), (com1 + comModemCtl, 0x0B), (com1 + comModemCtl, 0x1E),
    (com1 + comData, 0x55)]

/-- A write, as an access. -/
def ComOp.ofWrite (write : BitVec 16 × BitVec 8) : ComOp := .outb write.1 write.2

/-- `init_com1` -/
def initCom1 : List ComOp := initCom1Writes.map .ofWrite ++ [.loopbackTest]

/-- The chip, what is still to come of the program, and the characters that `com1_send` has written. -/
structure ComPort where
  uart : Uart
  ops : List ComOp
  sent : List (BitVec 8)

namespace ComPort

/-- An access, with what comes after it. A turn of the loop of `com1_send` finds the transmitter empty, or another turn follows. -/
def exec (s : ComPort) (rest : List ComOp) : ComOp → ComPort
  | .outb portAddr data => { s with uart := s.uart.outb (comRegister portAddr) data, ops := rest }
  | .loopbackTest =>
    { s with
      uart := s.uart.data.2
      ops := if s.uart.data.1 = 0x55 then .outb (com1 + comModemCtl) 0x0F :: rest else rest }
  | .com1Send ch => { s with ops := if s.uart.lineStatus &&& 0x20 = 0 then .com1Send ch :: rest else .sendReady ch :: rest }
  | .sendReady ch => { s with uart := s.uart.outb (comRegister (com1 + comData)) ch, ops := rest, sent := s.sent ++ [ch] }

/-- A step of the program or of the chip. -/
inductive Step : ComPort → ComPort → Prop where
  | program {s : ComPort} {op : ComOp} {rest : List ComOp} (hops : s.ops = op :: rest) : Step s (s.exec rest op)
  | chip {s : ComPort} {u : Uart} (h : Uart.Step s.uart u) : Step s { s with uart := u }

/-- `init_com1` is entered, with a text to be sent after it. -/
structure Start (u : Uart) (text : List (BitVec 8)) (s : ComPort) : Prop where
  uart : s.uart = u
  wire : u.wire = []
  lost : u.lost = []
  ops : s.ops = initCom1 ++ text.map .com1Send
  sent : s.sent = []

/-- The system that starts with `init_com1`, with the chip in any state. -/
def system (u : Uart) (text : List (BitVec 8)) : System ComPort where
  init := Start u text
  step := Step

/-- The program is past `init_com1`. -/
def Initialised (s : ComPort) : Prop := ∀ op ∈ s.ops, ∃ ch, op = .com1Send ch ∨ op = .sendReady ch

end ComPort

/-! ## The phases -/

/-- What `init_com1` sets the registers to, but for the modem control. When DLAB is on at its beginning, the first write is to the divisor
and not to the interrupt enable register. -/
def comConfig (c : UartConfig) (mcr : BitVec 8) : UartConfig :=
  { ier := if c.dlab then c.ier else 0, lcr := 0x03, mcr := mcr, fifo := true, divisor := 3 }

/-- The registers after writes. -/
def configAfter (c : UartConfig) (writes : List (BitVec 16 × BitVec 8)) : UartConfig :=
  writes.foldl (fun c write => c.outb (comRegister write.1) write.2) c

theorem configAfter_append (c : UartConfig) (done todo : List (BitVec 16 × BitVec 8)) :
    configAfter c (done ++ todo) = configAfter (configAfter c done) todo := List.foldl_append

theorem comRegister_ports : comRegister (com1 + comInterruptEnable) = 1 ∧ comRegister (com1 + comDlab) = 3 ∧
    comRegister (com1 + comBaudDivLsb) = 0 ∧ comRegister (com1 + comBaudDivMsb) = 1 ∧ comRegister (com1 + comLineCtl) = 3 ∧
    comRegister (com1 + comFifoCtl) = 2 ∧ comRegister (com1 + comModemCtl) = 4 ∧ comRegister (com1 + comData) = 0 := by decide

/-- A divisor is its two bytes, the low one written first. -/
theorem divisor_bytes (d : BitVec 16) (low high : BitVec 8) :
    high ++ (d.extractLsb' 8 8 ++ low).extractLsb' 0 8 = (high ++ low : BitVec 16) := by
  have hlow : (d.extractLsb' 8 8 ++ low).extractLsb' 0 8 = low := by
    apply BitVec.eq_of_getLsbD_eq
    intro i hi
    simp only [BitVec.getLsbD_extractLsb', BitVec.getLsbD_append]
    grind
  rw [hlow]

/-- All but the last write set the registers. -/
theorem configAfter_writes (c : UartConfig) : configAfter c (initCom1Writes.take 8) = comConfig c 0x1E := by
  obtain ⟨h1, h3, h0, h1', h3', h2, h4, -⟩ := comRegister_ports
  simp only [configAfter, initCom1Writes, List.take, List.foldl, h1, h3, h0, h1', h3', h2, h4]
  unfold UartConfig.outb
  simp [UartConfig.dlab, comConfig, divisor_bytes]
  split <;> rfl

theorem comConfig_looped (c : UartConfig) : (comConfig c 0x1E).loopback = true := by
  show (0x1E : BitVec 8).getLsbD 4 = true
  decide

theorem comConfig_normal (c : UartConfig) : (comConfig c 0x0F).loopback = false := by
  show (0x0F : BitVec 8).getLsbD 4 = false
  decide

theorem comConfig_dlab (c : UartConfig) (mcr : BitVec 8) : (comConfig c mcr).dlab = false := by
  show (0x03 : BitVec 8).getLsbD 7 = false
  decide

/-- Where the program is after `init_com1`: the characters sent and those still to be sent make up the text, and a character is written
to an empty transmitter. -/
def Sending (text : List (BitVec 8)) (s : ComPort) : Prop :=
  (∃ todo, s.ops = todo.map .com1Send ∧ s.sent ++ todo = text) ∨
    ∃ ch todo, s.ops = .sendReady ch :: todo.map .com1Send ∧ s.sent ++ ch :: todo = text ∧ s.uart.tx = []

/-- What is known in each phase, with the chip in the state `u` at first: the writes of `init_com1`, the loopback test and the write after
it, and then the text, with the loopback off or on. -/
inductive Phase (u : Uart) (text : List (BitVec 8)) : ComPort → Prop where
  | setup {s : ComPort} {i : Nat} (hi : i < 9)
      (hops : s.ops = (initCom1Writes.drop i).map .ofWrite ++ .loopbackTest :: text.map .com1Send) (hsent : s.sent = [])
      (hconfig : s.uart.config = configAfter u.config (initCom1Writes.take i)) (hpending : s.uart.pending.Sublist u.pending)
      (htx : 6 ≤ i → s.uart.tx = []) : Phase u text s
  | test {s : ComPort} (hops : s.ops = .loopbackTest :: text.map .com1Send) (hsent : s.sent = [])
      (hconfig : s.uart.config = comConfig u.config 0x1E) (hpending : s.uart.pending.Sublist (u.pending ++ [0x55]))
      (hwire : s.uart.wire.Sublist u.pending) : Phase u text s
  | passed {s : ComPort} (hops : s.ops = .outb (com1 + comModemCtl) 0x0F :: text.map .com1Send) (hsent : s.sent = [])
      (hconfig : s.uart.config = comConfig u.config 0x1E) (hpending : s.uart.pending.Sublist (u.pending ++ [0x55])) : Phase u text s
  | normal {s : ComPort} {before : List (BitVec 8)} (hsending : Sending text s) (hconfig : s.uart.config = comConfig u.config 0x0F)
      (hbefore : before.Sublist (u.pending ++ [0x55])) (hpending : s.uart.pending = before ++ s.sent) : Phase u text s
  | looped {s : ComPort} (hsending : Sending text s) (hconfig : s.uart.config = comConfig u.config 0x1E)
      (hwire : s.uart.wire.Sublist u.pending) : Phase u text s

section

variable {u : Uart} {text : List (BitVec 8)} {s t : ComPort}

theorem Sending.chip (h : Sending text s) {v : Uart} (hstep : Uart.Step s.uart v) : Sending text { s with uart := v } := by
  rcases h with ⟨todo, hops, hsent⟩ | ⟨ch, todo, hops, hsent, htx⟩
  · exact .inl ⟨todo, hops, hsent⟩
  · exact .inr ⟨ch, todo, hops, hsent, hstep.kept.2.2 htx⟩

/-- The chip keeps the phase. -/
theorem Phase.chip (h : Phase u text s) {v : Uart} (hstep : Uart.Step s.uart v) : Phase u text { s with uart := v } := by
  obtain ⟨hkept, -, hempty⟩ := hstep.kept
  cases h with
  | setup hi hops hsent hconfig hpending htx =>
    exact .setup hi hops hsent (hkept.trans hconfig) (hstep.pending.trans hpending) (fun h6 => hempty (htx h6))
  | test hops hsent hconfig hpending hwire =>
    have hloop := hconfig ▸ comConfig_looped u.config
    refine .test hops hsent (hkept.trans hconfig) (hstep.pending.trans hpending) ?_
    show v.wire.Sublist u.pending
    rw [hstep.looped hloop]
    exact hwire
  | passed hops hsent hconfig hpending => exact .passed hops hsent (hkept.trans hconfig) (hstep.pending.trans hpending)
  | normal hsending hconfig hbefore hpending =>
    have hloop := hconfig ▸ comConfig_normal u.config
    exact .normal (hsending.chip hstep) (hkept.trans hconfig) hbefore ((hstep.normal hloop).trans hpending)
  | looped hsending hconfig hwire =>
    have hloop := hconfig ▸ comConfig_looped u.config
    refine .looped (hsending.chip hstep) (hkept.trans hconfig) ?_
    show v.wire.Sublist u.pending
    rw [hstep.looped hloop]
    exact hwire

/-- The writes before the last are not of data. -/
theorem initCom1Writes_registers (c : UartConfig) {i : Nat} (hi : i < 8) {write : BitVec 16 × BitVec 8}
    (hwrite : initCom1Writes[i]? = some write) :
    ¬(comRegister write.1 = 0 ∧ (configAfter c (initCom1Writes.take i)).dlab = false) := by
  have hdlab : (configAfter c (initCom1Writes.take 2)).dlab = true := by
    show (0x80 : BitVec 8).getLsbD 7 = true
    decide
  rintro ⟨hreg, hoff⟩
  by_cases h2 : i = 2
  · rw [h2, hdlab] at hoff
    cases hoff
  · have hother : ∀ i < 8, i ≠ 2 → (initCom1Writes[i]?).all (fun write => comRegister write.1 != 0) = true := by decide
    have hne := hother i hi h2
    rw [hwrite, Option.all_some, bne_iff_ne] at hne
    exact hne hreg

/-- A write of `init_com1` before the last. -/
theorem Phase.write {i : Nat} (hi : i < 8) {write : BitVec 16 × BitVec 8} (hwrite : initCom1Writes[i]? = some write)
    {rest : List ComOp} (hrest : rest = (initCom1Writes.drop (i + 1)).map .ofWrite ++ .loopbackTest :: text.map .com1Send)
    (hsent : s.sent = []) (hconfig : s.uart.config = configAfter u.config (initCom1Writes.take i))
    (hpending : s.uart.pending.Sublist u.pending) (htx : 6 ≤ i → s.uart.tx = []) :
    Phase u text (s.exec rest (.ofWrite write)) ∧ (s.exec rest (.ofWrite write)).uart.lost = s.uart.lost := by
  have hreg := initCom1Writes_registers u.config hi hwrite
  rw [← hconfig] at hreg
  obtain ⟨hkept, hlost, hempty⟩ := Uart.outb_register hreg write.2
  refine ⟨.setup (i := i + 1) (by omega) hrest hsent ?_ (hkept.trans hpending) ?_, hlost⟩
  · show s.uart.config.outb _ _ = _
    rw [hconfig, List.take_add_one, hwrite, configAfter_append]
    rfl
  · intro h6
    by_cases h5 : i = 5
    · -- the FIFOs are emptied
      subst h5
      rw [← Option.some.inj hwrite]
      have hfifo : comRegister (com1 + comFifoCtl) = 2 := by decide
      show (s.uart.outb (comRegister (com1 + comFifoCtl)) 0xC7).tx = []
      rw [hfifo]
      simp [Uart.outb, Uart.control]
    · exact hempty (htx (by omega))

/-- Between two calls of `com1_send`, or in one. -/
theorem Sending.program (h : Sending text s) {op : ComOp} {rest : List ComOp} (hops : s.ops = op :: rest)
    (hdlab : s.uart.config.dlab = false) :
    Sending text (s.exec rest op) ∧ (s.exec rest op).uart.config = s.uart.config ∧ (s.exec rest op).uart.lost = s.uart.lost ∧
      (s.exec rest op).uart.wire = s.uart.wire ∧
      ∃ new, (s.exec rest op).uart.pending = s.uart.pending ++ new ∧ (s.exec rest op).sent = s.sent ++ new := by
  rcases h with ⟨todo, htodo, hsent⟩ | ⟨ch, todo, htodo, hsent, htx⟩
  · cases todo with
    | nil =>
      rw [htodo] at hops
      cases hops
    | cons ch todo =>
      rw [htodo, List.map_cons] at hops
      obtain ⟨rfl, rfl⟩ := List.cons.inj hops
      refine ⟨?_, rfl, rfl, rfl, [], (List.append_nil _).symm, (List.append_nil _).symm⟩
      by_cases hbusy : s.uart.lineStatus &&& 0x20 = 0
      · exact .inl ⟨ch :: todo, if_pos hbusy, hsent⟩
      · have hempty : s.uart.tx = [] := not_not.mp ((not_congr s.uart.lineStatus_empty).mp hbusy)
        exact .inr ⟨ch, todo, if_neg hbusy, hsent, hempty⟩
  · rw [htodo] at hops
    obtain ⟨rfl, rfl⟩ := List.cons.inj hops
    have hdata : comRegister (com1 + comData) = 0 := by decide
    obtain ⟨hpending, hwire, hlost, hconfig⟩ := Uart.outb_data htx hdlab ch
    simp only [ComPort.exec, hdata]
    refine ⟨.inl ⟨todo, rfl, ?_⟩, hconfig, hlost, hwire, [ch], hpending, rfl⟩
    rw [List.append_assoc, List.singleton_append]
    exact hsent

/-- A step of the program keeps what is known, and loses nothing. -/
theorem Phase.program (h : Phase u text s) {op : ComOp} {rest : List ComOp} (hops : s.ops = op :: rest) :
    Phase u text (s.exec rest op) ∧ (s.exec rest op).uart.lost = s.uart.lost := by
  cases h with
  | @setup i hi hsetup hsent hconfig hpending htx =>
    have hlen : i < initCom1Writes.length := hi
    rw [hsetup, List.drop_eq_getElem_cons hlen, List.map_cons, List.cons_append] at hops
    obtain ⟨hop, hrest⟩ := List.cons.inj hops
    subst hop
    by_cases h8 : i < 8
    · exact Phase.write h8 (List.getElem?_eq_getElem hlen) hrest.symm hsent hconfig hpending htx
    · obtain rfl : i = 8 := by omega
      have hset : s.uart.config = comConfig u.config 0x1E := hconfig.trans (configAfter_writes u.config)
      have hdata : comRegister (com1 + comData) = 0 := by decide
      obtain ⟨hpending', hwire, hlost, hconfig'⟩ := Uart.outb_data (htx (by decide)) (hset ▸ comConfig_dlab u.config 0x1E) 0x55
      have hexec : (s.exec rest (.ofWrite initCom1Writes[8])).uart = s.uart.outb 0 0x55 := by
        rw [← hdata]
        rfl
      refine ⟨.test hrest.symm hsent ?_ ?_ ?_, ?_⟩
      · rw [hexec, hconfig', hset]
      · rw [hexec, hpending']
        exact hpending.append_right _
      · rw [hexec, hwire]
        exact s.uart.wire_sublist.trans hpending
      · rw [hexec, hlost]
  | test htest hsent hconfig hpending hwire =>
    rw [htest] at hops
    obtain ⟨rfl, rfl⟩ := List.cons.inj hops
    have hread : s.uart.data.2.config = s.uart.config ∧ s.uart.data.2.pending = s.uart.pending ∧
        s.uart.data.2.wire = s.uart.wire ∧ s.uart.data.2.lost = s.uart.lost := by
      unfold Uart.data
      split <;> exact ⟨rfl, rfl, rfl, rfl⟩
    obtain ⟨hconfig', hpending', hwire', hlost⟩ := hread
    refine ⟨?_, hlost⟩
    by_cases hbyte : s.uart.data.1 = 0x55
    · exact .passed (if_pos hbyte) hsent (hconfig'.trans hconfig) (hpending'.symm ▸ hpending)
    · exact .looped (.inl ⟨text, if_neg hbyte, by rw [show (s.exec _ .loopbackTest).sent = s.sent from rfl, hsent]; rfl⟩)
        (hconfig'.trans hconfig) (hwire'.symm ▸ hwire)
  | passed hpassed hsent hconfig hpending =>
    rw [hpassed] at hops
    obtain ⟨rfl, rfl⟩ := List.cons.inj hops
    have hmodem : comRegister (com1 + comModemCtl) = 4 := by decide
    have hexec : (s.exec (text.map .com1Send) (.outb (com1 + comModemCtl) 0x0F)).uart =
        { s.uart with config := comConfig u.config 0x0F } := by
      show s.uart.outb (comRegister (com1 + comModemCtl)) 0x0F = _
      rw [hmodem, Uart.outb, hconfig]
      rfl
    refine ⟨@Phase.normal _ _ _ s.uart.pending (.inl ⟨text, rfl, ?_⟩) ?_ hpending ?_, ?_⟩
    · show s.sent ++ text = text
      rw [hsent, List.nil_append]
    · rw [hexec]
    · rw [hexec]
      show s.uart.pending = s.uart.pending ++ s.sent
      rw [hsent, List.append_nil]
    · rw [hexec]
  | normal hsending hconfig hbefore hpending =>
    obtain ⟨hsending', hconfig', hlost, -, new, hpending', hsent'⟩ :=
      hsending.program hops (hconfig ▸ comConfig_dlab u.config 0x0F)
    refine ⟨.normal hsending' (hconfig'.trans hconfig) hbefore ?_, hlost⟩
    rw [hpending', hpending, hsent', List.append_assoc]
  | looped hsending hconfig hwire =>
    obtain ⟨hsending', hconfig', hlost, hwire', -⟩ := hsending.program hops (hconfig ▸ comConfig_dlab u.config 0x1E)
    exact ⟨.looped hsending' (hconfig'.trans hconfig) (hwire'.symm ▸ hwire), hlost⟩

/-- What is known in every state that is reached. -/
theorem phase_of_reachable (h : (ComPort.system u text).Reachable s) : Phase u text s ∧ s.uart.lost = [] := by
  refine h.invariant (fun s => Phase u text s ∧ s.uart.lost = []) ?_ ?_
  · rintro s ⟨rfl, hwire, hlost, hops, hsent⟩
    refine ⟨.setup (i := 0) (by decide) ?_ hsent rfl (List.Sublist.refl _) (fun h6 => absurd h6 (by decide)), hlost⟩
    rw [hops, initCom1, List.append_assoc]
    rfl
  · rintro s t - ⟨hphase, hlost⟩ hstep
    cases hstep with
    | program hops =>
      obtain ⟨hphase', hlost'⟩ := hphase.program hops
      exact ⟨hphase', hlost'.trans hlost⟩
    | chip hchip => exact ⟨hphase.chip hchip, hchip.kept.2.1.trans hlost⟩

/-- The characters sent are the first of the text. -/
theorem Sending.isPrefix (h : Sending text s) : s.sent <+: text := by
  rcases h with ⟨todo, -, hsent⟩ | ⟨ch, todo, -, hsent, -⟩
  · exact ⟨todo, hsent⟩
  · exact ⟨ch :: todo, hsent⟩

/-- Past `init_com1` the loopback is off or on. -/
theorem Phase.of_initialised (h : Phase u text s) (hinit : s.Initialised) : Sending text s ∧
    ((s.uart.config = comConfig u.config 0x0F ∧
      ∃ before, before.Sublist (u.pending ++ [0x55]) ∧ s.uart.pending = before ++ s.sent) ∨
    s.uart.config = comConfig u.config 0x1E ∧ s.uart.wire.Sublist u.pending) := by
  cases h with
  | @setup i hi hops =>
    obtain ⟨ch, hch⟩ := hinit .loopbackTest (by simp [hops])
    cases hch <;> contradiction
  | test hops =>
    obtain ⟨ch, hch⟩ := hinit .loopbackTest (by simp [hops])
    cases hch <;> contradiction
  | passed hops =>
    obtain ⟨ch, hch⟩ := hinit (.outb (com1 + comModemCtl) 0x0F) (by simp [hops])
    cases hch <;> contradiction
  | normal hsending hconfig hbefore hpending => exact ⟨hsending, .inl ⟨hconfig, _, hbefore, hpending⟩⟩
  | looped hsending hconfig hwire => exact ⟨hsending, .inr ⟨hconfig, hwire⟩⟩

/-! ## The way to the end -/

namespace ComPort

/-- The chip goes on by itself. -/
theorem chip_steps {v : Uart} (h : Relation.ReflTransGen Uart.Step s.uart v) :
    Relation.ReflTransGen Step s { s with uart := v } := by
  induction h with
  | refl => exact .refl
  | tail _ hstep ih => exact ih.tail (.chip hstep)

/-- The program gets past its next access. -/
theorem op_steps {op : ComOp} {rest : List ComOp} (hops : s.ops = op :: rest) :
    ∃ t, Relation.ReflTransGen Step s t ∧ t.ops = rest := by
  cases op with
  | outb portAddr data => exact ⟨_, .single (.program hops), rfl⟩
  | loopbackTest =>
    have hfirst : Step s (s.exec rest .loopbackTest) := .program hops
    by_cases hbyte : s.uart.data.1 = 0x55
    · have hnext : (s.exec rest .loopbackTest).ops = .outb (com1 + comModemCtl) 0x0F :: rest := if_pos hbyte
      exact ⟨_, (Relation.ReflTransGen.single hfirst).tail (.program hnext), rfl⟩
    · exact ⟨_, .single hfirst, if_neg hbyte⟩
  | com1Send ch =>
    -- the loop ends when the transmitter is empty
    obtain ⟨v, hsteps, htx, -⟩ := s.uart.drains
    have hdrained := chip_steps hsteps
    have hpoll : Step { s with uart := v } (exec { s with uart := v } rest (.com1Send ch)) := .program hops
    have hready : ¬(v.lineStatus &&& 0x20 = 0) := fun hbusy => v.lineStatus_empty.mp hbusy htx
    have hnext : (exec { s with uart := v } rest (.com1Send ch)).ops = .sendReady ch :: rest := if_neg hready
    exact ⟨_, (hdrained.tail hpoll).tail (.program hnext), rfl⟩
  | sendReady ch => exact ⟨_, .single (.program hops), rfl⟩

theorem ops_steps (s : ComPort) : ∃ t, Relation.ReflTransGen Step s t ∧ t.ops = [] := by
  induction hops : s.ops generalizing s with
  | nil => exact ⟨s, .refl, hops⟩
  | cons op rest ih =>
    obtain ⟨t, hsteps, ht⟩ := op_steps hops
    obtain ⟨t', hrest, ht'⟩ := ih t ht
    exact ⟨t', hsteps.trans hrest, ht'⟩

end ComPort

end

/-! ## Runs -/

/-- A chip as it is after a reset. -/
def idleUart : Uart where
  config := { ier := 0, lcr := 0, mcr := 0, fifo := false, divisor := 0 }
  tx := []
  shift := none
  rx := []
  last := 0
  wire := []
  lost := []

theorem idle_reachable : (ComPort.system idleUart [0x48, 0x69]).Reachable
    { uart := idleUart, ops := initCom1 ++ [0x48, 0x69].map .com1Send, sent := [] } := .init ⟨rfl, rfl, rfl, rfl, rfl⟩

/-- In every run, whatever the state of the chip at first, and whenever it moves bytes and bytes come in: nothing is written to a full
transmitter. Once `init_com1` is over, the registers are set for 38400 baud and 8 bits with the FIFOs on, and either the loopback is off
and the characters sent follow, in order and none missing, on what was on its way before and maybe the byte of the test; or the loopback
is on, and of them none goes out. -/
theorem serial_in_order (u : Uart) (text : List (BitVec 8)) {s : ComPort} (h : (ComPort.system u text).Reachable s) :
    s.uart.lost = [] ∧ (s.Initialised → s.sent <+: text ∧
      ((s.uart.config = comConfig u.config 0x0F ∧
        ∃ before, before.Sublist (u.pending ++ [0x55]) ∧ s.uart.pending = before ++ s.sent) ∨
      s.uart.config = comConfig u.config 0x1E ∧ s.uart.wire.Sublist u.pending)) := by
  obtain ⟨hphase, hlost⟩ := phase_of_reachable h
  refine ⟨hlost, ?_⟩
  intro hinit
  obtain ⟨hsending, hloopback⟩ := hphase.of_initialised hinit
  exact ⟨hsending.isPrefix, hloopback⟩

theorem serial_in_order_idle : ∃ t, (ComPort.system idleUart [0x48, 0x69]).Reachable t ∧ t.ops = [] ∧
    t.uart.lost = [] ∧ (t.Initialised → t.sent <+: [0x48, 0x69] ∧
      ((t.uart.config = comConfig idleUart.config 0x0F ∧
        ∃ before, before.Sublist (idleUart.pending ++ [0x55]) ∧ t.uart.pending = before ++ t.sent) ∨
      t.uart.config = comConfig idleUart.config 0x1E ∧ t.uart.wire.Sublist idleUart.pending)) := by
  obtain ⟨t, hsteps, hops⟩ :=
    ComPort.ops_steps { uart := idleUart, ops := initCom1 ++ [0x48, 0x69].map .com1Send, sent := [] }
  have hreach := idle_reachable.steps hsteps
  exact ⟨t, hreach, hops, serial_in_order idleUart [0x48, 0x69] hreach⟩

/-- From wherever it is the program gets to its end, with the whole text sent; and when the loopback is off then, the whole text goes
out. -/
theorem serial_finishes (u : Uart) (text : List (BitVec 8)) {s : ComPort} (h : (ComPort.system u text).Reachable s) :
    ∃ t, Relation.ReflTransGen ComPort.Step s t ∧ t.ops = [] ∧ t.sent = text ∧
      (t.uart.config.loopback = false → ∃ before, before.Sublist (u.pending ++ [0x55]) ∧ t.uart.wire = before ++ text) := by
  obtain ⟨t, hsteps, hops⟩ := s.ops_steps
  obtain ⟨v, hdrain, htx, hshift⟩ := t.uart.drains
  have hall := hsteps.trans (ComPort.chip_steps hdrain)
  obtain ⟨hphase, -⟩ := phase_of_reachable (h.steps hall)
  have hinit : ComPort.Initialised { t with uart := v } := by
    intro op hop
    rw [show ({ t with uart := v } : ComPort).ops = [] from hops] at hop
    cases hop
  obtain ⟨hsending, hloopback⟩ := hphase.of_initialised hinit
  have hsent : t.sent = text := by
    rcases hsending with ⟨todo, htodo, hsent⟩ | ⟨ch, todo, htodo, -⟩
    · obtain rfl : todo = [] := List.map_eq_nil_iff.mp (htodo.symm.trans hops)
      rw [← hsent, List.append_nil]
    · rw [show ({ t with uart := v } : ComPort).ops = [] from hops] at htodo
      cases htodo
  refine ⟨_, hall, hops, hsent, ?_⟩
  intro hoff
  rcases hloopback with ⟨-, before, hbefore, hpending⟩ | ⟨hconfig, -⟩
  · refine ⟨before, hbefore, ?_⟩
    have hwire : v.pending = v.wire := by
      rw [Uart.pending, htx, hshift]
      exact List.append_nil _
    rw [← hsent, ← hpending]
    exact hwire.symm
  · rw [hconfig, comConfig_looped] at hoff
    cases hoff

theorem serial_finishes_idle : ∃ t, Relation.ReflTransGen ComPort.Step
      { uart := idleUart, ops := initCom1 ++ [0x48, 0x69].map .com1Send, sent := [] } t ∧
    t.ops = [] ∧ t.sent = [0x48, 0x69] ∧
      (t.uart.config.loopback = false →
        ∃ before, before.Sublist (idleUart.pending ++ [0x55]) ∧ t.uart.wire = before ++ [0x48, 0x69]) :=
  serial_finishes idleUart [0x48, 0x69] idle_reachable

end LumOS
