import LumOS.Interrupts.Delivery

/-!
# The initialisations end, and scancodes get through

From wherever the machine is, with no other key pressed, a handler that runs returns, the initialisations end, and a byte in the buffer of
the keyboard controller leads to a call of `keyboard_handler` (`delivery_possible`).
-/

namespace LumOS

open System

namespace Board

/-- The first board leads to the second with no key pressed. -/
structure LeadsTo (b b' : Board) : Prop where
  steps : Relation.ReflTransGen Step b b'
  sent : b'.sent = b.sent
  emptied : b.port.full = false → b'.port.full = false

section

variable {targetFrequency : BitVec 32} {kb : Keyboard} {b b' b'' : Board}

theorem LeadsTo.refl (b : Board) : LeadsTo b b := ⟨.refl, rfl, fun h => h⟩

theorem LeadsTo.trans (h : LeadsTo b b') (h' : LeadsTo b' b'') : LeadsTo b b'' :=
  ⟨h.steps.trans h'.steps, h'.sent.trans h.sent, fun hfull => h'.emptied (h.emptied hfull)⟩

theorem exec_sent (b : Board) (op : Op) : (b.exec op).sent = b.sent := by
  cases op with
  | dispatch irqNum idtNum =>
    simp only [exec, dispatch]
    unfold call
    split <;> rfl
  | _ => rfl

/-- An access may empty the buffer, and does not fill it. -/
theorem exec_full (b : Board) (op : Op) (h : b.port.full = false) : (b.exec op).port.full = false := by
  cases op with
  | dispatch irqNum idtNum =>
    simp only [exec, dispatch]
    unfold call
    split
    · exact h
    · exact h
    · rfl
  | drain => rfl
  | _ => exact h

/-- A handler returns. -/
theorem handler_leadsTo {ops : List Op} (hcpu : b.cpu = .irq ops) : ∃ b', LeadsTo b b' ∧ b'.cpu = .main ∧ b'.main = b.main := by
  induction ops generalizing b with
  | nil => exact ⟨{ b with cpu := .main, iflag := true }, ⟨.single (.iret hcpu), rfl, fun h => h⟩, rfl, rfl⟩
  | cons op ops ih =>
    have hfirst : LeadsTo b { b.exec op with cpu := .irq ops } :=
      ⟨.single (.handler hcpu), exec_sent b op, exec_full b op⟩
    obtain ⟨b', hrest, hcpu', hmain⟩ := ih (b := { b.exec op with cpu := .irq ops }) rfl
    exact ⟨b', hfirst.trans hrest, hcpu', hmain.trans (exec_main b op)⟩

/-- `kernel_main` gets past its next access: the loop of `init_keyboard` ends when no key is pressed. -/
theorem turn_leadsTo {op : Op} {rest : List Op} (hcpu : b.cpu = .main) (hmain : b.main = op :: rest) :
    ∃ b', LeadsTo b b' ∧ b'.cpu = .main ∧ b'.main = rest := by
  have hturn : LeadsTo b { b.exec op with main := b.remaining op rest } :=
    ⟨.single (.main hcpu hmain), exec_sent b op, exec_full b op⟩
  have hcpu' : (b.exec op).cpu = .main := (exec_cpu b op).trans hcpu
  by_cases hloop : op = .drain ∧ b.port.full
  · -- the byte is read, and the next turn finds none
    obtain ⟨rfl, hfull⟩ := hloop
    have hagain : b.remaining .drain rest = .drain :: rest := if_pos ⟨rfl, hfull⟩
    rw [hagain] at hturn
    exact ⟨_, hturn.trans ⟨.single (.main hcpu' rfl), rfl, fun h => h⟩, hcpu', rfl⟩
  · exact ⟨_, hturn, hcpu', if_neg hloop⟩

theorem main_leadsTo {main : List Op} (hcpu : b.cpu = .main) (hmain : b.main = main) :
    ∃ b', LeadsTo b b' ∧ b'.cpu = .main ∧ b'.main = [] := by
  induction main generalizing b with
  | nil => exact ⟨b, .refl b, hcpu, hmain⟩
  | cons op rest ih =>
    obtain ⟨b', hturn, hcpu', hmain'⟩ := turn_leadsTo hcpu hmain
    obtain ⟨b'', hrest, hcpu'', hmain''⟩ := ih hcpu' hmain'
    exact ⟨b'', hturn.trans hrest, hcpu'', hmain''⟩

/-- Wherever the processor is, the initialisations end. -/
theorem ready_leadsTo (h : (system targetFrequency kb).Reachable b) : ∃ b', LeadsTo b b' ∧ b'.cpu = .main ∧ b'.main = [] := by
  cases hcpu : b.cpu with
  | main => exact main_leadsTo hcpu rfl
  | irq ops =>
    obtain ⟨b', hhandler, hcpu', -⟩ := handler_leadsTo hcpu
    obtain ⟨b'', hmain, hcpu'', hmain''⟩ := main_leadsTo hcpu' rfl
    exact ⟨b'', hhandler.trans hmain, hcpu'', hmain''⟩
  | halted => exact absurd hcpu (sound_of_reachable h).not_halted

/-- After the initialisations, the keyboard controller asks for an interrupt for as long as a byte is to be read. -/
theorem requests_of_full (h : (system targetFrequency kb).Reachable b) (hmain : b.main = []) (hcpu : b.cpu = .main)
    (hfull : b.port.full = true) : b.port.requests = true := by
  have hedge := (recorded_of_reachable h).edge hfull
  rw [hmain, hcpu] at hedge
  rw [KeyPort.requests, hfull, Bool.and_true]
  exact hedge.resolve_right (by simp [Cpu.pending])

/-- And so do the interrupt controllers, whatever the other lines are. -/
theorem interrupts_of_full (h : (system targetFrequency kb).Reachable b) (hmain : b.main = []) (hcpu : b.cpu = .main)
    (hfull : b.port.full = true) {master : BitVec 8} (hwired : b.Wired master) (slave : BitVec 8) :
    b.setup.pics.Interrupts master slave := by
  have hsetup : b.setup.pics = bootPics 0xFC := congrArg (fun s => s.pics) ((sound_of_reachable h).ready hmain hcpu).1
  have hline : master.getLsbD 1 = true := hwired.trans (requests_of_full h hmain hcpu hfull)
  have hbit : ((bootPics 0xFC).masterLines master slave).getLsbD 1 = true := by
    have hother : (0x04 : BitVec 8).getLsbD 1 = false := by decide
    rw [Pics.masterLines]
    split
    · rw [BitVec.getLsbD_or, hline, Bool.true_or]
    · rw [BitVec.getLsbD_and, BitVec.getLsbD_not, hline, hother]
      rfl
  obtain ⟨i, hi⟩ := Pic.request_of_line (p := (bootPics 0xFC).master) rfl rfl (show 1 < 8 by decide) hbit rfl
  rw [Pics.Interrupts, hsetup, hi]
  rfl

/-- A byte in the buffer gets to the handler. -/
theorem byte_leadsTo (h : (system targetFrequency kb).Reachable b) (hmain : b.main = []) (hcpu : b.cpu = .main)
    (hfull : b.port.full = true) : ∃ b', LeadsTo b b' ∧ b'.cpu = .main ∧ b'.main = [] ∧ b'.port.full = false := by
  obtain ⟨hsetup, hiflag⟩ := (sound_of_reachable h).ready hmain hcpu
  have hwired : b.Wired 0x02 := (requests_of_full h hmain hcpu hfull).symm
  have hrequested : b.Requested := ⟨0x02, 0, hwired, interrupts_of_full h hmain hcpu hfull hwired 0⟩
  -- the interrupt is accepted
  have hentry : (b.interrupt 0x02 0).cpu = .irq (irqHandler 1 33) := by
    have hpics : b.setup.pics = bootPics 0xFC := congrArg (fun s => s.pics) hsetup
    show entry (b.setup.pics.acknowledge 0x02 0).1 = _
    rw [hpics]
    decide
  have haccept : LeadsTo b (b.interrupt 0x02 0) := by
    refine ⟨.single (.interrupt hcpu hiflag hrequested hwired), rfl, fun hempty => ?_⟩
    rw [hfull] at hempty
    cases hempty
  -- `keyboard_handler` reads the byte
  have hhandler : (b.interrupt 0x02 0).setup.handlers 33 = some .keyboardHandler := by
    show b.setup.handlers 33 = _
    rw [hsetup]
    rfl
  have hread : ((b.interrupt 0x02 0).exec (.dispatch 1 33)).port.full = false := by
    rw [exec, dispatch, hhandler]
    rfl
  have hcall : LeadsTo (b.interrupt 0x02 0) { (b.interrupt 0x02 0).exec (.dispatch 1 33) with cpu := .irq (sendEoi 1) } :=
    ⟨.single (.handler hentry), exec_sent _ _, fun _ => hread⟩
  obtain ⟨b', hrest, hcpu', hmain'⟩ :=
    handler_leadsTo (b := { (b.interrupt 0x02 0).exec (.dispatch 1 33) with cpu := .irq (sendEoi 1) }) rfl
  refine ⟨b', (haccept.trans hcall).trans hrest, hcpu', ?_, hrest.emptied hread⟩
  rw [hmain']
  exact (exec_main _ _).trans hmain

end

end Board

section

variable {targetFrequency : BitVec 32} {kb : Keyboard} {b : Board}

/-- After the initialisations, while no handler is running, the controllers ask for an interrupt for as long as a byte is to be read,
whatever the other lines are. And from wherever the machine is the initialisations can be finished and all the bytes that have come be
dropped or given to the handler, with interrupts on again and no other key pressed. -/
theorem delivery_possible (h : (Board.system targetFrequency kb).Reachable b) :
    (b.main = [] → b.cpu = .main → b.port.full = true →
      ∀ master slave, b.Wired master → b.setup.pics.Interrupts master slave) ∧
      ∃ b', Relation.ReflTransGen Board.Step b b' ∧ b'.main = [] ∧ b'.cpu = .main ∧ b'.iflag = true ∧ b'.sent = b.sent ∧
        b'.sent = b'.dropped ++ b'.received := by
  refine ⟨fun hmain hcpu hfull master slave hwired => Board.interrupts_of_full h hmain hcpu hfull hwired slave, ?_⟩
  obtain ⟨b₁, hready, hcpu, hmain⟩ := Board.ready_leadsTo h
  obtain ⟨b₂, hlead, hcpu', hmain', hempty⟩ :
      ∃ b₂, Board.LeadsTo b₁ b₂ ∧ b₂.cpu = .main ∧ b₂.main = [] ∧ b₂.port.full = false := by
    cases hfull : b₁.port.full with
    | false => exact ⟨b₁, .refl b₁, hcpu, hmain, hfull⟩
    | true => exact Board.byte_leadsTo (h.steps hready.steps) hmain hcpu hfull
  have hall := hready.trans hlead
  have hreach := h.steps hall.steps
  have hbytes := (Board.recorded_of_reachable hreach).bytes
  rw [KeyPort.pending, hempty, if_neg Bool.false_ne_true, List.append_nil] at hbytes
  exact ⟨b₂, hall.steps, hmain', hcpu', ((Board.sound_of_reachable hreach).ready hmain' hcpu').2, hall.sent, hbytes⟩

end

theorem delivery_possible_smallServed : ∃ b, Relation.ReflTransGen Board.Step smallServed b ∧ b.cpu = .main ∧
    b.dropped ++ b.received = [0x1C, 0x1E] := by
  obtain ⟨-, b, hsteps, -, hcpu, -, hsent, hbytes⟩ := delivery_possible smallServed_reachable
  exact ⟨b, hsteps, hcpu, hbytes.symm.trans hsent⟩

end LumOS
