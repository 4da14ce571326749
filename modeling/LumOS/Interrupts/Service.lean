import LumOS.Interrupts.Live

/-!
# Interrupts are serviced

What the steps of the machine keep (`Sound`): whatever interrupt is accepted has a gate to the code of an IRQ, its handler runs with
interrupts off and gives the EOIs that end exactly the service that has begun, and in `kernel_main` nothing is in service. So the
processor never hangs (`service_safe`), and the initialisations leave one setup, whatever has come between them
(`boot_configuration`).
-/

namespace LumOS

open System

/-! ## Accesses -/

namespace Setup

@[simp] theorem config_exec (s : Setup) (op : Op) : (s.exec op).config = s.config.exec op := by
  cases op <;> simp [exec, config]

theorem config_of_quiet {s : Setup} (h : s.pics.Quiet) : s.config = s := by
  rw [config, Pics.config_of_quiet h]

/-- No access begins a service. -/
theorem exec_quiet {s : Setup} (h : s.pics.Quiet) (op : Op) : (s.exec op).pics.Quiet := by
  cases op <;> first | exact h.outb _ _ | exact h

end Setup

theorem bootPics_cascaded (imr : BitVec 8) : (bootPics imr).Cascaded := ⟨rfl, rfl, rfl, rfl⟩

/-- The lines from 2 on are masked. -/
theorem Enabled.imr_getLsbD {main : List Op} {s : Setup} (h : Enabled main s) {n : Nat} (hn : n < 8) (h2 : 2 ≤ n) :
    s.pics.master.imr.getLsbD n = true := by
  have hset : ∀ n < 8, 2 ≤ n → (0xFC : BitVec 8).getLsbD n = true := by decide
  have hbit := congrArg (fun v => v.getLsbD n) h.masked
  simp only [BitVec.getLsbD_and, hset n hn h2, Bool.and_true] at hbit
  exact hbit

theorem bootPics_quiet (imr : BitVec 8) : (bootPics imr).Quiet := ⟨rfl, rfl⟩

/-- With nothing in service an EOI does nothing. -/
theorem bootPics_eoi (imr : BitVec 8) :
    (bootPics imr).outb picSlaveCommandPort picEoi = bootPics imr ∧ (bootPics imr).outb picMasterCommandPort picEoi = bootPics imr := by
  constructor
  · show { bootPics imr with slave := (bootPics imr).slave.eoi } = bootPics imr
    rw [Pic.eoi_of_isr (bootPics_quiet imr).slave]
  · show { bootPics imr with master := (bootPics imr).master.eoi } = bootPics imr
    rw [Pic.eoi_of_isr (bootPics_quiet imr).master]

theorem mem_irqHandler {irqNum idtNum : BitVec 32} {op : Op} (h : op ∈ irqHandler irqNum idtNum) :
    op = .dispatch irqNum idtNum ∨ op = .outb picSlaveCommandPort picEoi ∨ op = .outb picMasterCommandPort picEoi := by
  rw [irqHandler, sendEoi] at h
  split at h
  · simpa using h
  · exact (List.mem_cons.mp h).imp_right (fun h => Or.inr (List.mem_singleton.mp h))

/-- A handler leaves the configuration alone. -/
theorem Setup.exec_irqHandler {s : Setup} {imr : BitVec 8} (hpics : s.pics = bootPics imr) {irqNum idtNum : BitVec 32} {op : Op}
    (h : op ∈ irqHandler irqNum idtNum) : s.exec op = s := by
  cases s with
  | mk pics pit handlers clocksPerSecond =>
    obtain rfl : pics = bootPics imr := hpics
    obtain ⟨hslave, hmaster⟩ := bootPics_eoi imr
    rcases mem_irqHandler h with rfl | rfl | rfl
    · rfl
    · rw [exec, hslave]
      rfl
    · rw [exec, hmaster]
      rfl

theorem outb_master_eoi {ps : Pics} (h : ps.master.phase = .ready) :
    ps.outb picMasterCommandPort picEoi = { ps with master := ps.master.eoi } := by
  show { ps with master := ps.master.command 0x20 } = { ps with master := ps.master.eoi }
  rw [Pic.command, if_neg (by decide), if_pos ⟨rfl, h⟩]

theorem outb_slave_eoi {ps : Pics} (h : ps.slave.phase = .ready) :
    ps.outb picSlaveCommandPort picEoi = { ps with slave := ps.slave.eoi } := by
  show { ps with slave := ps.slave.command 0x20 } = { ps with slave := ps.slave.eoi }
  rw [Pic.command, if_neg (by decide), if_pos ⟨rfl, h⟩]

/-- A handler gives the EOI for its line. -/
theorem Setup.run_irqHandler {s : Setup} (hmaster : s.pics.master.phase = .ready) (hslave : s.pics.slave.phase = .ready) {n : Nat}
    (hn : n < 16) (idtNum : BitVec 32) : (s.run (irqHandler (BitVec.ofNat 32 n) idtNum)).pics = s.pics.eoi n := by
  have hle : 8 ≤ BitVec.ofNat 32 n ↔ 8 ≤ n := by
    have height : (8 : BitVec 32).toNat = 8 := rfl
    rw [BitVec.le_def, BitVec.toNat_ofNat, height]
    omega
  rw [irqHandler, sendEoi, Pics.eoi]
  by_cases h : 8 ≤ n
  · rw [if_pos (hle.mpr h), if_pos h]
    show (s.pics.outb picSlaveCommandPort picEoi).outb picMasterCommandPort picEoi = _
    rw [outb_slave_eoi hslave]
    exact outb_master_eoi hmaster
  · rw [if_neg (mt hle.mp h), if_neg h]
    exact outb_master_eoi hmaster

namespace Board

section

variable (b : Board) (op : Op)

@[simp] theorem exec_setup : (b.exec op).setup = b.setup.exec op := by
  cases op with
  | dispatch irqNum idtNum =>
    simp only [exec, dispatch, Setup.exec]
    unfold call
    split <;> rfl
  | _ => rfl

@[simp] theorem exec_main : (b.exec op).main = b.main := by
  cases op with
  | dispatch irqNum idtNum =>
    simp only [exec, dispatch]
    unfold call
    split <;> rfl
  | _ => rfl

@[simp] theorem exec_cpu : (b.exec op).cpu = b.cpu := by
  cases op with
  | dispatch irqNum idtNum =>
    simp only [exec, dispatch]
    unfold call
    split <;> rfl
  | _ => rfl

theorem exec_iflag (h : op ≠ .loadIdt) : (b.exec op).iflag = b.iflag := by
  cases op with
  | dispatch irqNum idtNum =>
    simp only [exec, dispatch]
    unfold call
    split <;> rfl
  | loadIdt => exact absurd rfl h
  | _ => rfl

end

/-! ## What the steps keep -/

/-- A handler for line `n` has these accesses still to come, and they end its service. -/
structure Serving (s : Setup) (ops : List Op) (n : Nat) : Prop where
  lt : n < 8
  unmasked : n = 7 ∨ s.pics.master.imr.getLsbD n = false
  tail : ops <:+ irqHandler (BitVec.ofNat 32 n) (BitVec.ofNat 32 (32 + n))
  quiet : (s.run ops).pics.Quiet

/-- In `kernel_main` nothing is in service, and elsewhere a handler runs, with interrupts off. -/
def Serviced (b : Board) : Prop :=
  match b.cpu with
  | .main => b.setup.pics.Quiet ∧ (b.iflag = true ↔ .loadIdt ∉ b.main)
  | .irq ops => b.iflag = false ∧ .loadIdt ∉ b.main ∧ ∃ n, Serving b.setup ops n
  | .halted => False

/-- What holds of every state. -/
structure Sound (targetFrequency : BitVec 32) (b : Board) : Prop where
  suffix : b.main <:+ bootOps targetFrequency
  along : Along Setup.exec (fun main s => (.loadIdt ∉ main → Enabled main s) ∧ s.run main = bootSetup targetFrequency) b.main
    b.setup.config
  serviced : b.Serviced

section

variable {targetFrequency : BitVec 32} {b b' : Board} {op : Op} {ops rest : List Op} {master slave : BitVec 8}

theorem Sound.main (h : Sound targetFrequency b) (hcpu : b.cpu = .main) :
    b.setup.pics.Quiet ∧ (b.iflag = true ↔ .loadIdt ∉ b.main) := by
  have := h.serviced
  rwa [Serviced, hcpu] at this

theorem Sound.irq (h : Sound targetFrequency b) (hcpu : b.cpu = .irq ops) :
    b.iflag = false ∧ .loadIdt ∉ b.main ∧ ∃ n, Serving b.setup ops n := by
  have := h.serviced
  rwa [Serviced, hcpu] at this

/-- From `load_idt` on. -/
theorem Sound.enabled (h : Sound targetFrequency b) (hload : .loadIdt ∉ b.main) : Enabled b.main b.setup.config := h.along.here.1 hload

/-- What the setup will be does not change. -/
theorem Sound.run_main (h : Sound targetFrequency b) : b.setup.config.run b.main = bootSetup targetFrequency := h.along.here.2

/-- `load_idt` is passed once. -/
theorem loadIdt_notMem (hsuffix : .loadIdt :: rest <:+ bootOps targetFrequency) : .loadIdt ∉ rest := by
  simp only [bootOps, idtInitOps, initTimerOps, initKeyboardOps, List.cons_append, List.nil_append, List.suffix_cons_iff] at hsuffix
  simp at hsuffix
  rw [hsuffix]
  simp

theorem along_remaining {I : List Op → Setup → Prop} {s : Setup} (h : Along Setup.exec I (op :: rest) s) :
    Along Setup.exec I (b.remaining op rest) (s.exec op) := by
  unfold remaining
  split
  · rename_i hdrain
    obtain ⟨rfl, -⟩ := hdrain
    exact h
  · exact h.next

theorem remaining_suffix (b : Board) (op : Op) (rest : List Op) : b.remaining op rest <:+ op :: rest := by
  unfold remaining
  split
  · exact List.suffix_refl _
  · exact List.suffix_cons op rest

theorem Sound.step_main (h : Sound targetFrequency b) (hcpu : b.cpu = .main) (hmain : b.main = op :: rest) :
    Sound targetFrequency { b.exec op with main := b.remaining op rest } := by
  obtain ⟨hquiet, hiflag⟩ := h.main hcpu
  have hsuffix := h.suffix
  have halong := h.along
  rw [hmain] at hsuffix halong hiflag
  refine ⟨(remaining_suffix b op rest).trans hsuffix, ?_, ?_⟩
  · show Along _ _ _ (b.exec op).setup.config
    rw [exec_setup, Setup.config_exec]
    exact along_remaining halong
  · simp only [Serviced, exec_cpu, hcpu, exec_setup]
    refine ⟨Setup.exec_quiet hquiet op, ?_⟩
    by_cases hload : op = .loadIdt
    · subst hload
      have hrest : b.remaining .loadIdt rest = rest := if_neg (by simp)
      rw [hrest]
      exact iff_of_true rfl (loadIdt_notMem hsuffix)
    · rw [exec_iflag b op hload, hiflag, List.mem_cons, or_iff_right (Ne.symm hload)]
      unfold remaining
      split
      · rw [List.mem_cons, or_iff_right (Ne.symm hload)]
      · rfl

/-- Where the vector of a line leads. -/
theorem entry_irq : ∀ n < 16, entry (some (BitVec.ofNat 8 (32 + n))) =
    .irq (irqHandler (BitVec.ofNat 32 n) (BitVec.ofNat 32 (32 + n))) := by
  decide

/-- An interrupt is accepted: its vector is that of a line that is not masked, or of line 7, and its handler ends its service. -/
theorem Sound.accept (h : Sound targetFrequency b) (hcpu : b.cpu = .main) (hiflag : b.iflag = true) (master slave : BitVec 8) :
    ∃ n, (b.setup.pics.acknowledge master slave).1 = some (BitVec.ofNat 8 (32 + n)) ∧
      Serving (b.interrupt master slave).setup (irqHandler (BitVec.ofNat 32 n) (BitVec.ofNat 32 (32 + n))) n ∧
      (b.setup.pics.master.acknowledge master).1 = n ∧
      (n = 7 ∨ master.getLsbD n = true ∧ b.setup.pics.master.imr.getLsbD n = false) := by
  obtain ⟨hquiet, hload⟩ := h.main hcpu
  have henabled := h.enabled (hload.mp hiflag)
  rw [Setup.config_of_quiet hquiet] at henabled
  have hpics := henabled.pics
  have hcascaded : b.setup.pics.Cascaded := hpics ▸ bootPics_cascaded _
  have hmasked := henabled.imr_getLsbD (show 2 < 8 by decide) (Nat.le_refl 2)
  obtain ⟨n, -, hvector, heoi, hmaster, hslave⟩ := Pics.eoi_acknowledge hcascaded hquiet master slave
  have hlt : n < 8 := by
    by_contra hge
    -- the line of the slave is masked
    rw [hslave (Nat.le_of_not_lt hge)] at hmasked
    cases hmasked
  obtain ⟨hline, hunmasked⟩ := hmaster hlt
  have hvec : b.setup.pics.vector n = BitVec.ofNat 8 (32 + n) := by
    rw [Pics.vector, if_neg (Nat.not_le.mpr hlt), hpics, BitVec.ofNat_add]
    rfl
  refine ⟨n, by rw [hvector, hvec], ⟨hlt, ?_, List.suffix_refl _, ?_⟩, hline, hunmasked⟩
  · refine hunmasked.imp_right (fun hbit => ?_)
    have hconfig := congrArg (fun ps => ps.master.imr) (Pics.config_acknowledge b.setup.pics master slave)
    exact Eq.trans (congrArg (fun v => v.getLsbD n) hconfig) hbit.2
  · have hready := congrArg (fun ps => ps.master.phase) (Pics.config_acknowledge b.setup.pics master slave)
    have hready' := congrArg (fun ps => ps.slave.phase) (Pics.config_acknowledge b.setup.pics master slave)
    rw [Setup.run_irqHandler (hready.trans hcascaded.master_ready) (hready'.trans hcascaded.slave_ready)
      (Nat.lt_of_lt_of_le hlt (by decide))]
    rw [show (b.interrupt master slave).setup.pics = (b.setup.pics.acknowledge master slave).2 from rfl, heoi]
    exact hquiet

theorem Sound.step_interrupt (h : Sound targetFrequency b) (hcpu : b.cpu = .main) (hiflag : b.iflag = true) (master slave : BitVec 8) :
    Sound targetFrequency (b.interrupt master slave) := by
  obtain ⟨n, hvector, hserving, -, -⟩ := h.accept hcpu hiflag master slave
  refine ⟨h.suffix, ?_, ?_⟩
  · have hconfig : (b.interrupt master slave).setup.config = b.setup.config := by
      simp only [interrupt, Setup.config, Pics.config_acknowledge]
    rw [hconfig]
    exact h.along
  · have hentry : (b.interrupt master slave).cpu = .irq (irqHandler (BitVec.ofNat 32 n) (BitVec.ofNat 32 (32 + n))) := by
      show entry (b.setup.pics.acknowledge master slave).1 = _
      rw [hvector, entry_irq n (Nat.lt_of_lt_of_le hserving.lt (by decide))]
    rw [Serviced, hentry]
    exact ⟨rfl, (h.main hcpu).2.mp hiflag, n, hserving⟩

/-- What a handler does leaves the configuration alone. -/
theorem Sound.config_handler (h : Sound targetFrequency b) (hcpu : b.cpu = .irq (op :: ops)) :
    (b.exec op).setup.config = b.setup.config := by
  obtain ⟨-, hload, n, hserving⟩ := h.irq hcpu
  rw [exec_setup, Setup.config_exec]
  exact Setup.exec_irqHandler (h.enabled hload).pics (hserving.tail.subset List.mem_cons_self)

theorem Sound.step_handler (h : Sound targetFrequency b) (hcpu : b.cpu = .irq (op :: ops)) :
    Sound targetFrequency { b.exec op with cpu := .irq ops } := by
  obtain ⟨hiflag, hload, n, hserving⟩ := h.irq hcpu
  have hconfig := h.config_handler hcpu
  refine ⟨?_, ?_, ?_⟩
  · show (b.exec op).main <:+ _
    rw [exec_main]
    exact h.suffix
  · show Along _ _ (b.exec op).main (b.exec op).setup.config
    rw [exec_main, hconfig]
    exact h.along
  · have hop : op ≠ .loadIdt := by
      rcases mem_irqHandler (hserving.tail.subset List.mem_cons_self) with rfl | rfl | rfl <;> simp
    have himr : (b.exec op).setup.pics.master.imr = b.setup.pics.master.imr := congrArg (fun s => s.pics.master.imr) hconfig
    simp only [Serviced, exec_main, exec_iflag b op hop]
    refine ⟨hiflag, hload, n, hserving.lt, ?_, (List.suffix_cons op ops).trans hserving.tail, ?_⟩
    · rw [himr]
      exact hserving.unmasked
    · show ((b.exec op).setup.run ops).pics.Quiet
      rw [exec_setup]
      exact hserving.quiet

theorem Sound.step_iret (h : Sound targetFrequency b) (hcpu : b.cpu = .irq []) :
    Sound targetFrequency { b with cpu := .main, iflag := true } := by
  obtain ⟨-, hload, n, hserving⟩ := h.irq hcpu
  exact ⟨h.suffix, h.along, hserving.quiet, iff_of_true rfl hload⟩

theorem Sound.step (h : Sound targetFrequency b) (hstep : Step b b') : Sound targetFrequency b' := by
  cases hstep with
  | main hcpu hmain => exact h.step_main hcpu hmain
  | interrupt hcpu hiflag _ _ => exact h.step_interrupt hcpu hiflag _ _
  | handler hcpu => exact h.step_handler hcpu
  | iret hcpu => exact h.step_iret hcpu
  | key data _ => exact ⟨h.suffix, h.along, h.serviced⟩

theorem Start.sound {kb : Keyboard} (h : Start targetFrequency kb b) : Sound targetFrequency b := by
  refine ⟨?_, ?_, ?_⟩
  · exact h.main ▸ List.suffix_refl _
  · rw [h.main, Setup.config_of_quiet h.quiet]
    refine (along_bootOps targetFrequency h.quiet).and ?_
    rw [← Setup.run_bootOps targetFrequency h.quiet h.handlers]
    exact along_foldl Setup.exec _ _
  · rw [Serviced, h.cpu]
    refine ⟨h.quiet, iff_of_false (by simp [h.iflag]) ?_⟩
    rw [h.main]
    simp [bootOps, idtInitOps]

theorem sound_of_reachable {kb : Keyboard} (h : (system targetFrequency kb).Reachable b) : Sound targetFrequency b :=
  h.invariant (Sound targetFrequency) (fun _ hs => Start.sound hs) (fun _ _ _ hs hstep => hs.step hstep)

/-- A line that is not masked is that of the timer or of the keyboard controller. -/
theorem Sound.line_cases (h : Sound targetFrequency b) {n : Nat} (hload : .loadIdt ∉ b.main) (hserving : Serving b.setup ops n) :
    n = 0 ∨ n = 1 ∧ b.setup.pics.master.imr.getLsbD 1 = false ∨ n = 7 := by
  rcases hserving.unmasked with h7 | hn
  · exact Or.inr (Or.inr h7)
  · rcases Nat.lt_or_ge n 2 with hlt | hge
    · rcases Nat.lt_or_ge n 1 with h0 | h1
      · exact Or.inl (Nat.lt_one_iff.mp h0)
      · obtain rfl : n = 1 := Nat.le_antisymm (Nat.le_of_lt_succ hlt) h1
        exact Or.inr (Or.inl ⟨rfl, hn⟩)
    · have hset : b.setup.pics.master.imr.getLsbD n = true := (h.enabled hload).imr_getLsbD hserving.lt hge
      rw [hset] at hn
      cases hn

theorem frequency_of_reachable {kb : Keyboard} (h : (system targetFrequency kb).Reachable b) : targetFrequency ≠ 0 :=
  h.invariant (fun _ => targetFrequency ≠ 0) (fun _ hs => Start.frequency hs) (fun _ _ _ hne _ => hne)

theorem Sound.not_halted (h : Sound targetFrequency b) : b.cpu ≠ .halted := by
  intro hcpu
  have hserviced := h.serviced
  rwa [Serviced, hcpu] at hserviced

theorem Sound.configured (h : Sound targetFrequency b) (hmain : b.main = []) : b.setup.config = bootSetup targetFrequency := by
  rw [← h.run_main, hmain]
  rfl

/-- After the initialisations, in `kernel_main`. -/
theorem Sound.ready (h : Sound targetFrequency b) (hmain : b.main = []) (hcpu : b.cpu = .main) :
    b.setup = bootSetup targetFrequency ∧ b.iflag = true := by
  obtain ⟨hquiet, hiflag⟩ := h.main hcpu
  rw [← Setup.config_of_quiet hquiet, hiflag, hmain]
  exact ⟨h.configured hmain, List.not_mem_nil⟩

/-! ## `kernel_main` alone -/

theorem turn_cpu (b : Board) : b.turn.cpu = b.cpu := by
  unfold turn
  split
  · rfl
  · exact exec_cpu b _

theorem steps_turns (hcpu : b.cpu = .main) (n : Nat) : Relation.ReflTransGen Step b (b.turns n) := by
  induction n generalizing b with
  | zero => exact .refl
  | succ n ih =>
    have hrest := ih ((turn_cpu b).trans hcpu)
    cases hmain : b.main with
    | nil =>
      have hturn : b.turn = b := by
        unfold turn
        rw [hmain]
      rw [turns]
      rwa [hturn] at hrest ⊢
    | cons op rest =>
      have hturn : Step b b.turn := by
        unfold turn
        rw [hmain]
        exact .main hcpu hmain
      exact hrest.head hturn

end

end Board

/-! ## The results -/

section

variable {targetFrequency : BitVec 32} {kb : Keyboard} {b : Board}

/-- The processor never hangs. In `kernel_main` nothing is in service, and elsewhere a handler for the line of the timer, for that of the
keyboard controller or for a request that is gone runs, with interrupts off, and what is still to come of it leaves nothing in
service. -/
theorem service_safe (h : (Board.system targetFrequency kb).Reachable b) :
    b.cpu ≠ .halted ∧ (b.iflag = true → b.cpu = .main ∧ .loadIdt ∉ b.main) ∧ (b.cpu = .main → b.setup.pics.Quiet) ∧
      ∀ ops, b.cpu = .irq ops → ∃ n, (n = 0 ∨ n = 1 ∨ n = 7) ∧
        ops <:+ irqHandler (BitVec.ofNat 32 n) (BitVec.ofNat 32 (32 + n)) ∧ (b.setup.run ops).pics.Quiet := by
  have hs := Board.sound_of_reachable h
  refine ⟨hs.not_halted, ?_, fun hcpu => (hs.main hcpu).1, ?_⟩
  · intro hiflag
    cases hcpu : b.cpu with
    | main => exact ⟨rfl, (hs.main hcpu).2.mp hiflag⟩
    | irq ops =>
      rw [(hs.irq hcpu).1] at hiflag
      cases hiflag
    | halted => exact absurd hcpu hs.not_halted
  · intro ops hcpu
    obtain ⟨-, hload, n, hserving⟩ := hs.irq hcpu
    refine ⟨n, ?_, hserving.tail, hserving.quiet⟩
    exact (hs.line_cases hload hserving).imp_right (Or.imp_left And.left)

theorem toNat_divider (targetFrequency : BitVec 32) :
    (divider targetFrequency).toNat = 1193182 / targetFrequency.toNat % 2 ^ 16 := by
  have hclock : (1193182 : BitVec 32).toNat = 1193182 := rfl
  rw [divider, BitVec.toNat_setWidth, BitVec.toNat_udiv, hclock]

/-- The divider has the quotient for its period when that fits in 16 bits and is at least 2. -/
theorem divider_period (h : targetFrequency ≠ 0) :
    pitPeriod (divider targetFrequency) = some (1193182 / targetFrequency.toNat) ↔
      19 ≤ targetFrequency.toNat ∧ targetFrequency.toNat ≤ 596591 := by
  have hpos : 0 < targetFrequency.toNat := by
    rw [Nat.pos_iff_ne_zero]
    exact fun hzero => h (BitVec.eq_of_toNat_eq hzero)
  have hdivider := toNat_divider targetFrequency
  generalize divider targetFrequency = d at hdivider
  generalize targetFrequency.toNat = f at hpos hdivider
  have hzero : d = 0 ↔ d.toNat = 0 := BitVec.toNat_inj.symm
  have hone : d = 1 ↔ d.toNat = 1 := BitVec.toNat_inj.symm
  have hhigh : f ≤ 596591 ↔ 2 ≤ 1193182 / f := by
    rw [Nat.le_div_iff_mul_le hpos]
    omega
  have hlow : 19 ≤ f ↔ 1193182 / f < 2 ^ 16 := by
    rw [Nat.div_lt_iff_lt_mul hpos]
    omega
  -- no frequency gives the quotient for which a divider of zero stands
  have hnot : 1193182 / f ≠ 2 ^ 16 := by
    intro heq
    rw [Nat.div_eq_iff hpos] at heq
    omega
  rw [pitPeriod, hhigh, hlow]
  by_cases h1 : d = 1
  · -- a count of 1 is not allowed
    rw [if_pos h1]
    rw [hone] at h1
    refine ⟨fun hnone => absurd hnone (Option.some_ne_none _).symm, fun hrange => ?_⟩
    omega
  · rw [if_neg h1, Option.some_inj]
    rw [hone] at h1
    simp only [hzero]
    split <;> omega

/-- Whatever has happened on the way, the initialisations leave one setup: the lines of the timer and of the keyboard controller are not
masked, the others are, the two handlers are registered, and the timer runs at the nearest period below the one asked for, exactly when
the frequency is from 19 Hz to half that of its input. -/
theorem boot_configuration (h : (Board.system targetFrequency kb).Reachable b) (hmain : b.main = []) :
    b.setup.config = bootSetup targetFrequency ∧ (b.cpu = .main → b.setup = bootSetup targetFrequency ∧ b.iflag = true) ∧
      ∀ count, b.setup.pit.count = some count → (pitPeriod count = some (1193182 / targetFrequency.toNat) ↔
        19 ≤ targetFrequency.toNat ∧ targetFrequency.toNat ≤ 596591) := by
  have hs := Board.sound_of_reachable h
  refine ⟨hs.configured hmain, hs.ready hmain, fun count hcount => ?_⟩
  have hpit : b.setup.pit = (bootSetup targetFrequency).pit := congrArg (fun s => s.pit) (hs.configured hmain)
  rw [hpit] at hcount
  rw [← Option.some.inj hcount]
  exact divider_period (Board.frequency_of_reachable h)

end

/-- The chips as they may be found, with a scancode in the buffer. -/
def smallBoard : Board where
  setup :=
    { pics := ⟨⟨.ready, 0x08, 0x04, 0xB8, 0⟩, ⟨.ready, 0x70, 0x02, 0x8F, 0⟩⟩, pit := ⟨none, none, none⟩, handlers := fun _ => none,
      clocksPerSecond := 0 }
  port := ⟨0x1C, true, true⟩
  ticks := 0
  keyboard := ⟨0, 0, 0, []⟩
  iflag := false
  main := bootOps 50
  cpu := .main
  accepted := []
  calls := []
  sent := [0x1C]
  dropped := []
  received := []

theorem smallBoard_start : Board.Start 50 ⟨0, 0, 0, []⟩ smallBoard where
  frequency := by decide
  quiet := ⟨rfl, rfl⟩
  handlers := fun _ => rfl
  ticks := rfl
  keyboard := rfl
  iflag := rfl
  main := rfl
  cpu := rfl
  accepted := rfl
  calls := rfl
  sent := rfl
  dropped := rfl
  received := rfl

/-- The initialisations are over, a key is pressed, and its interrupt is accepted. -/
def smallServed : Board :=
  ({ smallBoard.turns 24 with port := (smallBoard.turns 24).port.receive 0x1E, sent := [0x1C, 0x1E] }).interrupt 0x02 0

theorem smallServed_reachable : (Board.system 50 ⟨0, 0, 0, []⟩).Reachable smallServed := by
  have hboot : (Board.system 50 ⟨0, 0, 0, []⟩).Reachable (smallBoard.turns 24) :=
    (Reachable.init smallBoard_start).steps (Board.steps_turns rfl 24)
  have hkey := hboot.step (Board.Step.key 0x1E rfl)
  refine hkey.step (Board.Step.interrupt rfl rfl ⟨0x02, 0, rfl, ?_⟩ rfl)
  show Option.isSome _ = true
  decide

theorem service_safe_smallServed : smallServed.cpu = .irq (irqHandler 1 33) ∧ smallServed.setup.pics.master.isr = 0x02 ∧
    (smallServed.setup.run (irqHandler 1 33)).pics.Quiet := by
  obtain ⟨-, -, -, hirq⟩ := service_safe smallServed_reachable
  have hcpu : smallServed.cpu = .irq (irqHandler 1 33) := by decide
  obtain ⟨n, -, -, hquiet⟩ := hirq _ hcpu
  exact ⟨hcpu, by decide, hquiet⟩

theorem boot_configuration_smallServed : smallServed.setup.pics.master.imr = 0xFC ∧
    smallServed.setup.pit.count = some 23863 ∧ pitPeriod 23863 = some (1193182 / 50) := by
  obtain ⟨hconfig, -, hperiod⟩ := boot_configuration smallServed_reachable (by decide)
  have hcount : smallServed.setup.pit.count = some 23863 := by decide
  refine ⟨congrArg (fun s => s.pics.master.imr) hconfig, hcount, ?_⟩
  exact (hperiod 23863 hcount).mpr ⟨by decide, by decide⟩

end LumOS
