import Mathlib.Tactic.Common

/-!
# The interrupt controllers of a PC

An 8259A as a driver sees it: its initialization, its mask register and its in-service register, with edge-triggered lines, in cascade
and in 8086 mode, where a service ends when an EOI says so. Whatever else can be written to it leads to the phase `unmodelled`. Which
lines request an interrupt is not part of the state; a request can be gone by the time it is acknowledged, and then the chip
answers for its line 7 and notes no service.

An EOI ends the service that has begun last (`Pic.eoi_serve`). `Pics` is the pair of a PC, the slave on line 2 of the master. A chip's
`config` is all of it but for what is in service.
-/

/-- The set bit of highest priority. -/
def lowest (v : BitVec 8) : Option Nat := (List.range 8).find? (fun i => v.getLsbD i)

/-- What a chip expects at its data port. -/
inductive PicPhase where
  | icw2
  | icw3
  | icw4
  | ready
  | unmodelled
  deriving DecidableEq

/-- An 8259A. -/
structure Pic where
  phase : PicPhase
  base : BitVec 8
  icw3 : BitVec 8
  imr : BitVec 8
  isr : BitVec 8
  deriving DecidableEq

namespace Pic

/-- An EOI that names no line. -/
def eoi (p : Pic) : Pic :=
  match lowest p.isr with
  | none => p
  | some i => { p with isr := p.isr &&& ~~~BitVec.twoPow 8 i }

/-- A write to the command port: ICW1 with ICW4 to follow, or an EOI. -/
def command (p : Pic) (v : BitVec 8) : Pic :=
  if v = 0x11 then { p with phase := .icw2, imr := 0 }
  else if v = 0x20 ∧ p.phase = .ready then p.eoi
  else { p with phase := .unmodelled }

/-- A write to the data port: the rest of the initialization, and then the mask. -/
def data (p : Pic) (v : BitVec 8) : Pic :=
  match p.phase with
  | .icw2 => { p with phase := .icw3, base := v &&& 0xF8 }
  | .icw3 => { p with phase := .icw4, icw3 := v }
  | .icw4 => { p with phase := if v = 0x01 then .ready else .unmodelled }
  | .ready => { p with imr := v }
  | .unmodelled => p

/-- The line for which the chip asks for an interrupt: the first of those that request one and are not masked, when it is before all
that are in service. -/
def request (p : Pic) (lines : BitVec 8) : Option Nat :=
  match p.phase, lowest (lines &&& ~~~p.imr), lowest p.isr with
  | .ready, some i, none => some i
  | .ready, some i, some j => if i < j then some i else none
  | _, _, _ => none

/-- The service of a line begins. -/
def serve (p : Pic) (i : Nat) : Pic := { p with isr := p.isr ||| BitVec.twoPow 8 i }

/-- What a chip does when it is acknowledged: the line it answers for, and its state. -/
def acknowledge (p : Pic) (lines : BitVec 8) : Nat × Pic :=
  match p.request lines with
  | some i => (i, p.serve i)
  | none => (7, p)

/-- A chip without what is in service. -/
def config (p : Pic) : Pic := { p with isr := 0 }

end Pic

theorem lowest_eq_some {v : BitVec 8} {i : Nat} : lowest v = some i ↔
    v.getLsbD i = true ∧ i < 8 ∧ ∀ j < i, v.getLsbD j = false := by
  rw [lowest, List.find?_range_eq_some]
  simp

theorem lowest_eq_none {v : BitVec 8} : lowest v = none ↔ v = 0 := by
  rw [lowest, List.find?_range_eq_none]
  constructor
  · intro h
    refine BitVec.eq_of_getLsbD_eq fun i hi => ?_
    simpa using h i hi
  · rintro rfl
    simp

namespace Pic

section

variable {p q : Pic} {lines : BitVec 8} {i : Nat}

theorem request_eq_some : p.request lines = some i ↔
    p.phase = .ready ∧ lowest (lines &&& ~~~p.imr) = some i ∧ ∀ j, lowest p.isr = some j → i < j := by
  unfold request
  split
  · rename_i k hphase hl hs
    simp [hphase, hl, hs]
  · rename_i k j hphase hl hs
    rw [hphase, hl, hs, Option.ite_none_right_eq_some, Option.some.injEq]
    constructor
    · rintro ⟨hlt, rfl⟩
      exact ⟨rfl, rfl, fun j' hj' => by rwa [← Option.some.inj hj']⟩
    · rintro ⟨-, rfl, hlt⟩
      exact ⟨hlt j rfl, rfl⟩
  · rename_i hnone hsome
    refine iff_of_false (by simp) ?_
    rintro ⟨hphase, hl, -⟩
    cases hs : lowest p.isr with
    | none => exact hnone i hphase hl hs
    | some j => exact hsome i j hphase hl hs

/-- The line asked for is requested and not masked. -/
theorem request_line (h : p.request lines = some i) : i < 8 ∧ lines.getLsbD i = true ∧ p.imr.getLsbD i = false := by
  obtain ⟨hbit, hi, -⟩ := lowest_eq_some.mp (request_eq_some.mp h).2.1
  rw [BitVec.getLsbD_and, BitVec.getLsbD_not, Bool.and_eq_true, Bool.and_eq_true] at hbit
  exact ⟨hi, hbit.1, by simpa using hbit.2.2⟩

/-- With nothing in service a chip asks for an interrupt when a line that is not masked does. -/
theorem request_of_line (hphase : p.phase = .ready) (hisr : p.isr = 0) (hi : i < 8) (hline : lines.getLsbD i = true)
    (hmask : p.imr.getLsbD i = false) : ∃ j, p.request lines = some j := by
  cases hl : lowest (lines &&& ~~~p.imr) with
  | none =>
    have hbit : (lines &&& ~~~p.imr).getLsbD i = false := by
      rw [lowest_eq_none.mp hl]
      exact BitVec.getLsbD_zero
    rw [BitVec.getLsbD_and, BitVec.getLsbD_not, hline, hmask, decide_eq_true hi] at hbit
    cases hbit
  | some j =>
    refine ⟨j, request_eq_some.mpr ⟨hphase, hl, fun k hk => ?_⟩⟩
    rw [lowest_eq_none.mpr hisr] at hk
    exact absurd hk.symm (Option.some_ne_none k)

/-- An EOI ends the service that has begun last. -/
theorem eoi_serve (h : p.request lines = some i) : (p.serve i).eoi = p := by
  obtain ⟨-, hl, hlt⟩ := request_eq_some.mp h
  have hi : i < 8 := (lowest_eq_some.mp hl).2.1
  -- the line is before all that are in service
  have hbefore : ∀ j ≤ i, p.isr.getLsbD j = false := by
    intro j hj
    cases hs : lowest p.isr with
    | none =>
      rw [lowest_eq_none.mp hs]
      exact BitVec.getLsbD_zero
    | some k => exact (lowest_eq_some.mp hs).2.2 j (Nat.lt_of_le_of_lt hj (hlt k hs))
  have hserve : lowest (p.isr ||| BitVec.twoPow 8 i) = some i := by
    refine lowest_eq_some.mpr ⟨?_, hi, fun j hj => ?_⟩
    · simp [hi]
    · simp [hbefore j (Nat.le_of_lt hj), Nat.ne_of_gt hj]
  have hisr : (p.isr ||| BitVec.twoPow 8 i) &&& ~~~BitVec.twoPow 8 i = p.isr := by
    refine BitVec.eq_of_getLsbD_eq fun j hj => ?_
    simp only [BitVec.getLsbD_and, BitVec.getLsbD_or, BitVec.getLsbD_not, BitVec.getLsbD_twoPow, hi, hj, decide_true, Bool.true_and]
    by_cases hij : i = j
    · subst hij
      simp only [hbefore i (Nat.le_refl i), decide_true, Bool.not_true, Bool.and_false]
    · simp only [hij, decide_false, Bool.or_false, Bool.not_false, Bool.and_true]
  simp only [eoi, serve, hserve, hisr]

/-- An EOI with nothing in service. -/
theorem eoi_of_isr (h : p.isr = 0) : p.eoi = p := by
  rw [eoi, lowest_eq_none.mpr h]

/-- The EOI to a chip that has answered when nothing was in service leaves nothing in service. -/
theorem eoi_acknowledge (h : p.isr = 0) (lines : BitVec 8) : (p.acknowledge lines).2.eoi = p := by
  unfold acknowledge
  split
  · rename_i i hi
    exact eoi_serve hi
  · exact eoi_of_isr h

/-- With nothing in service no write to the command port changes that. -/
theorem command_isr (h : p.isr = 0) (v : BitVec 8) : (p.command v).isr = 0 := by
  unfold command
  split_ifs
  · exact h
  · rw [eoi_of_isr h, h]
  · exact h

theorem acknowledge_lt (p : Pic) (lines : BitVec 8) : (p.acknowledge lines).1 < 8 := by
  unfold acknowledge
  split
  · rename_i i hi
    exact (request_line hi).1
  · exact Nat.lt_succ_self 7

end

/-! ### What is in service has no part in the configuration -/

@[simp] theorem config_config (p : Pic) : p.config.config = p.config := rfl

theorem config_of_isr {p : Pic} (h : p.isr = 0) : p.config = p := by
  rw [config, ← h]

@[simp] theorem config_eoi (p : Pic) : p.eoi.config = p.config := by
  unfold eoi
  split <;> rfl

@[simp] theorem config_serve (p : Pic) (i : Nat) : (p.serve i).config = p.config := rfl

@[simp] theorem config_acknowledge (p : Pic) (lines : BitVec 8) : (p.acknowledge lines).2.config = p.config := by
  unfold acknowledge
  split <;> rfl

@[simp] theorem config_command (p : Pic) (v : BitVec 8) : (p.command v).config = p.config.command v := by
  have hphase : p.config.phase = p.phase := rfl
  unfold command
  rw [hphase]
  split_ifs
  · rfl
  · rw [config_eoi, eoi_of_isr rfl]
  · rfl

@[simp] theorem config_data (p : Pic) (v : BitVec 8) : (p.data v).config = p.config.data v := by
  cases p with
  | mk phase base icw3 imr isr => cases phase <;> rfl

/-- A write to the data port leaves what is in service. -/
@[simp] theorem data_isr (p : Pic) (v : BitVec 8) : (p.data v).isr = p.isr := by
  unfold data
  split <;> rfl

end Pic

/-! ## The pair -/

/-- The controllers of a PC. -/
structure Pics where
  master : Pic
  slave : Pic
  deriving DecidableEq

namespace Pics

/-- The lines of the master: on line 2 is the slave's request. -/
def masterLines (ps : Pics) (master slave : BitVec 8) : BitVec 8 :=
  if (ps.slave.request slave).isSome then master ||| 0x04 else master &&& ~~~0x04

/-- The processor is asked to accept an interrupt. -/
def Interrupts (ps : Pics) (master slave : BitVec 8) : Prop := (ps.master.request (ps.masterLines master slave)).isSome

/-- The interrupt is acknowledged: its vector, and what the chips note. The slave gives the vector for the line on which the master has
it, if that is where the slave takes itself to be. -/
def acknowledge (ps : Pics) (master slave : BitVec 8) : Option (BitVec 8) × Pics :=
  let i := (ps.master.acknowledge master).1
  let ps' := { ps with master := (ps.master.acknowledge master).2 }
  if ps.master.icw3.getLsbD i then
    if ps.slave.icw3 = BitVec.ofNat 8 i then
      (some (ps.slave.base + BitVec.ofNat 8 (ps.slave.acknowledge slave).1), { ps' with slave := (ps.slave.acknowledge slave).2 })
    else (none, ps')
  else (some (ps.master.base + BitVec.ofNat 8 i), ps')

/-- An EOI for one of the 16 lines: to the slave, too, if the line is one of its. -/
def eoi (ps : Pics) (n : Nat) : Pics :=
  { master := ps.master.eoi, slave := if 8 ≤ n then ps.slave.eoi else ps.slave }

/-- A write to a port, which is one of the chips' or not. -/
def outb (ps : Pics) (portAddr : BitVec 16) (data : BitVec 8) : Pics :=
  if portAddr = 0x20 then { ps with master := ps.master.command data }
  else if portAddr = 0x21 then { ps with master := ps.master.data data }
  else if portAddr = 0xA0 then { ps with slave := ps.slave.command data }
  else if portAddr = 0xA1 then { ps with slave := ps.slave.data data }
  else ps

/-- The chips without what is in service. -/
def config (ps : Pics) : Pics := { master := ps.master.config, slave := ps.slave.config }

/-- Initialized, the slave on line 2 of the master. -/
structure Cascaded (ps : Pics) : Prop where
  master_ready : ps.master.phase = .ready
  slave_ready : ps.slave.phase = .ready
  master_icw3 : ps.master.icw3 = 0x04
  slave_icw3 : ps.slave.icw3 = 0x02

/-- Nothing is in service. -/
structure Quiet (ps : Pics) : Prop where
  master : ps.master.isr = 0
  slave : ps.slave.isr = 0

/-- The vector of a line. -/
def vector (ps : Pics) (n : Nat) : BitVec 8 :=
  if 8 ≤ n then ps.slave.base + BitVec.ofNat 8 (n - 8) else ps.master.base + BitVec.ofNat 8 n

theorem Quiet.outb {ps : Pics} (h : ps.Quiet) (portAddr : BitVec 16) (data : BitVec 8) : (ps.outb portAddr data).Quiet := by
  unfold Pics.outb
  split_ifs
  · exact ⟨Pic.command_isr h.master data, h.slave⟩
  · exact ⟨(Pic.data_isr _ data).trans h.master, h.slave⟩
  · exact ⟨h.master, Pic.command_isr h.slave data⟩
  · exact ⟨h.master, (Pic.data_isr _ data).trans h.slave⟩
  · exact h

theorem config_of_quiet {ps : Pics} (h : ps.Quiet) : ps.config = ps := by
  rw [config, Pic.config_of_isr h.master, Pic.config_of_isr h.slave]

@[simp] theorem config_outb (ps : Pics) (portAddr : BitVec 16) (data : BitVec 8) :
    (ps.outb portAddr data).config = ps.config.outb portAddr data := by
  unfold outb
  split_ifs <;> simp [config]

@[simp] theorem config_acknowledge (ps : Pics) (master slave : BitVec 8) :
    (ps.acknowledge master slave).2.config = ps.config := by
  simp only [acknowledge]
  split_ifs <;> simp [config]

/-- Whatever the lines are, the interrupt acknowledged has the vector of one of the 16, and the EOI for that line leaves the chips as they
were. This holds of the interrupts that are gone before they are acknowledged, too. -/
theorem eoi_acknowledge {ps : Pics} (hc : ps.Cascaded) (hq : ps.Quiet) (master slave : BitVec 8) :
    ∃ n < 16, (ps.acknowledge master slave).1 = some (ps.vector n) ∧ (ps.acknowledge master slave).2.eoi n = ps ∧
      (n < 8 → (ps.master.acknowledge master).1 = n ∧
        (n = 7 ∨ master.getLsbD n = true ∧ ps.master.imr.getLsbD n = false)) ∧
      (8 ≤ n → ps.master.imr.getLsbD 2 = false) := by
  have hlt := ps.master.acknowledge_lt master
  have hlt' := ps.slave.acknowledge_lt slave
  have hline : (ps.master.acknowledge master).1 = 7 ∨
      master.getLsbD (ps.master.acknowledge master).1 = true ∧ ps.master.imr.getLsbD (ps.master.acknowledge master).1 = false := by
    unfold Pic.acknowledge
    split
    · rename_i i hi
      exact Or.inr (Pic.request_line hi).2
    · exact Or.inl rfl
  unfold acknowledge
  generalize hi : (ps.master.acknowledge master).1 = i at hlt hline ⊢
  have hbit : ∀ j < 8, (0x04 : BitVec 8).getLsbD j = decide (j = 2) := by decide
  simp only [hc.master_icw3, hbit i hlt, decide_eq_true_eq]
  by_cases h2 : i = 2
  · subst h2
    have hid : ps.slave.icw3 = BitVec.ofNat 8 2 := hc.slave_icw3
    rw [if_pos rfl, if_pos hid]
    refine ⟨8 + (ps.slave.acknowledge slave).1, by omega, ?_, ?_, fun h => by omega, fun _ => ?_⟩
    · rw [vector, if_pos (Nat.le_add_right 8 _), Nat.add_sub_cancel_left]
    · rw [eoi, if_pos (Nat.le_add_right 8 _), Pic.eoi_acknowledge hq.master, Pic.eoi_acknowledge hq.slave]
    · rcases hline with h | h
      · cases h
      · exact h.2
  · rw [if_neg h2]
    refine ⟨i, by omega, ?_, ?_, fun _ => ⟨rfl, hline⟩, fun h => by omega⟩
    · rw [vector, if_neg (by omega)]
    · rw [eoi, if_neg (by omega), Pic.eoi_acknowledge hq.master]

end Pics
