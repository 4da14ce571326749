import LumOS.Lib.I386

/-!
# Interrupt entry and exit

The stubs of `interrupts.S` and the gates that `idt_init` installs. A stub gets on top of the stack what the processor has pushed,
pushes what its handler is to be given, calls the handler, and takes down the stack again before `iret`. The handlers of `isr.c` are
any routines; what the stubs need of them is the calling convention.
-/

namespace LumOS

open Mem

/-- The routines of `isr.c` that the stubs call. -/
inductive Routine where
  | isrHandler
  | irqHandler
  deriving DecidableEq

/-- The labels that the macros define. -/
inductive Label where
  | isr (num : Nat)
  | irq (num : Nat)
  deriving DecidableEq

/-- A use of a macro of `interrupts.S`. -/
inductive Macro where
  | isrNoErrCode (num : Nat)
  | isrErrCode (num : Nat)
  | irqNoErrCode (num abs : Nat)
  deriving DecidableEq

/-- The code of the three stubs, but for the routine they call and the constant they add to `%esp`. -/
def stub (routine : Routine) (n : BitVec 32) : List (Instr Routine) := [.pushal, .call routine, .popal, .addEsp n, .iret]

/-- `isr_stub_noErrCode` -/
def isrStubNoErrCode : List (Instr Routine) := stub .isrHandler 8

/-- `isr_stub_errCode` -/
def isrStubErrCode : List (Instr Routine) := stub .isrHandler 4

/-- `irq_stub` -/
def irqStub : List (Instr Routine) := stub .irqHandler 8

namespace Macro

/-- The label. -/
def label : Macro → Label
  | isrNoErrCode num => .isr num
  | isrErrCode num => .isr num
  | irqNoErrCode num _ => .irq num

/-- The code at the label, with that of the stub it jumps to. -/
def code : Macro → List (Instr Routine)
  | isrNoErrCode num => .push 0 :: .push (BitVec.ofNat 32 num) :: isrStubNoErrCode
  | isrErrCode num => .push (BitVec.ofNat 32 num) :: isrStubErrCode
  | irqNoErrCode num abs => .push (BitVec.ofNat 32 abs) :: .push (BitVec.ofNat 32 num) :: irqStub

end Macro

/-- The uses of the macros in `interrupts.S`. -/
def interruptsS : List Macro :=
  [.isrNoErrCode 0, .isrNoErrCode 1, .isrNoErrCode 2, .isrNoErrCode 3, .isrNoErrCode 4, .isrNoErrCode 5, .isrNoErrCode 6,
    .isrNoErrCode 7, .isrErrCode 8, .isrNoErrCode 9, .isrErrCode 10, .isrErrCode 11, .isrErrCode 12, .isrErrCode 13,
    .isrErrCode 14, .isrNoErrCode 15, .isrNoErrCode 16, .isrErrCode 17, .isrNoErrCode 18, .isrNoErrCode 19, .isrNoErrCode 20,
    .isrNoErrCode 21, .isrNoErrCode 22, .isrNoErrCode 23, .isrNoErrCode 24, .isrNoErrCode 25, .isrNoErrCode 26,
    .isrNoErrCode 27, .isrNoErrCode 28, .isrNoErrCode 29, .isrNoErrCode 30, .isrNoErrCode 31, .isrNoErrCode 49, .isrErrCode 50,
    .irqNoErrCode 0 32, .irqNoErrCode 1 33, .irqNoErrCode 2 34, .irqNoErrCode 3 35, .irqNoErrCode 4 36, .irqNoErrCode 5 37,
    .irqNoErrCode 6 38, .irqNoErrCode 7 39, .irqNoErrCode 8 40, .irqNoErrCode 9 41, .irqNoErrCode 10 42, .irqNoErrCode 11 43,
    .irqNoErrCode 12 44, .irqNoErrCode 13 45, .irqNoErrCode 14 46, .irqNoErrCode 15 47]

/-- The use of a macro that defines a label. -/
def defining (l : Label) : Option Macro := interruptsS.find? (fun d => d.label = l)

/-- The code at a label. -/
def codeAt (l : Label) : List (Instr Routine) := (defining l).elim [] Macro.code

/-! ## The descriptor table -/

/-- An entry of the interrupt descriptor table, by the label whose address is in it. -/
structure Gate where
  vector : Nat
  base : Label
  segmentSelector : BitVec 16
  type : BitVec 16
  deriving DecidableEq

/-- `KERNEL_CODE_SELECTOR` -/
def kernelCodeSelector : BitVec 16 := 0x08

/-- `CREATE_ISR` -/
def createIsr (isrNum : Nat) : Gate :=
  { vector := isrNum, base := .isr isrNum, segmentSelector := kernelCodeSelector, type := 0x8E }

/-- `CREATE_IRQ` -/
def createIrq (irqNum idtNum : Nat) : Gate :=
  { vector := idtNum, base := .irq irqNum, segmentSelector := kernelCodeSelector, type := 0x8E }

/-- The entries that `idt_init` creates. -/
def idtInit : List Gate := (List.range 32).map createIsr ++ (List.range 16).map (fun irqNum => createIrq irqNum (32 + irqNum))

/-- The vector is declared with an error code. -/
def HasErrorCode (vector : Nat) : Prop := Macro.isrErrCode vector ∈ interruptsS

instance (vector : Nat) : Decidable (HasErrorCode vector) := inferInstanceAs (Decidable (_ ∈ _))

/-- The error code that the processor pushes: for exactly the vectors declared with one. -/
def errorCode (vector : Nat) (code : BitVec 32) : Option (BitVec 32) := if HasErrorCode vector then some code else none

/-- The run of a gate's code, from the state that is interrupted. -/
def handle (e : Env Routine) (gate : Gate) (code : BitVec 32) (m : Machine) : Machine × List (Event Routine) :=
  exec e (codeAt gate.base) (m.interrupt gate.segmentSelector (errorCode gate.vector code))

/-! ## Transparency -/

/-- The routine that handles a vector. -/
def routineOf (vector : Nat) : Routine := if vector < 32 then .isrHandler else .irqHandler

/-- What the routine is to be given: the registers as they were, `esp` as it was before `pushal`, and then for an exception its number,
its error code, or zero, and where it happened, and for an IRQ its number and that of its vector. -/
def expected (vector : Nat) (code : BitVec 32) (m : Machine) : List (BitVec 32) :=
  { m with esp := m.esp - 20 }.general ++
    if vector < 32 then [BitVec.ofNat 32 vector, (errorCode vector code).getD 0, m.eip]
    else [BitVec.ofNat 32 (vector - 32), BitVec.ofNat 32 vector]

/-- The routine has been given what it is to be given, and `iret` returns to the interrupted code, with the registers as they were. -/
structure Seamless (vector : Nat) (code : BitVec 32) (m entry last final : Machine) : Prop where
  arguments : entry.arguments (expected vector code m).length = expected vector code m
  registers : m.SameRegisters last
  esp : last.esp = m.esp - 12
  eip : final.eip = m.eip
  cs : final.cs = m.cs
  eflags : final.eflags = m.eflags

/-- A run calls the routine of the vector once and ends in an `iret`, and the interrupted code does not notice. -/
def Transparent (vector : Nat) (code : BitVec 32) (m : Machine) (run : Machine × List (Event Routine)) : Prop :=
  ∃ entry last, run.2 = [.call (routineOf vector) entry, .iret last] ∧ Seamless vector code m entry last run.1

/-- The routines that a run calls return and keep their arguments and the interrupt frame behind them, 13 words. -/
def RoutinesReturn (e : Env Routine) (events : List (Event Routine)) : Prop :=
  ∀ routine entry, .call routine entry ∈ events → Cdecl (e.routine routine) 13 entry

/-! ## A stub -/

/-- What a macro leaves for its stub: two words below the frame, and the registers as they were. -/
structure Entered (m : Machine) (a b : BitVec 32) (m' : Machine) : Prop where
  registers : m.SameRegisters m'
  esp : m'.esp = m.esp - 20
  stacked : Stacked m'.mem m'.esp ([a, b] ++ m.frame)

section

variable {e : Env Routine} {routine : Routine} {n : BitVec 32} {m m₀ : Machine} {a b : BitVec 32}

/-- The state in which a stub calls its routine. -/
def stubEntry (e : Env Routine) (m : Machine) : Machine := m.pushal.push e.next

/-- The state before a stub's `iret`. -/
def stubLast (e : Env Routine) (routine : Routine) (n : BitVec 32) (m : Machine) : Machine :=
  (e.routine routine (stubEntry e m)).popal.addEsp n

theorem exec_stub (e : Env Routine) (routine : Routine) (n : BitVec 32) (m : Machine) :
    exec e (stub routine n) m = ((stubLast e routine n m).iret, [.call routine (stubEntry e m), .iret (stubLast e routine n m)]) := rfl

theorem pushal_esp (m : Machine) : m.pushal.esp + 32 = m.esp := by
  show m.esp - 4 - 4 - 4 - 4 - 4 - 4 - 4 - 4 + 32 = m.esp
  bv_omega

/-- What a stub's routine is given, and what is left when it has returned. -/
theorem stub_stacked (hstack : Stacked m.mem m.esp ([a, b] ++ m₀.frame))
    (hreturn : Cdecl (e.routine routine) 13 (stubEntry e m)) :
    Stacked (stubEntry e m).mem (stubEntry e m).esp (e.next :: (m.general ++ ([a, b] ++ m₀.frame))) ∧
      m.SameRegisters (stubLast e routine n m) ∧ (stubLast e routine n m).esp = m.esp + n ∧
      Stacked (stubLast e routine n m).mem m.esp ([a, b] ++ m₀.frame) := by
  have hpushal := hstack.pushal (show 5 + 8 < cells by decide)
  have hentry := hpushal.push (show 13 + 1 < cells by decide) e.next
  have hkept : Cdecl (e.routine routine) (m.general ++ ([a, b] ++ m₀.frame)).length (stubEntry e m) := hreturn
  have hback := hkept.stacked hentry
  have hesp : (e.routine routine (stubEntry e m)).esp = m.pushal.esp := by
    rw [hreturn.esp]
    exact BitVec.sub_add_cancel _ _
  refine ⟨hentry, ?_, ?_, ?_⟩
  · have hpop := hback.popal
    exact ⟨hpop.eax, hpop.ecx, hpop.edx, hpop.ebx, hpop.ebp, hpop.esi, hpop.edi⟩
  · show (e.routine routine (stubEntry e m)).esp + 32 + n = m.esp + n
    rw [hesp, pushal_esp]
  · have hrest := hback.drop
    rw [hesp] at hrest
    have hcell : cell m.pushal.esp m.general.length = m.esp := pushal_esp m
    rw [hcell] at hrest
    exact hrest

/-- A stub is transparent exactly when it takes the two words below the frame off the stack. -/
theorem stub_transparent_iff {vector : Nat} {code : BitVec 32} {rest : List (BitVec 32)} (hroutine : routineOf vector = routine)
    (hentered : Entered m₀ a b m)
    (hexpected : expected vector code m₀ ++ rest = { m₀ with esp := m₀.esp - 20 }.general ++ ([a, b] ++ m₀.frame))
    (hreturn : RoutinesReturn e (exec e (stub routine n) m).2) :
    Transparent vector code m₀ (exec e (stub routine n) m) ↔ n = 8 := by
  subst hroutine
  have hcall : Cdecl (e.routine (routineOf vector)) 13 (stubEntry e m) := hreturn _ _ List.mem_cons_self
  obtain ⟨hsame, hesp, hstack⟩ := hentered
  obtain ⟨hentry, hregs, hlast, hleft⟩ := stub_stacked (n := n) hstack hcall
  have hgeneral : m.general = { m₀ with esp := m₀.esp - 20 }.general := by
    simp only [Machine.general, hsame.eax, hsame.ecx, hsame.edx, hsame.ebx, hsame.ebp, hsame.esi, hsame.edi, hesp]
  constructor
  · rintro ⟨entry, last, hevents, hseamless⟩
    rw [exec_stub] at hevents
    obtain ⟨-, htail⟩ := List.cons.inj hevents
    obtain ⟨hiret, -⟩ := List.cons.inj htail
    have hesp' := hseamless.esp
    rw [← Event.iret.inj hiret, hlast, hesp] at hesp'
    bv_omega
  · rintro rfl
    refine ⟨stubEntry e m, stubLast e (routineOf vector) 8 m, rfl, ?_⟩
    have hframe : Stacked (stubLast e (routineOf vector) 8 m).mem (stubLast e (routineOf vector) 8 m).esp m₀.frame := by
      rw [hlast]
      exact hleft.drop
    obtain ⟨heip, hcs, heflags⟩ := hframe.iret
    rw [hgeneral, ← hexpected] at hentry
    refine ⟨hentry.arguments, hsame.trans hregs, ?_, heip, hcs, heflags⟩
    rw [hlast, hesp]
    bv_omega

end

/-! ## Every vector -/

/-- Each gate leads to code that the macro for its vector defines. -/
theorem idtInit_defining : ∀ gate ∈ idtInit,
    gate.vector < 32 ∧ HasErrorCode gate.vector ∧ defining gate.base = some (.isrErrCode gate.vector) ∨
      gate.vector < 32 ∧ ¬HasErrorCode gate.vector ∧ defining gate.base = some (.isrNoErrCode gate.vector) ∨
      ¬gate.vector < 32 ∧ ¬HasErrorCode gate.vector ∧ defining gate.base = some (.irqNoErrCode (gate.vector - 32) gate.vector) := by
  decide

/-- The processor has pushed an error code, and the macro pushes one word. -/
theorem entered_error (m : Machine) (selector : BitVec 16) (code a : BitVec 32) :
    Entered m a code ((m.interrupt selector (some code)).push a) := by
  refine ⟨(m.interrupt_sameRegisters selector (some code)).trans (Machine.push_sameRegisters _ a), ?_, ?_⟩
  · show (m.interrupt selector (some code)).esp - 4 = m.esp - 20
    rw [m.interrupt_esp_some]
    bv_omega
  · exact (m.interrupt_stacked selector (some code)).push (show 5 < cells by decide) a

/-- The processor has pushed no error code, and the macro pushes two words. -/
theorem entered_no_error (m : Machine) (selector : BitVec 16) (a b : BitVec 32) :
    Entered m a b (((m.interrupt selector none).push b).push a) := by
  have hregs := (m.interrupt_sameRegisters selector none).trans (Machine.push_sameRegisters _ b)
  refine ⟨hregs.trans (Machine.push_sameRegisters _ a), ?_, ?_⟩
  · show (m.interrupt selector none).esp - 4 - 4 = m.esp - 20
    rw [m.interrupt_esp_none]
    bv_omega
  · have hfirst := (m.interrupt_stacked selector none).push (show 4 < cells by decide) b
    exact hfirst.push (show 5 < cells by decide) a

section

variable {e : Env Routine} {gate : Gate} {code : BitVec 32} {m : Machine}

/-- An exception with an error code: its stub leaves that on the stack. -/
theorem isrErrCode_not_transparent (hlow : gate.vector < 32) (herror : HasErrorCode gate.vector)
    (hdef : defining gate.base = some (.isrErrCode gate.vector)) (hreturn : RoutinesReturn e (handle e gate code m).2) :
    ¬Transparent gate.vector code m (handle e gate code m) := by
  have herr : errorCode gate.vector code = some code := if_pos herror
  have hrun : handle e gate code m = exec e (stub .isrHandler 4)
      ((m.interrupt gate.segmentSelector (some code)).push (BitVec.ofNat 32 gate.vector)) := by
    rw [handle, herr, codeAt, hdef, Option.elim_some, Macro.code, exec_push, isrStubErrCode]
  have hexpected : expected gate.vector code m ++ [m.cs.setWidth 32, m.eflags] =
      { m with esp := m.esp - 20 }.general ++ ([BitVec.ofNat 32 gate.vector, code] ++ m.frame) := by
    rw [expected, if_pos hlow, herr, List.append_assoc]
    rfl
  rw [hrun] at hreturn ⊢
  rw [stub_transparent_iff (if_pos hlow) (entered_error m _ _ _) hexpected hreturn]
  decide

/-- An exception without one. -/
theorem isrNoErrCode_transparent (hlow : gate.vector < 32) (herror : ¬HasErrorCode gate.vector)
    (hdef : defining gate.base = some (.isrNoErrCode gate.vector)) (hreturn : RoutinesReturn e (handle e gate code m).2) :
    Transparent gate.vector code m (handle e gate code m) := by
  have herr : errorCode gate.vector code = none := if_neg herror
  have hrun : handle e gate code m = exec e (stub .isrHandler 8)
      (((m.interrupt gate.segmentSelector none).push 0).push (BitVec.ofNat 32 gate.vector)) := by
    rw [handle, herr, codeAt, hdef, Option.elim_some, Macro.code, exec_push, exec_push, isrStubNoErrCode]
  have hexpected : expected gate.vector code m ++ [m.cs.setWidth 32, m.eflags] =
      { m with esp := m.esp - 20 }.general ++ ([BitVec.ofNat 32 gate.vector, 0] ++ m.frame) := by
    rw [expected, if_pos hlow, herr, List.append_assoc]
    rfl
  rw [hrun] at hreturn ⊢
  exact (stub_transparent_iff (if_pos hlow) (entered_no_error m _ _ _) hexpected hreturn).mpr rfl

/-- An IRQ. -/
theorem irqNoErrCode_transparent (hhigh : ¬gate.vector < 32) (herror : ¬HasErrorCode gate.vector)
    (hdef : defining gate.base = some (.irqNoErrCode (gate.vector - 32) gate.vector))
    (hreturn : RoutinesReturn e (handle e gate code m).2) : Transparent gate.vector code m (handle e gate code m) := by
  have herr : errorCode gate.vector code = none := if_neg herror
  have hrun : handle e gate code m = exec e (stub .irqHandler 8)
      (((m.interrupt gate.segmentSelector none).push (BitVec.ofNat 32 gate.vector)).push (BitVec.ofNat 32 (gate.vector - 32))) := by
    rw [handle, herr, codeAt, hdef, Option.elim_some, Macro.code, exec_push, exec_push, irqStub]
  have hexpected : expected gate.vector code m ++ m.frame = { m with esp := m.esp - 20 }.general ++
      ([BitVec.ofNat 32 (gate.vector - 32), BitVec.ofNat 32 gate.vector] ++ m.frame) := by
    rw [expected, if_neg hhigh, List.append_assoc]
  rw [hrun] at hreturn ⊢
  exact (stub_transparent_iff (if_neg hhigh) (entered_no_error m _ _ _) hexpected hreturn).mpr rfl

end

/-- For every gate that `idt_init` installs and every state that is interrupted, when the routine returns and keeps its arguments: the
interrupt is transparent exactly when its vector is not declared with an error code. -/
theorem interrupt_transparent_iff (e : Env Routine) {gate : Gate} (hgate : gate ∈ idtInit) (code : BitVec 32) (m : Machine)
    (hreturn : RoutinesReturn e (handle e gate code m).2) :
    Transparent gate.vector code m (handle e gate code m) ↔ ¬HasErrorCode gate.vector := by
  rcases idtInit_defining gate hgate with ⟨hlow, herror, hdef⟩ | ⟨hlow, herror, hdef⟩ | ⟨hhigh, herror, hdef⟩
  · exact iff_of_false (isrErrCode_not_transparent hlow herror hdef hreturn) (not_not_intro herror)
  · exact iff_of_true (isrNoErrCode_transparent hlow herror hdef hreturn) herror
  · exact iff_of_true (irqNoErrCode_transparent hhigh herror hdef hreturn) herror

/-! ## A routine that returns at once -/

/-- Routines that return at once, with a value in `%eax`. -/
def returningEnv : Env Routine where
  routine _ m := { m with eax := 1, eip := m.mem.load m.esp, esp := m.esp + 4 }
  next := 0xC0100040

/-- Nothing in the registers, on a stack that ends at 0xC0110000. -/
def someMachine : Machine :=
  { eax := 0, ecx := 0, edx := 0, ebx := 0, esp := 0xC0110000, ebp := 0, esi := 0, edi := 0, eip := 0xC0101000, cs := 0x08,
    eflags := 0x202, mem := fun _ => 0 }

theorem returningEnv_return (events : List (Event Routine)) : RoutinesReturn returningEnv events := by
  intro routine entry _
  exact ⟨rfl, rfl, rfl, rfl, rfl, rfl, fun _ _ => rfl⟩

/-- The timer's interrupt. -/
theorem timer_transparent : createIrq 0 32 ∈ idtInit ∧
    (Transparent 32 0 someMachine (handle returningEnv (createIrq 0 32) 0 someMachine) ↔ ¬HasErrorCode 32) := by
  have hgate : createIrq 0 32 ∈ idtInit := by decide
  exact ⟨hgate, interrupt_transparent_iff returningEnv hgate 0 someMachine (returningEnv_return _)⟩

/-- A page fault with the error code 2: the `iret` takes the error code for the address to return to. -/
theorem pageFault_not_transparent : createIsr 14 ∈ idtInit ∧
    RoutinesReturn returningEnv (handle returningEnv (createIsr 14) 2 someMachine).2 ∧
    (handle returningEnv (createIsr 14) 2 someMachine).1.eip = 2 ∧
    ¬Transparent 14 2 someMachine (handle returningEnv (createIsr 14) 2 someMachine) := by
  have hreturn := returningEnv_return (handle returningEnv (createIsr 14) 2 someMachine).2
  refine ⟨by decide, hreturn, by decide, ?_⟩
  exact isrErrCode_not_transparent (by decide) (by decide) (by decide) hreturn

end LumOS
