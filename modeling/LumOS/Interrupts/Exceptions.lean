import LumOS.Interrupts.Stubs
import LumOS.Libc.Buffers
import LumOS.Tty.Console

/-!
# Exceptions

`isr_handler` of `isr.c`, which reports an exception on the terminal and then waits for ever. From the interrupted state on, through the
gate and its stub, the report has the vector, its message, the error code and the place of the exception (`exception_reported`). So what is
wrong with the way back from an exception with an error code never comes to pass.

A `hlt` in a handler waits or does nothing, and the loop after it goes on for ever in either case; it is left out.
-/

namespace LumOS

open Comp

/-- `exception_messages` -/
def exceptionMessages : List String :=
  ["Division by zero",
    "Debug",
    "Non Maskable Interrupt",
    "Breakpoint",
    "Overflow",
    "BOUND range exceeded",
    "Invalid Opcode",
    "Device not available (no math coprocesor)",
    "Double Fault",
    "Coprocessor Segment Overrun",
    "Invalid TSS",
    "Segment not present",
    "Stack-Segment fault",
    "General Protection",
    "Page fault",
    "Reserved",
    "Floating point error",
    "Alignment Check",
    "Machine Check",
    "SIMD Floating-Point exception",
    "Virtualisation Exception",
    "Reserved",
    "Reserved",
    "Reserved",
    "Reserved",
    "Reserved",
    "Reserved",
    "Reserved",
    "Reserved",
    "Reserved",
    "Reserved",
    "Reserved"]

theorem exceptionMessages_ne_nul : ∀ s ∈ exceptionMessages, ∀ c ∈ literal s, c ≠ 0 := by
  simp only [exceptionMessages, List.forall_mem_cons]
  refine ⟨?_, ?_, ?_, ?_, ?_, ?_, ?_, ?_, ?_, ?_, ?_, ?_, ?_, ?_, ?_, ?_, ?_, ?_, ?_, ?_, ?_, ?_, ?_, ?_, ?_, ?_, ?_, ?_, ?_, ?_, ?_,
    ?_, List.forall_mem_nil _⟩
  all_goals simp [literal, chr]

/-- `exception_messages[ISR_num]`, within the array. -/
def exceptionMessage (isrNum : BitVec 32) : Option CString :=
  if h : isrNum.toNat < exceptionMessages.length then
    some (CString.ofChars (literal exceptionMessages[isrNum.toNat]) (exceptionMessages_ne_nul _ (List.getElem_mem h)))
  else none

/-- The format `"\nReceived exception :: GATE %d\n"`. -/
def formatGate : CString := CString.ofChars (literal "\nReceived exception :: GATE %d\n") (by simp [literal, chr])

/-- The format `"%s(%d)\n"`. -/
def formatMessage : CString := CString.ofChars (literal "%s(%d)\n") (by simp [literal, chr])

/-- The format `"Exception occurred @ %x\n"`. -/
def formatPlace : CString := CString.ofChars (literal "Exception occurred @ %x\n") (by simp [literal, chr])

/-- What `isr_handler` prints. A message past the end of the array is undefined. -/
def isrPrints (stack : CharPtr) (isrNum errorCode eip : BitVec 32) (t : Tty) : Comp Tty := do
  let (_, t) ← printTo stack formatGate [.word isrNum] t
  match exceptionMessage isrNum with
  | none => Comp.diverge
  | some message => do
    let (_, t) ← printTo stack formatMessage [.str message, .word errorCode] t
    let (_, t) ← printTo stack formatPlace [.word eip] t
    pure t

/-- `isr_handler`, from its arguments on, up to the `hlt`. The registers come first and are not used. -/
def isrReport (stack : CharPtr) : List (BitVec 32) → Tty → Comp Tty
  | [_, _, _, _, _, _, _, _, isrNum, errorCode, eip], t => isrPrints stack isrNum errorCode eip t
  | _, _ => Comp.diverge

/-- `isr_handler`, with `for (;;);` -/
def isrHandler (stack : CharPtr) (arguments : List (BitVec 32)) (t : Tty) : Comp Tty := do
  let t ← isrReport stack arguments t
  Comp.loop (fun _ => true) pure t

/-- What is to be reported. -/
def report (vector : Nat) (errorCode eip : BitVec 32) : List (BitVec 8) :=
  literal "\nReceived exception :: GATE " ++ signedDecimal vector ++ [0x0A] ++ literal (exceptionMessages.getD vector "") ++
    literal "(" ++ signedDecimal errorCode.toInt ++ literal ")\n" ++ literal "Exception occurred @ " ++ numeral 16 eip.toNat ++ [0x0A]

/-! ## The report -/

theorem segments_gate (w : BitVec 32) : segments [] (parse formatGate.chars) [.word w] =
    some [literal "\nReceived exception :: GATE ", signedDecimal w.toInt, [0x0A]] := by
  simp [formatGate, CString.ofChars, literal, parse, segments, flush, Conversion.ofChar, Conversion.text, chr]

theorem segments_message (str : CString) (w : BitVec 32) : segments [] (parse formatMessage.chars) [.str str, .word w] =
    some [str.chars, literal "(", signedDecimal w.toInt, literal ")\n"] := by
  simp [formatMessage, CString.ofChars, literal, parse, segments, flush, Conversion.ofChar, Conversion.text, chr]

theorem segments_place (w : BitVec 32) : segments [] (parse formatPlace.chars) [.word w] =
    some [literal "Exception occurred @ ", numeral 16 w.toNat, [0x0A]] := by
  simp [formatPlace, CString.ofChars, literal, parse, segments, flush, Conversion.ofChar, Conversion.text, chr]

theorem exceptionMessages_length : ∀ s ∈ exceptionMessages, (literal s).length ≤ 41 := by
  simp only [exceptionMessages, List.forall_mem_cons, literal, List.length_map]
  simp

theorem terminalWrite_append (t : Tty) (r s : List (BitVec 8)) : terminalWrite t (r ++ s) = terminalWrite (terminalWrite t r) s :=
  List.foldl_append

theorem toInt_vector : ∀ vector < 32, (BitVec.ofNat 32 vector).toInt = vector := by decide

/-- `printf` of a short text. -/
theorem printTo_short (stack : CharPtr) {fmt : CString} {params : List Arg} {segs : List (List (BitVec 8))}
    (h : segments [] (parse fmt.chars) params = some segs) (hshort : segs.flatten.length ≤ 100) (t : Tty) :
    ∃ value, Returns (printTo stack fmt params t) (value, terminalWrite t segs.flatten) := by
  have hpassed := printTo_returns stack h t
  rw [passedOn, if_pos (hshort.trans (by decide))] at hpassed
  exact hpassed

/-- The prints of an exception's vector make the report. -/
theorem isrPrints_returns (stack : CharPtr) {vector : Nat} (hvector : vector < 32) (errorCode eip : BitVec 32) (t : Tty) :
    Returns (isrPrints stack (BitVec.ofNat 32 vector) errorCode eip t) (terminalWrite t (report vector errorCode eip)) := by
  have hlt : vector < exceptionMessages.length := hvector
  have hnum : (BitVec.ofNat 32 vector).toNat = vector := by
    rw [BitVec.toNat_ofNat, Nat.mod_eq_of_lt (by omega)]
  obtain ⟨message, hsome, hchars⟩ : ∃ message, exceptionMessage (BitVec.ofNat 32 vector) = some message ∧
      message.chars = literal exceptionMessages[vector] := by
    refine ⟨_, dif_pos (by rw [hnum]; exact hlt), ?_⟩
    simp only [hnum]
    rfl
  have hint := length_signedDecimal_le (BitVec.ofNat 32 vector)
  have hcode := length_signedDecimal_le errorCode
  have hplace := length_hexadecimal_le eip
  have hlong := exceptionMessages_length _ (List.getElem_mem hlt)
  have hgate : (literal "\nReceived exception :: GATE ").length = 28 := by simp [literal]
  have hat : (literal "Exception occurred @ ").length = 21 := by simp [literal]
  have hopen : (literal "(").length = 1 := by simp [literal]
  have hclose : (literal ")\n").length = 2 := by simp [literal]
  obtain ⟨_, h1⟩ := printTo_short stack (segments_gate (BitVec.ofNat 32 vector)) (by simp [hgate]; omega) t
  obtain ⟨_, h2⟩ := printTo_short stack (segments_message message errorCode) (by simp [hchars, hopen, hclose]; omega)
    (terminalWrite t [literal "\nReceived exception :: GATE ", signedDecimal (BitVec.ofNat 32 vector).toInt, [0x0A]].flatten)
  rw [← terminalWrite_append] at h2
  obtain ⟨_, h3⟩ := printTo_short stack (segments_place eip) (by simp [hat]; omega) (terminalWrite t _)
  rw [← terminalWrite_append] at h3
  refine returns_bind.mpr ⟨_, h1, ?_⟩
  rw [hsome]
  refine returns_bind.mpr ⟨_, h2, returns_bind.mpr ⟨_, h3, returns_pure.mpr (congrArg (terminalWrite t) ?_)⟩⟩
  simp [report, hchars, toInt_vector vector hvector, List.getElem?_eq_getElem hlt]

/-! ## From the gate to the handler -/

section

variable {e : Env Routine} {m : Machine} {gate : Gate} {code : BitVec 32}

/-- What a stub gives its routine, whatever that does with it. -/
theorem stub_arguments {m₀ : Machine} {a b : BitVec 32} {args rest : List (BitVec 32)} (hentered : Entered m₀ a b m)
    (hargs : args ++ rest = { m₀ with esp := m₀.esp - 20 }.general ++ ([a, b] ++ m₀.frame)) :
    (stubEntry e m).arguments args.length = args := by
  obtain ⟨hsame, hesp, hstack⟩ := hentered
  have hpushal := hstack.pushal (show 5 + 8 < Mem.cells by decide)
  have hentry := hpushal.push (show 13 + 1 < Mem.cells by decide) e.next
  have hgeneral : m.general = { m₀ with esp := m₀.esp - 20 }.general := by
    simp only [Machine.general, hsame.eax, hsame.ecx, hsame.edx, hsame.ebx, hsame.ebp, hsame.esi, hsame.edi, hesp]
  rw [hgeneral, ← hargs] at hentry
  exact hentry.arguments

/-- The stub of an exception calls `isr_handler` with what is expected. -/
theorem exception_call (hgate : gate ∈ idtInit) (hvector : gate.vector < 32) :
    ∃ entry rest, (handle e gate code m).2 = .call .isrHandler entry :: rest ∧
      entry.arguments 11 = expected gate.vector code m := by
  rcases idtInit_defining gate hgate with ⟨-, herror, hdef⟩ | ⟨-, herror, hdef⟩ | ⟨hirq, -⟩
  · have herr : errorCode gate.vector code = some code := if_pos herror
    have hrun : handle e gate code m = exec e (stub .isrHandler 4)
        ((m.interrupt gate.segmentSelector (some code)).push (BitVec.ofNat 32 gate.vector)) := by
      rw [handle, herr, codeAt, hdef, Option.elim_some, Macro.code, exec_push, isrStubErrCode]
    have hargs : expected gate.vector code m ++ [m.cs.setWidth 32, m.eflags] =
        { m with esp := m.esp - 20 }.general ++ ([BitVec.ofNat 32 gate.vector, code] ++ m.frame) := by
      rw [expected, if_pos hvector, herr, List.append_assoc]
      rfl
    have hlen : (expected gate.vector code m).length = 11 := by
      rw [expected, if_pos hvector]
      rfl
    refine ⟨_, _, congrArg Prod.snd (hrun.trans (exec_stub e _ _ _)), ?_⟩
    rw [← hlen]
    exact stub_arguments (entered_error m _ _ _) hargs
  · have herr : errorCode gate.vector code = none := if_neg herror
    have hrun : handle e gate code m = exec e (stub .isrHandler 8)
        (((m.interrupt gate.segmentSelector none).push 0).push (BitVec.ofNat 32 gate.vector)) := by
      rw [handle, herr, codeAt, hdef, Option.elim_some, Macro.code, exec_push, exec_push, isrStubNoErrCode]
    have hargs : expected gate.vector code m ++ [m.cs.setWidth 32, m.eflags] =
        { m with esp := m.esp - 20 }.general ++ ([BitVec.ofNat 32 gate.vector, 0] ++ m.frame) := by
      rw [expected, if_pos hvector, herr, List.append_assoc]
      rfl
    have hlen : (expected gate.vector code m).length = 11 := by
      rw [expected, if_pos hvector]
      rfl
    refine ⟨_, _, congrArg Prod.snd (hrun.trans (exec_stub e _ _ _)), ?_⟩
    rw [← hlen]
    exact stub_arguments (entered_no_error m _ _ _) hargs
  · exact absurd hvector hirq

/-- An exception in any state of the processor: the handler that its stub calls puts on the terminal the number of the exception, its
message, the error code, or zero where it has none, and where it happened, and it never returns. -/
theorem exception_reported (e : Env Routine) (gate : Gate) (code : BitVec 32) (m : Machine) (stack : CharPtr) (t : Tty)
    (hgate : gate ∈ idtInit) (hvector : gate.vector < 32) :
    ∃ entry rest, (handle e gate code m).2 = .call .isrHandler entry :: rest ∧
      Returns (isrReport stack (entry.arguments 11) t)
        (terminalWrite t (report gate.vector ((errorCode gate.vector code).getD 0) m.eip)) ∧
      Diverges (isrHandler stack (entry.arguments 11) t) := by
  obtain ⟨entry, rest, hcall, hargs⟩ := exception_call hgate hvector
  have hreport : isrReport stack (entry.arguments 11) t =
      isrPrints stack (BitVec.ofNat 32 gate.vector) ((errorCode gate.vector code).getD 0) m.eip t := by
    rw [hargs, expected, if_pos hvector]
    rfl
  have hreturns := isrPrints_returns stack hvector ((errorCode gate.vector code).getD 0) m.eip t
  refine ⟨entry, rest, hcall, ?_, ?_⟩
  · rw [hreport]
    exact hreturns
  · intro n
    rw [isrHandler, hreport]
    have hloop : ∀ t : Tty, Diverges (Comp.loop (fun _ => true) pure t) :=
      fun t => diverges_loop (fun _ => True) (fun _ _ => rfl) (fun _ _ _ _ => trivial) trivial
    exact Option.bind_eq_none_iff.mpr (fun t' _ => hloop t' n)

/-- A page fault with the error code 2. -/
theorem exception_reported_pageFault : createIsr 14 ∈ idtInit ∧
    ∃ entry rest, (handle returningEnv (createIsr 14) 2 someMachine).2 = .call .isrHandler entry :: rest ∧
      Returns (isrReport (fun _ => 0) (entry.arguments 11) (terminalInit (fun _ => 0)))
        (terminalWrite (terminalInit (fun _ => 0)) (report 14 2 0xC0101000)) ∧
      Diverges (isrHandler (fun _ => 0) (entry.arguments 11) (terminalInit (fun _ => 0))) :=
  ⟨by decide, exception_reported returningEnv (createIsr 14) 2 someMachine (fun _ => 0) (terminalInit (fun _ => 0)) (by decide)
    (by decide)⟩

end

end LumOS
