import LumOS.Libc.Printf

/-!
# `logf`

`logf` is `printf` for the serial port (`logf_eq`): the two differ in the characters' way out, and in the checks for an `EOF` that
never comes.
-/

namespace LumOS

open Comp

theorem log_eq (data : CharPtr) (length : Nat) (out : List (BitVec 8)) : log data length out = out ++ data.read length := by
  refine forRange_induct (Nat.zero_le length) (fun i t => t = out ++ data.read i) (by simp) ?_
  rintro i _ _ _ rfl
  rw [com1Send, CharPtr.read_succ_last, List.append_assoc]

theorem logSegment_eq (s : Scan) (data : CharPtr) (len n : Nat) : logSegment s data len n = printSegment s data len n := by
  rw [printSegment_eq, logSegment, log_eq]

/-- A turn of `logf` is a turn of `printf`. -/
theorem logfTurn_eq (stack : CharPtr) (s : Scan) : logfTurn stack s = printfTurn stack s := by
  simp only [logfTurn, printfTurn, logSegment_eq]

theorem logf_eq (stack formatStr : CharPtr) (params : List Arg) : logf stack formatStr params = printf stack formatStr params := by
  rw [logf, printf, funext (logfTurn_eq stack)]

/-- `logf` and `printf` pass on the same characters and return the same value, whatever the stack of each holds. -/
theorem printf_logf_agree (stack stack' : CharPtr) (fmt : CString) (args : List Arg) (h : Matches (parse fmt.chars) args) :
    ∃ value chars, Returns (printf stack fmt.ptr args) (.returned value chars) ∧
      Returns (logf stack' fmt.ptr args) (.returned value chars) := by
  obtain ⟨segs, hsegs, _⟩ := h.segments
  obtain ⟨value, chars, hfinish⟩ := finish_returned 0 [] segs
  rw [logf_eq]
  refine ⟨value, chars, ?_, ?_⟩
  · rw [← hfinish]
    exact printf_finish stack fmt hsegs
  · rw [← hfinish]
    exact printf_finish stack' fmt hsegs

/-- The two on the format `"%x%"`, with other stacks. -/
theorem printf_logf_agree_stray :
    ∃ value chars, Returns (printf (fun _ => 0) (CString.ofChars [chr '%', chr 'x', chr '%'] (by decide)).ptr [.word 255])
        (.returned value chars) ∧
      Returns (logf (fun _ => 1) (CString.ofChars [chr '%', chr 'x', chr '%'] (by decide)).ptr [.word 255])
        (.returned value chars) :=
  printf_logf_agree (fun _ => 0) (fun _ => 1) (CString.ofChars [chr '%', chr 'x', chr '%'] (by decide)) [.word 255]
    ⟨rfl, trivial⟩

end LumOS
