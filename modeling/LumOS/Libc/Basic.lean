import LumOS.Lib.CString
import LumOS.Lib.ForRange

/-!
# The formatters of the C library

`strlen.c`, `itoa.c`, `putchar.c`, `printf.c` and `logf.c`, function by function. An `int` and an `unsigned long int` have 32 bits. A
length is a number: a string lies in an address space of `2 ^ 32` characters, so no `size_t` here wraps. What a formatter passes
on, to the terminal or to the serial port, is the list of those characters, the first one first.
-/

namespace LumOS

/-- `INT_MAX` -/
def intMax : Nat := 2 ^ 31 - 1

/-- `EOF` -/
def eof : BitVec 32 := -1

/-- `strlen` -/
def strlen (str : CharPtr) : Comp Nat := Comp.loop (fun len => str len != 0) (fun len => pure (len + 1)) 0

/-! ## `itoa` -/

/-- A character array: what it holds, and the indices written so far, the last one first. -/
structure CharBuf where
  chars : CharPtr
  writes : List Nat

/-- `buf[i] = c` -/
def CharBuf.set (buf : CharBuf) (i : Nat) (c : BitVec 8) : CharBuf where
  chars := fun k => if k = i then c else buf.chars k
  writes := i :: buf.writes

/-- The variables of `itoa` that change. -/
structure Itoa where
  num : BitVec 32
  i : Nat
  j : Nat
  buf : CharBuf

/-- `(digit > 9) ? 'A' + (digit - 10) : (digit) + '0'`, as a `char` -/
def itoaChar (digit : BitVec 32) : BitVec 8 :=
  (if digit > 9 then (chr 'A').setWidth 32 + (digit - 10) else digit + (chr '0').setWidth 32).setWidth 8

/-- The sign: what stands before the first loop. -/
def itoaSign (num : BitVec 32) (buf : CharBuf) (radix : BitVec 32) : Itoa :=
  if radix = 10 ∧ num.toInt < 0 then { num := 0 - num, i := 1, j := 1, buf := buf.set 0 (chr '-') }
  else { num := num, i := 0, j := 0, buf := buf }

/-- A turn of the first loop: the lowest digit of `num`. -/
def itoaDigit (radix : BitVec 32) (s : Itoa) : Itoa :=
  { s with num := s.num / radix, i := s.i + 1, buf := s.buf.set s.i (itoaChar (s.num % radix)) }

/-- A turn of the second loop: `buf[j]` and `buf[i - 1]` change places. -/
def itoaSwap (s : Itoa) : Itoa :=
  let temp := s.buf.chars s.j
  { s with j := s.j + 1, i := s.i - 1, buf := (s.buf.set s.j (s.buf.chars (s.i - 1))).set (s.i - 1) temp }

/-- `itoa` -/
def itoa (num : BitVec 32) (buf : CharBuf) (radix : BitVec 32) : Comp CharBuf :=
  if num = 0 then pure ((buf.set 0 (chr '0')).set 1 0)
  else do
    let s ← Comp.loop (fun s : Itoa => 0 < s.num) (fun s => pure (itoaDigit radix s)) (itoaSign num buf radix)
    let s ← Comp.loop (fun s : Itoa => s.j < s.i) (fun s => pure (itoaSwap s)) { s with buf := s.buf.set s.i 0 }
    pure s.buf

/-! ## Putting characters -/

/-- `putchar`: what it returns, and the characters that the terminal has got. -/
def putchar (ch : BitVec 32) (out : List (BitVec 8)) : BitVec 32 × List (BitVec 8) :=
  let character : BitVec 8 := ch.setWidth 8
  (character.setWidth 32, out ++ [character])

/-- `print`: whether no character was an `EOF`, and the characters that the terminal has got. -/
def print (data : CharPtr) : Nat → List (BitVec 8) → Bool × List (BitVec 8)
  | 0, out => (true, out)
  | length + 1, out =>
    let (value, out) := putchar ((data 0).setWidth 32) out
    if value = eof then (false, out) else print (data.add 1) length out

/-- `com1_send`, when the line is ready -/
def com1Send (ch : BitVec 8) (out : List (BitVec 8)) : List (BitVec 8) := out ++ [ch]

/-- `log` -/
def log (data : CharPtr) (length : Nat) (out : List (BitVec 8)) : List (BitVec 8) :=
  forRange 0 length (fun i out => com1Send (data i) out) out

/-! ## Arguments -/

/-- A variadic argument: an `int` or an `unsigned long int`, or a string. -/
inductive Arg where
  | word (w : BitVec 32)
  | str (s : CString)

/-- `va_arg(params, int)` and `va_arg(params, unsigned long int)`: nothing when the next argument is not one, which is undefined. -/
def vaWord : List Arg → Option (BitVec 32 × List Arg)
  | .word w :: params => some (w, params)
  | _ => none

/-- `va_arg(params, const char *)` -/
def vaStr : List Arg → Option (CString × List Arg)
  | .str s :: params => some (s, params)
  | _ => none

/-- How a call of a formatter ends: it returns a value, having passed some characters on, or what it does is undefined. -/
inductive Outcome where
  | returned (value : Int) (chars : List (BitVec 8))
  | undefined

/-- The variables of a formatter, and the characters it has passed on. -/
structure Scan where
  formatStr : CharPtr
  params : List Arg
  bytesWritten : Nat
  out : List (BitVec 8)

/-- How a turn of a formatter's loop ends. -/
inductive Flow where
  | next (s : Scan)
  | stop (o : Outcome)

/-- `format_str += n` -/
def Scan.skip (s : Scan) (n : Nat) : Scan := { s with formatStr := s.formatStr.add n }

/-- `*format_str != '\0'`, at the head of a formatter's loop -/
def Flow.goesOn : Flow → Bool
  | .next s => s.formatStr 0 != 0
  | .stop _ => false

/-- `return bytes_written`, after a formatter's loop -/
def Flow.outcome : Flow → Outcome
  | .next s => .returned s.bytesWritten s.out
  | .stop o => o

/-- `size_t subLength = 1; while (format_str[subLength] && format_str[subLength] != '%') subLength++;` -/
def subLength (formatStr : CharPtr) : Comp Nat :=
  Comp.loop (fun n => formatStr n != 0 && formatStr n != chr '%') (fun n => pure (n + 1)) 1

/-! ## `printf` -/

/-- What ends each branch of `printf`: the check for overflow, `print`, and then `bytes_written += len` and `format_str += n`. -/
def printSegment (s : Scan) (data : CharPtr) (len n : Nat) : Flow :=
  let maxRemaining := intMax - s.bytesWritten
  if maxRemaining < len then .stop (.returned (-1) s.out)
  else
    let (ok, out) := print data len s.out
    if ok = false then .stop (.returned (-1) out)
    else .next { s.skip n with bytesWritten := s.bytesWritten + len, out := out }

/-- A turn of the loop of `printf`. The array `str` holds what `stack` says before `itoa` writes it. -/
def printfTurn (stack : CharPtr) (s : Scan) : Comp Flow :=
  if s.formatStr 0 ≠ chr '%' ∨ s.formatStr 1 = chr '%' then do
    let s := if s.formatStr 0 = chr '%' then s.skip 1 else s
    let len ← subLength s.formatStr
    pure (printSegment s s.formatStr len len)
  else
    let s := s.skip 1
    if s.formatStr 0 = chr 'c' then
      match vaWord s.params with
      | none => pure (.stop .undefined)
      | some (w, params) => pure (printSegment { s with params := params } (fun _ => w.setWidth 8) 1 1)
    else if s.formatStr 0 = chr 's' then
      match vaStr s.params with
      | none => pure (.stop .undefined)
      | some (str, params) => do
        let len ← strlen str.ptr
        pure (printSegment { s with params := params } str.ptr len 1)
    else if s.formatStr 0 = chr 'd' then
      match vaWord s.params with
      | none => pure (.stop .undefined)
      | some (num, params) => do
        let str ← itoa num { chars := stack, writes := [] } 10
        let len ← strlen str.chars
        pure (printSegment { s with params := params } str.chars len 1)
    else if s.formatStr 0 = chr 'x' then
      match vaWord s.params with
      | none => pure (.stop .undefined)
      | some (num, params) => do
        let str ← itoa num { chars := stack, writes := [] } 16
        let len ← strlen str.chars
        pure (printSegment { s with params := params } str.chars len 1)
    else if s.formatStr 0 = chr 'o' then
      match vaWord s.params with
      | none => pure (.stop .undefined)
      | some (num, params) => do
        let str ← itoa num { chars := stack, writes := [] } 8
        let len ← strlen str.chars
        pure (printSegment { s with params := params } str.chars len 1)
    else do
      let len ← strlen s.formatStr
      pure (printSegment s s.formatStr len len)

/-- The loop of a formatter, turn by turn, up to its `return`. -/
def scan (turn : Scan → Comp Flow) (s : Scan) : Comp Outcome := do
  let f ← Comp.loop Flow.goesOn (fun f => match f with
    | .next s => turn s
    | .stop o => pure (.stop o)) (.next s)
  pure f.outcome

/-- The variables of a formatter when its loop begins. -/
def Scan.start (formatStr : CharPtr) (params : List Arg) : Scan where
  formatStr := formatStr
  params := params
  bytesWritten := 0
  out := []

/-- `printf` -/
def printf (stack formatStr : CharPtr) (params : List Arg) : Comp Outcome :=
  scan (printfTurn stack) (Scan.start formatStr params)

/-! ## `logf` -/

/-- What ends each branch of `logf`: as in `printf`, with `log`. -/
def logSegment (s : Scan) (data : CharPtr) (len n : Nat) : Flow :=
  let maxRemaining := intMax - s.bytesWritten
  if maxRemaining < len then .stop (.returned (-1) s.out)
  else .next { s.skip n with bytesWritten := s.bytesWritten + len, out := log data len s.out }

/-- A turn of the loop of `logf`. -/
def logfTurn (stack : CharPtr) (s : Scan) : Comp Flow :=
  if s.formatStr 0 ≠ chr '%' ∨ s.formatStr 1 = chr '%' then do
    let s := if s.formatStr 0 = chr '%' then s.skip 1 else s
    let len ← subLength s.formatStr
    pure (logSegment s s.formatStr len len)
  else
    let s := s.skip 1
    if s.formatStr 0 = chr 'c' then
      match vaWord s.params with
      | none => pure (.stop .undefined)
      | some (w, params) => pure (logSegment { s with params := params } (fun _ => w.setWidth 8) 1 1)
    else if s.formatStr 0 = chr 's' then
      match vaStr s.params with
      | none => pure (.stop .undefined)
      | some (str, params) => do
        let len ← strlen str.ptr
        pure (logSegment { s with params := params } str.ptr len 1)
    else if s.formatStr 0 = chr 'd' then
      match vaWord s.params with
      | none => pure (.stop .undefined)
      | some (num, params) => do
        let str ← itoa num { chars := stack, writes := [] } 10
        let len ← strlen str.chars
        pure (logSegment { s with params := params } str.chars len 1)
    else if s.formatStr 0 = chr 'x' then
      match vaWord s.params with
      | none => pure (.stop .undefined)
      | some (num, params) => do
        let str ← itoa num { chars := stack, writes := [] } 16
        let len ← strlen str.chars
        pure (logSegment { s with params := params } str.chars len 1)
    else if s.formatStr 0 = chr 'o' then
      match vaWord s.params with
      | none => pure (.stop .undefined)
      | some (num, params) => do
        let str ← itoa num { chars := stack, writes := [] } 8
        let len ← strlen str.chars
        pure (logSegment { s with params := params } str.chars len 1)
    else do
      let len ← strlen s.formatStr
      pure (logSegment s s.formatStr len len)

/-- `logf` -/
def logf (stack formatStr : CharPtr) (params : List Arg) : Comp Outcome :=
  scan (logfTurn stack) (Scan.start formatStr params)

end LumOS
