import LumOS.Lib.Mem

/-!
# A part of the 80386

The general registers, `eip`, `cs`, `eflags` and a memory of words, with the instructions that an interrupt handler begins and ends
with. Code is a list of instructions, one after the other, and calls routines of which only their effect is known; its run notes the
state at the entry of each routine and before each `iret` (`exec`). The address of the next instruction is the rest of the list, so
`eip` is what `iret` and the return from a routine leave in it. Nothing here changes the privilege level, and the checks of `iret` are
left out.

What the top of the stack holds is `Stacked`. A push puts a word before it (`Stacked.push`), and a routine that follows the calling
convention keeps what it was given (`Cdecl`, `Stacked.keep`).
-/

open Mem

/-- The registers and the memory. -/
structure Machine where
  eax : BitVec 32
  ecx : BitVec 32
  edx : BitVec 32
  ebx : BitVec 32
  esp : BitVec 32
  ebp : BitVec 32
  esi : BitVec 32
  edi : BitVec 32
  eip : BitVec 32
  cs : BitVec 16
  eflags : BitVec 32
  mem : Mem

namespace Machine

/-- `push` -/
def push (m : Machine) (v : BitVec 32) : Machine := { m with esp := m.esp - 4, mem := m.mem.store (m.esp - 4) v }

/-- `pushal`: the general registers, `esp` as it was before. -/
def pushal (m : Machine) : Machine :=
  (((((((m.push m.eax).push m.ecx).push m.edx).push m.ebx).push m.esp).push m.ebp).push m.esi).push m.edi

/-- `popal`: the general registers but `esp`, whose word is skipped. -/
def popal (m : Machine) : Machine :=
  { m with
    edi := m.mem.load (cell m.esp 0)
    esi := m.mem.load (cell m.esp 1)
    ebp := m.mem.load (cell m.esp 2)
    ebx := m.mem.load (cell m.esp 4)
    edx := m.mem.load (cell m.esp 5)
    ecx := m.mem.load (cell m.esp 6)
    eax := m.mem.load (cell m.esp 7)
    esp := m.esp + 32 }

/-- The status flags after an `add`: carry, parity, auxiliary carry, zero, sign and overflow. The other flags stay. -/
def addFlags (eflags a b : BitVec 32) : BitVec 32 :=
  let sum := a + b
  let flag (i : Nat) (set : Bool) : BitVec 32 := if set then BitVec.twoPow 32 i else 0
  let parity := (List.range 8).countP (fun i => sum.getLsbD i) % 2 == 0
  (eflags &&& ~~~0x8D5) ||| flag 0 (decide (2 ^ 32 ≤ a.toNat + b.toNat)) ||| flag 2 parity |||
    flag 4 (decide (16 ≤ a.toNat % 16 + b.toNat % 16)) ||| flag 6 (sum == 0) ||| flag 7 sum.msb |||
    flag 11 (a.msb == b.msb && sum.msb != a.msb)

/-- `add $n, %esp` -/
def addEsp (m : Machine) (n : BitVec 32) : Machine := { m with esp := m.esp + n, eflags := addFlags m.eflags m.esp n }

/-- `iret`, without a change of the privilege level -/
def iret (m : Machine) : Machine :=
  { m with
    eip := m.mem.load (cell m.esp 0)
    cs := (m.mem.load (cell m.esp 1)).setWidth 16
    eflags := m.mem.load (cell m.esp 2)
    esp := m.esp + 12 }

/-- What the processor does before the first instruction of an interrupt gate's code: it pushes the frame, and the error code of those
exceptions that have one, and clears `TF`, `IF`, `NT`, `RF` and `VM`. -/
def interrupt (m : Machine) (selector : BitVec 16) (error : Option (BitVec 32)) : Machine :=
  let frame := ((m.push m.eflags).push (m.cs.setWidth 32)).push m.eip
  let frame := match error with
    | none => frame
    | some code => frame.push code
  { frame with cs := selector, eflags := m.eflags &&& ~~~0x34300 }

/-- The two states have the same general registers, `esp` apart. -/
structure SameRegisters (m m' : Machine) : Prop where
  eax : m'.eax = m.eax
  ecx : m'.ecx = m.ecx
  edx : m'.edx = m.edx
  ebx : m'.ebx = m.ebx
  ebp : m'.ebp = m.ebp
  esi : m'.esi = m.esi
  edi : m'.edi = m.edi

theorem SameRegisters.trans {m m' m'' : Machine} (h : m.SameRegisters m') (h' : m'.SameRegisters m'') : m.SameRegisters m'' :=
  ⟨h'.eax.trans h.eax, h'.ecx.trans h.ecx, h'.edx.trans h.edx, h'.ebx.trans h.ebx, h'.ebp.trans h.ebp, h'.esi.trans h.esi,
    h'.edi.trans h.edi⟩

theorem push_sameRegisters (m : Machine) (v : BitVec 32) : m.SameRegisters (m.push v) := ⟨rfl, rfl, rfl, rfl, rfl, rfl, rfl⟩

theorem interrupt_sameRegisters (m : Machine) (selector : BitVec 16) (error : Option (BitVec 32)) :
    m.SameRegisters (m.interrupt selector error) := by
  have hcs := (push_sameRegisters m m.eflags).trans (push_sameRegisters _ (m.cs.setWidth 32))
  have hframe := hcs.trans (push_sameRegisters _ m.eip)
  cases error with
  | none => exact ⟨hframe.eax, hframe.ecx, hframe.edx, hframe.ebx, hframe.ebp, hframe.esi, hframe.edi⟩
  | some code =>
    have hcode := hframe.trans (push_sameRegisters _ code)
    exact ⟨hcode.eax, hcode.ecx, hcode.edx, hcode.ebx, hcode.ebp, hcode.esi, hcode.edi⟩

/-- The general registers in the order in which they lie on the stack after `pushal`. -/
def general (m : Machine) : List (BitVec 32) := [m.edi, m.esi, m.ebp, m.esp, m.ebx, m.edx, m.ecx, m.eax]

/-- The first arguments of a routine, at its entry: they lie behind the address it returns to. -/
def arguments (m : Machine) (n : Nat) : List (BitVec 32) := (List.range n).map (fun k => m.mem.load (cell (m.esp + 4) k))

end Machine

/-! ## Code -/

/-- An instruction, in a program with routines `ρ`. -/
inductive Instr (ρ : Type) where
  | push (v : BitVec 32)
  | pushal
  | popal
  | call (routine : ρ)
  | addEsp (n : BitVec 32)
  | iret

/-- What code is linked with: the effect of each routine from its entry until it has returned, and the address it is to return to. -/
structure Env (ρ : Type) where
  routine : ρ → Machine → Machine
  next : BitVec 32

/-- What a run notes: the state at the entry of a routine, and that before an `iret`. -/
inductive Event (ρ : Type) where
  | call (routine : ρ) (entry : Machine)
  | iret (last : Machine)

section

variable {ρ : Type}

/-- The state after an instruction. -/
def Instr.step (e : Env ρ) (m : Machine) : Instr ρ → Machine
  | .push v => m.push v
  | .pushal => m.pushal
  | .popal => m.popal
  | .call r => e.routine r (m.push e.next)
  | .addEsp n => m.addEsp n
  | .iret => m.iret

/-- What a run notes at an instruction. -/
def Instr.events (e : Env ρ) (m : Machine) : Instr ρ → List (Event ρ)
  | .call r => [.call r (m.push e.next)]
  | .iret => [.iret m]
  | _ => []

/-- A run of code: the state after it, and what it notes. -/
def exec (e : Env ρ) : List (Instr ρ) → Machine → Machine × List (Event ρ)
  | [], m => (m, [])
  | i :: is, m => ((exec e is (i.step e m)).1, i.events e m ++ (exec e is (i.step e m)).2)

/-- A push goes into the state and notes nothing. -/
theorem exec_push (e : Env ρ) (v : BitVec 32) (is : List (Instr ρ)) (m : Machine) :
    exec e (.push v :: is) m = exec e is (m.push v) := by
  rw [exec]
  rfl

end

/-! ## The stack -/

/-- Memory holds the words from an address on. -/
def Stacked (m : Mem) : BitVec 32 → List (BitVec 32) → Prop
  | _, [] => True
  | a, v :: vs => m.load a = v ∧ Stacked m (a + 4) vs

theorem cell_succ (a : BitVec 32) (k : Nat) : cell a (k + 1) = cell (a + 4) k := by
  rw [Nat.add_comm, cell_add, cell, cell]
  rfl

theorem Stacked.load {m : Mem} {a : BitVec 32} {vs : List (BitVec 32)} (h : Stacked m a vs) {k : Nat} {v : BitVec 32}
    (hk : vs[k]? = some v) : m.load (cell a k) = v := by
  induction vs generalizing a k with
  | nil => cases hk
  | cons w vs ih =>
    cases k with
    | zero =>
      rw [cell_zero, h.1]
      exact Option.some.inj hk
    | succ k =>
      rw [cell_succ]
      exact ih h.2 hk

/-- The words stay when the memory there does. -/
theorem Stacked.keep {m m' : Mem} {a : BitVec 32} {vs : List (BitVec 32)} (h : Stacked m a vs)
    (hkept : ∀ k < vs.length, m'.load (cell a k) = m.load (cell a k)) : Stacked m' a vs := by
  induction vs generalizing a with
  | nil => trivial
  | cons v vs ih =>
    have hfirst := hkept 0 (Nat.zero_lt_succ _)
    rw [cell_zero] at hfirst
    refine ⟨hfirst.trans h.1, ih h.2 ?_⟩
    intro k hk
    rw [← cell_succ]
    exact hkept (k + 1) (Nat.succ_lt_succ hk)

/-- A word pushed. -/
theorem Stacked.push {m : Machine} {vs : List (BitVec 32)} (h : Stacked m.mem m.esp vs) (hlen : vs.length + 1 < cells)
    (v : BitVec 32) : Stacked (m.push v).mem (m.push v).esp (v :: vs) := by
  have hnext : m.esp - 4 + 4 = m.esp := BitVec.sub_add_cancel _ _
  refine ⟨load_store_self _ _ _, ?_⟩
  show Stacked (m.mem.store (m.esp - 4) v) (m.esp - 4 + 4) vs
  rw [hnext]
  refine h.keep ?_
  intro k hk
  have hcell := load_store_cell m.mem (m.esp - 4) v (j := 0) (k := k + 1) (by decide) (by omega)
  rw [cell_zero, cell_succ, hnext, if_neg (Nat.succ_ne_zero k)] at hcell
  exact hcell

/-- The general registers pushed. -/
theorem Stacked.pushal {m : Machine} {vs : List (BitVec 32)} (h : Stacked m.mem m.esp vs) (hlen : vs.length + 8 < cells) :
    Stacked m.pushal.mem m.pushal.esp (m.general ++ vs) := by
  have h1 := h.push (by omega) m.eax
  have h2 := h1.push (by simp only [List.length_cons]; omega) m.ecx
  have h3 := h2.push (by simp only [List.length_cons]; omega) m.edx
  have h4 := h3.push (by simp only [List.length_cons]; omega) m.ebx
  have h5 := h4.push (by simp only [List.length_cons]; omega) m.esp
  have h6 := h5.push (by simp only [List.length_cons]; omega) m.ebp
  have h7 := h6.push (by simp only [List.length_cons]; omega) m.esi
  have h8 := h7.push (by simp only [List.length_cons]; omega) m.edi
  rw [Machine.pushal, Machine.general]
  exact h8

theorem Stacked.drop {m : Mem} {a : BitVec 32} {vs ws : List (BitVec 32)} (h : Stacked m a (vs ++ ws)) :
    Stacked m (cell a vs.length) ws := by
  induction vs generalizing a with
  | nil =>
    rw [List.length_nil, cell_zero]
    exact h
  | cons v vs ih =>
    rw [List.length_cons, cell_succ]
    exact ih h.2

/-- The general registers popped are those pushed. -/
theorem Stacked.popal {m : Machine} {vs : List (BitVec 32)} {m₀ : Machine} (h : Stacked m.mem m.esp (m₀.general ++ vs)) :
    m₀.SameRegisters m.popal :=
  ⟨h.load (k := 7) rfl, h.load (k := 6) rfl, h.load (k := 5) rfl, h.load (k := 4) rfl, h.load (k := 2) rfl, h.load (k := 1) rfl,
    h.load (k := 0) rfl⟩

/-- The arguments of a routine are what lies behind the address it returns to. -/
theorem Stacked.arguments {m : Machine} {v : BitVec 32} {vs ws : List (BitVec 32)} (h : Stacked m.mem m.esp (v :: (vs ++ ws))) :
    m.arguments vs.length = vs := by
  refine List.ext_getElem (by simp [Machine.arguments]) ?_
  intro k hk hk'
  simp only [Machine.arguments, List.getElem_map, List.getElem_range]
  refine h.2.load ?_
  rw [List.getElem?_append_left hk', List.getElem?_eq_getElem hk']

/-! ## The calling convention -/

/-- From a state at its entry a routine returns, pops the address it returns to and nothing else, keeps the registers that belong to
its caller, and leaves the given number of words behind that address as they were. -/
structure Cdecl (f : Machine → Machine) (words : Nat) (m : Machine) : Prop where
  eip : (f m).eip = m.mem.load m.esp
  esp : (f m).esp = m.esp + 4
  ebx : (f m).ebx = m.ebx
  ebp : (f m).ebp = m.ebp
  esi : (f m).esi = m.esi
  edi : (f m).edi = m.edi
  kept : ∀ k < words, (f m).mem.load (cell (m.esp + 4) k) = m.mem.load (cell (m.esp + 4) k)

/-- What lies behind the address a routine returns to is on top of the stack when it has returned. -/
theorem Cdecl.stacked {f : Machine → Machine} {m : Machine} {v : BitVec 32} {vs : List (BitVec 32)}
    (hf : Cdecl f vs.length m) (h : Stacked m.mem m.esp (v :: vs)) : Stacked (f m).mem (f m).esp vs := by
  rw [hf.esp]
  exact h.2.keep hf.kept

/-! ## Interrupts -/

/-- The frame that the processor pushes. -/
def Machine.frame (m : Machine) : List (BitVec 32) := [m.eip, m.cs.setWidth 32, m.eflags]

theorem Machine.interrupt_esp_none (m : Machine) (selector : BitVec 16) : (m.interrupt selector none).esp = m.esp - 12 := by
  show m.esp - 4 - 4 - 4 = m.esp - 12
  bv_omega

theorem Machine.interrupt_esp_some (m : Machine) (selector : BitVec 16) (code : BitVec 32) :
    (m.interrupt selector (some code)).esp = m.esp - 16 := by
  show m.esp - 4 - 4 - 4 - 4 = m.esp - 16
  bv_omega

/-- The frame, and the error code before it. -/
theorem Machine.interrupt_stacked (m : Machine) (selector : BitVec 16) (error : Option (BitVec 32)) :
    Stacked (m.interrupt selector error).mem (m.interrupt selector error).esp (error.toList ++ m.frame) := by
  have h0 : Stacked m.mem m.esp [] := trivial
  have h1 := h0.push (show 1 < cells by decide) m.eflags
  have h2 := h1.push (show 2 < cells by decide) (m.cs.setWidth 32)
  have h3 := h2.push (show 3 < cells by decide) m.eip
  cases error with
  | none => exact h3
  | some code => exact h3.push (show 4 < cells by decide) code

/-- An `iret` that finds the frame on top of the stack returns to where the frame is from. -/
theorem Stacked.iret {m : Machine} {m₀ : Machine} (h : Stacked m.mem m.esp m₀.frame) :
    m.iret.eip = m₀.eip ∧ m.iret.cs = m₀.cs ∧ m.iret.eflags = m₀.eflags := by
  refine ⟨h.load (k := 0) rfl, ?_, h.load (k := 2) rfl⟩
  have hcs : m.mem.load (cell m.esp 1) = m₀.cs.setWidth 32 := h.load (k := 1) rfl
  show (m.mem.load (cell m.esp 1)).setWidth 16 = m₀.cs
  rw [hcs, BitVec.setWidth_setWidth_of_le _ (by decide), BitVec.setWidth_eq]
