import LumOS.Lib.Comp

/-!
# Strings that end with a NUL

A pointer to characters is what memory holds from it on, `CharPtr`. `Spells p s` says that `p` points to the characters `s` and a
NUL after them, and a `CString` is a pointer together with what it points to. A loop that walks over a string up to a character it
stops at, as `strlen` does, is `Spells.returns_walk`.
-/

/-- A pointer to characters: what memory holds from it on. -/
abbrev CharPtr := Nat → BitVec 8

/-- The code of a character. -/
def chr (c : Char) : BitVec 8 := BitVec.ofNat 8 c.toNat

/-- The characters of a string literal. -/
def literal (s : String) : List (BitVec 8) := s.toList.map chr

namespace CharPtr

/-- `p + n` -/
def add (p : CharPtr) (n : Nat) : CharPtr := fun i => p (n + i)

/-- The first `n` characters that `p` points to. -/
def read (p : CharPtr) (n : Nat) : List (BitVec 8) := (List.range n).map p

@[simp] theorem add_apply (p : CharPtr) (n i : Nat) : p.add n i = p (n + i) := rfl

@[simp] theorem add_add (p : CharPtr) (m n : Nat) : (p.add m).add n = p.add (m + n) := by
  funext i
  simp only [add_apply, Nat.add_assoc]

@[simp] theorem add_zero (p : CharPtr) : p.add 0 = p := by
  funext i
  simp only [add_apply, Nat.zero_add]

@[simp] theorem length_read (p : CharPtr) (n : Nat) : (p.read n).length = n := by
  simp only [read, List.length_map, List.length_range]

@[simp] theorem read_zero (p : CharPtr) : p.read 0 = [] := rfl

/-- The first character, and then those after it. -/
theorem read_succ (p : CharPtr) (n : Nat) : p.read (n + 1) = p 0 :: (p.add 1).read n := by
  simp only [read, List.range_succ_eq_map, List.map_cons, List.map_map]
  congr 1
  refine List.map_congr_left ?_
  intro i _
  simp only [Function.comp, add_apply, Nat.succ_eq_add_one, Nat.add_comm]

/-- The first `n` characters, and then one more. -/
theorem read_succ_last (p : CharPtr) (n : Nat) : p.read (n + 1) = p.read n ++ [p n] := by
  simp only [read, List.range_succ, List.map_append, List.map_cons, List.map_nil]

theorem read_add (p : CharPtr) (m n : Nat) : p.read (m + n) = p.read m ++ (p.add m).read n := by
  induction n with
  | zero => simp
  | succ n ih => rw [← Nat.add_assoc, read_succ_last, ih, read_succ_last, add_apply, List.append_assoc]

theorem read_congr {p q : CharPtr} {n : Nat} (h : ∀ i < n, p i = q i) : p.read n = q.read n := by
  refine List.map_congr_left ?_
  intro i hi
  exact h i (List.mem_range.mp hi)

/-- Characters in the opposite order are the reverse. -/
theorem read_reverse {p q : CharPtr} {n : Nat} (h : ∀ i < n, q i = p (n - 1 - i)) : q.read n = (p.read n).reverse := by
  refine List.ext_getElem (by simp) ?_
  intro i hi _
  rw [length_read] at hi
  simp only [read, List.getElem_map, List.getElem_range, List.getElem_reverse, List.length_map, List.length_range]
  exact h i hi

end CharPtr

/-- The pointer points to the characters `s` and a NUL after them. -/
def Spells (p : CharPtr) : List (BitVec 8) → Prop
  | [] => p 0 = 0
  | c :: s => p 0 = c ∧ c ≠ 0 ∧ Spells (p.add 1) s

theorem Spells.read {p : CharPtr} {s : List (BitVec 8)} (h : Spells p s) : p.read s.length = s := by
  induction s generalizing p with
  | nil => rfl
  | cons c s ih =>
    obtain ⟨hc, _, hs⟩ := h
    rw [List.length_cons, CharPtr.read_succ, hc, ih hs]

/-- No character of a string is a NUL. -/
theorem Spells.ne_nul {p : CharPtr} {s : List (BitVec 8)} (h : Spells p s) : ∀ c ∈ s, c ≠ 0 := by
  induction s generalizing p with
  | nil => intro c hc; cases hc
  | cons d s ih =>
    intro c hc
    rcases List.mem_cons.mp hc with rfl | hc
    · exact h.2.1
    · exact ih h.2.2 c hc

/-- A walk over a string may as well not look for the NUL. -/
theorem Spells.takeWhile {p : CharPtr} {s : List (BitVec 8)} (h : Spells p s) (go : BitVec 8 → Bool) :
    s.takeWhile (fun c => c != 0 && go c) = s.takeWhile go := by
  induction s generalizing p with
  | nil => rfl
  | cons c s ih =>
    obtain ⟨_, hc, hs⟩ := h
    have hgo : (c != 0 && go c) = go c := by rw [bne_iff_ne.mpr hc, Bool.true_and]
    simp only [List.takeWhile_cons, hgo, ih hs]

/-- Characters without a NUL, and a NUL after them. -/
theorem spells_of_read {p : CharPtr} {s : List (BitVec 8)} (hread : p.read s.length = s) (hs : ∀ c ∈ s, c ≠ 0)
    (hnul : p s.length = 0) : Spells p s := by
  induction s generalizing p with
  | nil => exact hnul
  | cons c s ih =>
    rw [List.length_cons, CharPtr.read_succ] at hread
    obtain ⟨hc, hrest⟩ := List.cons.inj hread
    refine ⟨hc, hs c (List.mem_cons_self ..), ih hrest (fun d hd => hs d (List.mem_cons_of_mem c hd)) ?_⟩
    rw [CharPtr.add_apply, Nat.add_comm]
    exact hnul

/-- A pointer into a string points to the rest of it. -/
theorem Spells.drop {p : CharPtr} {s : List (BitVec 8)} (h : Spells p s) {n : Nat} (hn : n ≤ s.length) :
    Spells (p.add n) (s.drop n) := by
  induction n generalizing p s with
  | zero => simpa using h
  | succ n ih =>
    cases s with
    | nil => simp at hn
    | cons c s =>
      have := ih h.2.2 (Nat.le_of_succ_le_succ hn)
      rwa [CharPtr.add_add, Nat.add_comm 1 n] at this

/-- The first characters of a string. -/
theorem Spells.read_take {p : CharPtr} {s : List (BitVec 8)} (h : Spells p s) {n : Nat} (hn : n ≤ s.length) :
    p.read n = s.take n := by
  have hrange : (p.read s.length).take n = p.read n := by
    rw [CharPtr.read, ← List.map_take, List.take_range, Nat.min_eq_left hn, CharPtr.read]
  rw [← hrange, h.read]

/-- The loop that moves on over the characters of `go` stops at the first other one, or at the NUL. -/
theorem Spells.returns_walk {p : CharPtr} (go : BitVec 8 → Bool) (hgo : go 0 = false) {s : List (BitVec 8)} {k : Nat}
    (h : Spells (p.add k) s) :
    Comp.Returns (Comp.loop (fun n => go (p n)) (fun n => pure (n + 1)) k) (k + (s.takeWhile go).length) := by
  induction s generalizing k with
  | nil =>
    have hk : p k = 0 := h
    exact Comp.returns_loop_exit (by rw [hk]; exact hgo)
  | cons c s ih =>
    obtain ⟨hc, _, hs⟩ := h
    rw [CharPtr.add_apply, Nat.add_zero] at hc
    rw [CharPtr.add_add] at hs
    by_cases hg : go c = true
    · rw [List.takeWhile_cons_of_pos hg, List.length_cons, Nat.add_comm _ 1, ← Nat.add_assoc]
      exact Comp.returns_loop_turn (by rw [hc]; exact hg) (Comp.returns_pure.mpr rfl) (ih hs)
    · rw [List.takeWhile_cons_of_neg hg]
      exact Comp.returns_loop_exit (by rw [hc]; simpa using hg)

/-- A string: a pointer, and the characters it points to. -/
structure CString where
  ptr : CharPtr
  chars : List (BitVec 8)
  spells : Spells ptr chars

/-- The string with given characters, in a memory that holds nothing after it. -/
def CString.ofChars (s : List (BitVec 8)) (h : ∀ c ∈ s, c ≠ 0) : CString where
  ptr i := s.getD i 0
  chars := s
  spells := by
    refine spells_of_read ?_ h (by simp)
    refine List.ext_getElem (by simp) ?_
    intro i hi _
    rw [CharPtr.length_read] at hi
    simp [CharPtr.read, hi]
