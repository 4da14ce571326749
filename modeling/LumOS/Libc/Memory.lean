import LumOS.Libc.Memmove

/-!
# `memcpy`, `memset` and `memcmp`

`memcpy.c`, `memset.c` and `memcmp.c`, each as its loop is written. `memcpy` copies from the first byte on whatever the ranges are, so when
the destination begins within the source it reads what it has written: the bytes before the destination are repeated (`Bytes.repeated`).
On all other ranges, and on no such ones, it does what `memmove` does (`memcpy_agrees_iff`); its `restrict` leaves such ranges to the
caller. `memset` fills its range (`memset_filled`), and `memcmp` compares in the order of a dictionary (`memcmp_lexicographic`).
-/

namespace LumOS

open Comp Bytes

/-! ## `memcpy` -/

/-- `memcpy`: the memory it leaves, and what it returns. A turn of its loop is one of that of `memmove` upwards. -/
def memcpy (m : Bytes 32) (dest src size : BitVec 32) : Comp (Bytes 32 × BitVec 32) := do
  let s ← loop (fun s : Memmove => s.i < size) (fun s => pure (memmoveUp dest src s)) { mem := m, i := 0 }
  return (s.mem, dest)

/-- A loop that counts `i` up to `size` has what its turns have made of the memory when it ends. -/
theorem upwards {turn : Memmove → Memmove} {mem : Nat → Bytes 32} {m : Bytes 32} (size : BitVec 32)
    (hi : ∀ s, (turn s).i = s.i + 1) (hmem : ∀ s, s.mem = mem s.i.toNat → (turn s).mem = mem (s.i.toNat + 1)) (h0 : m = mem 0) :
    ∃ s : Memmove, Returns (loop (fun s => s.i < size) (fun s => pure (turn s)) { mem := m, i := 0 }) s ∧ s.mem = mem size.toNat := by
  have hsize := size.isLt
  have hbody : ∀ s : Memmove, (s.i.toNat ≤ size.toNat ∧ s.mem = mem s.i.toNat) → decide (s.i < size) = true →
      Ensures (pure (turn s)) (fun t : Memmove => (t.i.toNat ≤ size.toNat ∧ t.mem = mem t.i.toNat) ∧
        size.toNat - t.i.toNat < size.toNat - s.i.toNat) := by
    rintro s ⟨-, hs⟩ hlt
    rw [decide_eq_true_eq, BitVec.lt_def] at hlt
    have hnext : (turn s).i.toNat = s.i.toNat + 1 := by
      have hone : (1 : BitVec 32).toNat = 1 := rfl
      rw [hi, BitVec.toNat_add]
      omega
    refine ensures_pure ⟨⟨by omega, ?_⟩, by omega⟩
    rw [hnext, hmem s hs]
  obtain ⟨s, hloop, ⟨hle, hs⟩, hend⟩ := ensures_loop _ _ hbody (s := { mem := m, i := 0 }) ⟨Nat.zero_le _, h0⟩
  rw [decide_eq_false_iff_not, BitVec.lt_def] at hend
  rw [Nat.le_antisymm hle (Nat.le_of_not_lt hend)] at hs
  exact ⟨s, hloop, hs⟩

section

variable {m : Bytes 32} {dest src size : BitVec 32}

/-- What `memcpy` leaves. -/
theorem memcpy_repeated (m : Bytes 32) (dest src size : BitVec 32) :
    Returns (memcpy m dest src size) (m.repeated dest src size.toNat, dest) := by
  have hturn : ∀ s : Memmove, s.mem = m.repeated dest src s.i.toNat →
      (memmoveUp dest src s).mem = m.repeated dest src (s.i.toNat + 1) := by
    intro s hmem
    show s.mem.store (dest + s.i) (s.mem.load (src + s.i)) = _
    rw [hmem, repeated_store]
  have hfirst : m = m.repeated dest src 0 := funext (fun a => (if_neg (Nat.not_lt_zero _)).symm)
  obtain ⟨s, hloop, hmem⟩ := upwards size (fun _ => rfl) hturn hfirst
  exact returns_bind.mpr ⟨s, hloop, returns_pure.mpr (by rw [hmem])⟩

/-- A memory with one byte that is not zero. -/
def marked (a : BitVec 32) : Bytes 32 := fun b => if b = a then 1 else 0

/-- For ranges that do not wrap, `memcpy` does what `memmove` does, whatever the memory holds, exactly when the destination does not begin
within the source, or where it begins. -/
theorem memcpy_agrees_iff (dest src size : BitVec 32) (hdest : dest.toNat + size.toNat ≤ 2 ^ 32)
    (hsrc : src.toNat + size.toNat ≤ 2 ^ 32) :
    (∀ m r, Returns (memcpy m dest src size) r ↔ Returns (memmove m dest src size) r) ↔
      ¬(src.toNat < dest.toNat ∧ dest.toNat < src.toNat + size.toNat) := by
  have hpair : ∀ m, (∀ r, Returns (memcpy m dest src size) r ↔ Returns (memmove m dest src size) r) ↔
      repeated m dest src size.toNat = m.copied dest src 0 size.toNat := by
    intro m
    have hcpy := memcpy_repeated m dest src size
    have hmove := memmove_copied (m := m) hdest hsrc
    constructor
    · intro h
      exact congrArg Prod.fst (((h _).mp hcpy).unique hmove)
    · intro h r
      rw [h] at hcpy
      exact ⟨fun hr => hcpy.unique hr ▸ hmove, fun hr => hmove.unique hr ▸ hcpy⟩
  have hdist : offset src dest = (dest - src).toNat := rfl
  simp only [hpair]
  constructor
  · rintro h ⟨hlow, hhigh⟩
    -- a memory that tells the first byte of the source from the one that is copied to where the first one goes
    have hd : offset src dest = dest.toNat - src.toNat := offset_of_le (BitVec.le_def.mpr (by omega))
    have hin : (dest - src).toNat < size.toNat := by
      rw [← hdist, hd]
      omega
    have hsecond : src + (dest - src) ≠ src := by
      intro he
      bv_omega
    have hat := congrArg (fun m : Bytes 32 => m.load (dest + (dest - src))) (h (marked src))
    simp only [repeated_of_mem hin, copied_of_mem (Nat.zero_le _) hin, hdist, Nat.mod_self] at hat
    rw [load, load, marked, marked, if_neg hsecond, BitVec.add_zero, if_pos rfl] at hat
    exact absurd hat (by decide)
  · intro h m
    refine repeated_eq_copied ?_
    rw [hdist]
    bv_omega

/-- Two bytes to the second of them. -/
theorem memcpy_agrees_iff_up : ¬∀ m r, Returns (memcpy m 0x101 0x100 2) r ↔ Returns (memmove m 0x101 0x100 2) r := by
  rw [memcpy_agrees_iff 0x101 0x100 2 (by decide) (by decide)]
  decide

end

/-! ## `memset` -/

/-- A turn of the loop of `memset`: `buf_ptr[i] = (unsigned char)val`, and `i++` -/
def memsetTurn (buf : BitVec 32) (val : Int) (s : Memmove) : Memmove where
  mem := s.mem.store (buf + s.i) (BitVec.ofInt 8 val)
  i := s.i + 1

/-- `memset`: the memory it leaves, and what it returns. -/
def memset (m : Bytes 32) (buf : BitVec 32) (val : Int) (size : BitVec 32) : Comp (Bytes 32 × BitVec 32) := do
  let s ← loop (fun s : Memmove => s.i < size) (fun s => pure (memsetTurn buf val s)) { mem := m, i := 0 }
  return (s.mem, buf)

/-- What `memset` leaves. -/
theorem memset_filled (m : Bytes 32) (buf : BitVec 32) (val : Int) (size : BitVec 32) :
    Returns (memset m buf val size) (m.filled buf (BitVec.ofInt 8 val) size.toNat, buf) := by
  have hturn : ∀ s : Memmove, s.mem = m.filled buf (BitVec.ofInt 8 val) s.i.toNat →
      (memsetTurn buf val s).mem = m.filled buf (BitVec.ofInt 8 val) (s.i.toNat + 1) := by
    intro s hmem
    show s.mem.store (buf + s.i) (BitVec.ofInt 8 val) = _
    rw [hmem, filled_store]
  have hfirst : m = m.filled buf (BitVec.ofInt 8 val) 0 := funext (fun a => (if_neg (Nat.not_lt_zero _)).symm)
  obtain ⟨s, hloop, hmem⟩ := upwards size (fun _ => rfl) hturn hfirst
  exact returns_bind.mpr ⟨s, hloop, returns_pure.mpr (by rw [hmem])⟩

/-! ## `memcmp` -/

/-- The variables of `memcmp` that change, and what it has returned. -/
structure Memcmp where
  i : BitVec 32
  result : Option Int

/-- A turn of the loop of `memcmp`. -/
def memcmpTurn (m : Bytes 32) (memA memB : BitVec 32) (s : Memcmp) : Memcmp :=
  if m.load (memA + s.i) < m.load (memB + s.i) then { s with result := some (-1) }
  else if m.load (memB + s.i) < m.load (memA + s.i) then { s with result := some 1 }
  else { s with i := s.i + 1 }

/-- `memcmp` -/
def memcmp (m : Bytes 32) (memA memB size : BitVec 32) : Comp Int := do
  let s ← loop (fun s : Memcmp => s.result.isNone && decide (s.i < size)) (fun s => pure (memcmpTurn m memA memB s))
    { i := 0, result := none }
  return s.result.getD 0

section

variable {m : Bytes 32} {memA memB size : BitVec 32}

/-- The bytes below `i` are the same, and once `memcmp` has returned those at `i` are in the order that it has returned. -/
structure Memcmp.Inv (m : Bytes 32) (memA memB size : BitVec 32) (s : Memcmp) : Prop where
  le : s.i.toNat ≤ size.toNat
  same : ∀ j < s.i.toNat, m.load (memA + BitVec.ofNat 32 j) = m.load (memB + BitVec.ofNat 32 j)
  differ : ∀ r, s.result = some r → s.i.toNat < size.toNat ∧
    (r = -1 ∧ m.load (memA + s.i) < m.load (memB + s.i) ∨ r = 1 ∧ m.load (memB + s.i) < m.load (memA + s.i))

/-- What is left to do. -/
def Memcmp.left (size : BitVec 32) (s : Memcmp) : Nat := size.toNat - s.i.toNat + if s.result.isNone then 1 else 0

theorem memcmpTurn_inv {s : Memcmp} (hs : s.Inv m memA memB size) (hnone : s.result = none) (hi : s.i.toNat < size.toNat) :
    (memcmpTurn m memA memB s).Inv m memA memB size ∧ (memcmpTurn m memA memB s).left size < s.left size := by
  have hsize := size.isLt
  have hnext : (s.i + 1).toNat = s.i.toNat + 1 := by
    have hone : (1 : BitVec 32).toNat = 1 := rfl
    rw [BitVec.toNat_add]
    omega
  unfold memcmpTurn
  split
  next hlt =>
    refine ⟨⟨hs.le, hs.same, ?_⟩, by simp [Memcmp.left, hnone]⟩
    rintro r ⟨rfl⟩
    exact ⟨hi, .inl ⟨rfl, hlt⟩⟩
  next hge =>
    split
    next hgt =>
      refine ⟨⟨hs.le, hs.same, ?_⟩, by simp [Memcmp.left, hnone]⟩
      rintro r ⟨rfl⟩
      exact ⟨hi, .inr ⟨rfl, hgt⟩⟩
    next hle =>
      have hat : m.load (memA + s.i) = m.load (memB + s.i) := BitVec.le_antisymm (BitVec.not_lt.mp hle) (BitVec.not_lt.mp hge)
      refine ⟨⟨?_, ?_, ?_⟩, ?_⟩
      · show (s.i + 1).toNat ≤ size.toNat
        omega
      · intro j hj
        by_cases h : j < s.i.toNat
        · exact hs.same j h
        · have hlast : j = s.i.toNat := by
            change j < (s.i + 1).toNat at hj
            omega
          rw [hlast, BitVec.ofNat_toNat, BitVec.setWidth_eq, hat]
      · intro r hr
        rw [show s.result = some r from hr] at hnone
        cases hnone
      · rw [Memcmp.left, Memcmp.left]
        show size.toNat - (s.i + 1).toNat + (if s.result.isNone then 1 else 0) < _
        omega

/-- `memcmp` returns the sign of the order of the two strings of bytes in a dictionary, whatever they are. -/
theorem memcmp_lexicographic (m : Bytes 32) (memA memB size : BitVec 32) :
    ∃ r, Returns (memcmp m memA memB size) r ∧ (r < 0 ↔ m.bytes memA size.toNat < m.bytes memB size.toNat) ∧
      (r = 0 ↔ m.bytes memA size.toNat = m.bytes memB size.toNat) ∧
      (0 < r ↔ m.bytes memB size.toNat < m.bytes memA size.toNat) := by
  have hbody : ∀ s : Memcmp, s.Inv m memA memB size → (s.result.isNone && decide (s.i < size)) = true →
      Ensures (pure (memcmpTurn m memA memB s)) (fun t => t.Inv m memA memB size ∧ t.left size < s.left size) := by
    intro s hs hgo
    rw [Bool.and_eq_true, Option.isNone_iff_eq_none, decide_eq_true_eq, BitVec.lt_def] at hgo
    exact ensures_pure (memcmpTurn_inv hs hgo.1 hgo.2)
  have hfirst : Memcmp.Inv m memA memB size { i := 0, result := none } :=
    ⟨Nat.zero_le _, fun j hj => absurd hj (Nat.not_lt_zero j), fun r hr => by cases hr⟩
  obtain ⟨s, hloop, hs, hend⟩ := ensures_loop _ _ hbody hfirst
  refine ⟨s.result.getD 0, returns_bind.mpr ⟨s, hloop, returns_pure.mpr rfl⟩, ?_⟩
  have hat : s.i = BitVec.ofNat 32 s.i.toNat := by rw [BitVec.ofNat_toNat, BitVec.setWidth_eq]
  cases hr : s.result with
  | none =>
    rw [hr, Option.isNone_none, Bool.true_and, decide_eq_false_iff_not, BitVec.lt_def] at hend
    have heq : m.bytes memA size.toNat = m.bytes memB size.toNat :=
      bytes_eq_iff.mpr (fun j hj => hs.same j (by omega))
    simp [heq, List.lt_irrefl]
  | some r =>
    obtain ⟨hi, ⟨rfl, hlt⟩ | ⟨rfl, hlt⟩⟩ := hs.differ r hr
    · have hlex : m.bytes memA size.toNat < m.bytes memB size.toNat := bytes_lt_iff.mpr ⟨s.i.toNat, hi, hs.same, hat ▸ hlt⟩
      exact ⟨iff_of_true (by decide) hlex, iff_of_false (by decide) (fun he => List.lt_irrefl _ (he ▸ hlex)),
        iff_of_false (by decide) (List.lt_asymm hlex)⟩
    · have hlex : m.bytes memB size.toNat < m.bytes memA size.toNat :=
        bytes_lt_iff.mpr ⟨s.i.toNat, hi, fun j hj => (hs.same j hj).symm, hat ▸ hlt⟩
      exact ⟨iff_of_false (by decide) (List.lt_asymm hlex), iff_of_false (by decide) (fun he => List.lt_irrefl _ (he ▸ hlex)),
        iff_of_true (by decide) hlex⟩

end

end LumOS
