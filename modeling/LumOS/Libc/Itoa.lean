import LumOS.Libc.Basic
import Mathlib.Data.Nat.Digits.Defs

/-!
# Numerals

`itoa` writes the numeral of a number (`itoa_spec`). Its first loop leaves the digits with the lowest first, after a sign, which is
the invariant `Digits` with the digits so far as a list; its second loop turns them round in place, by the invariant `Swapped`.
-/

namespace LumOS

/-- The character of a digit, in upper case from ten on. -/
def digitChar (d : Nat) : BitVec 8 := if 9 < d then chr 'A' + BitVec.ofNat 8 (d - 10) else chr '0' + BitVec.ofNat 8 d

/-- The numeral of `n`, with its highest digit first. -/
def numeral (radix n : Nat) : List (BitVec 8) :=
  if n = 0 then [chr '0'] else ((Nat.digits radix n).map digitChar).reverse

/-- The numeral that `itoa` writes: a signed one in radix ten, an unsigned one in any other. -/
def itoaText (radix : Nat) (num : BitVec 32) : List (BitVec 8) :=
  if radix = 10 ∧ num.toInt < 0 then chr '-' :: numeral radix num.toInt.natAbs else numeral radix num.toNat

/-! ## Digits -/

theorem itoaChar_eq {digit : BitVec 32} (h : digit.toNat < 36) : itoaChar digit = digitChar digit.toNat := by
  have hlt : (digit > 9) ↔ 9 < digit.toNat := by simp [BitVec.lt_def]
  apply BitVec.eq_of_toNat_eq
  by_cases hd : 9 < digit.toNat
  · simp only [itoaChar, digitChar, if_pos (hlt.mpr hd), if_pos hd, chr]
    simp
    omega
  · simp only [itoaChar, digitChar, if_neg (mt hlt.mp hd), if_neg hd, chr]
    simp
    omega

theorem digitChar_ne_nul {d : Nat} (h : d < 36) : digitChar d ≠ 0 := by
  intro hz
  have := congrArg BitVec.toNat hz
  revert this
  simp only [digitChar, chr]
  split <;> simp <;> omega

/-- A digit of a radix up to 36 has a character. -/
theorem digits_lt {radix n d : Nat} (h2 : 2 ≤ radix) (h36 : radix ≤ 36) (hd : d ∈ Nat.digits radix n) : d < 36 :=
  Nat.lt_of_lt_of_le (Nat.digits_lt_base h2 hd) h36

theorem numeral_ne_nul {radix n : Nat} (h2 : 2 ≤ radix) (h36 : radix ≤ 36) : ∀ c ∈ numeral radix n, c ≠ 0 := by
  intro c hc
  unfold numeral at hc
  split at hc
  · rw [List.mem_singleton.mp hc]
    decide
  · obtain ⟨d, hd, rfl⟩ := List.mem_map.mp (List.mem_reverse.mp hc)
    exact digitChar_ne_nul (digits_lt h2 h36 hd)

theorem itoaText_ne_nul {radix : Nat} (num : BitVec 32) (h2 : 2 ≤ radix) (h36 : radix ≤ 36) :
    ∀ c ∈ itoaText radix num, c ≠ 0 := by
  intro c hc
  unfold itoaText at hc
  split at hc
  · rcases List.mem_cons.mp hc with rfl | hc
    · decide
    · exact numeral_ne_nul h2 h36 c hc
  · exact numeral_ne_nul h2 h36 c hc

/-! ## Writing to the array -/

namespace CharBuf

@[simp] theorem set_chars (buf : CharBuf) (i k : Nat) (c : BitVec 8) :
    (buf.set i c).chars k = if k = i then c else buf.chars k := rfl

@[simp] theorem mem_set_writes {buf : CharBuf} {i k : Nat} {c : BitVec 8} :
    k ∈ (buf.set i c).writes ↔ k = i ∨ k ∈ buf.writes := List.mem_cons

/-- A character written after those at `lo` and up. -/
theorem read_set (buf : CharBuf) (lo n : Nat) (c : BitVec 8) :
    ((buf.set (lo + n) c).chars.add lo).read (n + 1) = (buf.chars.add lo).read n ++ [c] := by
  rw [CharPtr.read_succ_last]
  congr 1
  · refine CharPtr.read_congr ?_
    intro i hi
    simp [Nat.ne_of_lt hi]
  · simp

end CharBuf

/-! ## The first loop -/

/-- The digits `ds` stand from `lo` on, the lowest first, and the number still to be written has the other digits of `n`. -/
structure Digits (radix lo n : Nat) (buf : CharBuf) (ds : List Nat) (s : Itoa) : Prop where
  i : s.i = lo + ds.length
  j : s.j = lo
  digits : ds ++ Nat.digits radix s.num.toNat = Nat.digits radix n
  written : (s.buf.chars.add lo).read ds.length = ds.map digitChar
  below : ∀ k < lo, s.buf.chars k = buf.chars k
  writes : ∀ k ∈ s.buf.writes, k ∈ buf.writes ∨ k < s.i

theorem Digits.turn {radix : BitVec 32} {lo n : Nat} {buf : CharBuf} {ds : List Nat} {s : Itoa} (h2 : 2 ≤ radix.toNat)
    (h36 : radix.toNat ≤ 36) (h : Digits radix.toNat lo n buf ds s) (hpos : 0 < s.num.toNat) :
    Digits radix.toNat lo n buf (ds ++ [s.num.toNat % radix.toNat]) (itoaDigit radix s) where
  i := by
    simp only [itoaDigit, List.length_append, List.length_singleton]
    rw [h.i, Nat.add_assoc]
  j := h.j
  digits := by
    rw [← h.digits, Nat.digits_def' h2 hpos, List.append_assoc]
    simp [itoaDigit]
  written := by
    have hmod : (s.num % radix).toNat < 36 := by
      rw [BitVec.toNat_umod]
      exact Nat.lt_of_lt_of_le (Nat.mod_lt _ (by omega)) h36
    simp only [itoaDigit, List.length_append, List.length_singleton, List.map_append, List.map_cons, List.map_nil]
    rw [h.i, CharBuf.read_set, h.written, itoaChar_eq hmod, BitVec.toNat_umod]
  below := by
    intro k hk
    have : k ≠ s.i := by have := h.i; omega
    simp only [itoaDigit, CharBuf.set_chars, if_neg this]
    exact h.below k hk
  writes := by
    intro k hk
    simp only [itoaDigit, CharBuf.mem_set_writes] at hk ⊢
    rcases hk with rfl | hk
    · exact Or.inr (Nat.lt_succ_self _)
    · exact (h.writes k hk).imp_right Nat.lt_succ_of_lt

/-- The first loop writes every digit. -/
theorem ensures_digits {radix : BitVec 32} {lo : Nat} {s : Itoa} (h2 : 2 ≤ radix.toNat) (h36 : radix.toNat ≤ 36)
    (hi : s.i = lo) (hj : s.j = lo) :
    Comp.Ensures (Comp.loop (fun s : Itoa => 0 < s.num) (fun s => pure (itoaDigit radix s)) s)
      (Digits radix.toNat lo s.num.toNat s.buf (Nat.digits radix.toNat s.num.toNat)) := by
  have hstart : Digits radix.toNat lo s.num.toNat s.buf [] s :=
    { i := hi, j := hj, digits := rfl, written := rfl, below := fun _ _ => rfl, writes := fun _ hk => Or.inl hk }
  refine (Comp.ensures_loop (fun t => ∃ ds, Digits radix.toNat lo s.num.toNat s.buf ds t) (fun t => t.num.toNat) ?_
    ⟨[], hstart⟩).imp ?_
  · rintro t ⟨ds, ht⟩ hc
    have hpos : 0 < t.num.toNat := by simpa [BitVec.lt_def] using hc
    refine Comp.ensures_pure ⟨⟨_, ht.turn h2 h36 hpos⟩, ?_⟩
    simp only [itoaDigit, BitVec.toNat_udiv]
    exact Nat.div_lt_self hpos h2
  · rintro t ⟨⟨ds, ht⟩, hc⟩
    have hz : t.num.toNat = 0 := by simpa [BitVec.lt_def] using hc
    have hds := ht.digits
    rw [hz, Nat.digits_zero, List.append_nil] at hds
    rwa [hds] at ht

/-! ## The second loop -/

/-- Up to `j` and from `i` on, what stood from `lo` to `hi` in `buf` has been turned round. -/
structure Swapped (lo hi : Nat) (buf : CharBuf) (s : Itoa) : Prop where
  meet : s.i + s.j = lo + hi
  lo_le : lo ≤ s.j
  swapped : ∀ k, lo ≤ k → k < hi → (k < s.j ∨ s.i ≤ k) → s.buf.chars k = buf.chars (lo + hi - 1 - k)
  kept : ∀ k, k < lo ∨ hi ≤ k ∨ s.j ≤ k ∧ k < s.i → s.buf.chars k = buf.chars k
  writes : ∀ k ∈ s.buf.writes, k ∈ buf.writes ∨ k < hi

theorem Swapped.turn {lo hi : Nat} {buf : CharBuf} {s : Itoa} (h : Swapped lo hi buf s) (hlt : s.j < s.i) :
    Swapped lo hi buf (itoaSwap s) := by
  have hmeet := h.meet
  have hlo := h.lo_le
  have hj : s.buf.chars s.j = buf.chars s.j := h.kept s.j (Or.inr (Or.inr ⟨Nat.le_refl _, hlt⟩))
  have hi : s.buf.chars (s.i - 1) = buf.chars (s.i - 1) := h.kept (s.i - 1) (by omega)
  refine ⟨?_, ?_, ?_, ?_, ?_⟩
  · simp only [itoaSwap]
    omega
  · simp only [itoaSwap]
    omega
  · intro k hk1 hk2 hk
    simp only [itoaSwap, CharBuf.set_chars] at hk ⊢
    by_cases hki : k = s.i - 1
    · rw [if_pos hki, hj]
      congr 1
      omega
    · by_cases hkj : k = s.j
      · rw [if_neg hki, if_pos hkj, hi]
        congr 1
        omega
      · rw [if_neg hki, if_neg hkj]
        exact h.swapped k hk1 hk2 (by omega)
  · intro k hk
    simp only [itoaSwap, CharBuf.set_chars] at hk ⊢
    rw [if_neg (by omega), if_neg (by omega)]
    exact h.kept k (by omega)
  · intro k hk
    simp only [itoaSwap, CharBuf.mem_set_writes] at hk
    rcases hk with rfl | rfl | hk
    · right
      omega
    · right
      omega
    · exact h.writes k hk

/-- The second loop turns round what stands between `j` and `i`. -/
theorem ensures_swaps (s : Itoa) :
    Comp.Ensures (Comp.loop (fun s : Itoa => s.j < s.i) (fun s => pure (itoaSwap s)) s)
      (fun t => Swapped s.j s.i s.buf t ∧ t.i ≤ t.j) := by
  have hstart : Swapped s.j s.i s.buf s :=
    { meet := Nat.add_comm _ _
      lo_le := Nat.le_refl _
      swapped := by intro k hk1 hk2 hk; omega
      kept := fun _ _ => rfl
      writes := fun _ hk => Or.inl hk }
  refine (Comp.ensures_loop (Swapped s.j s.i s.buf) (fun t => t.i - t.j) ?_ hstart).imp ?_
  · intro t ht hc
    have hlt : t.j < t.i := by simpa using hc
    refine Comp.ensures_pure ⟨ht.turn hlt, ?_⟩
    simp only [itoaSwap]
    omega
  · rintro t ⟨ht, hc⟩
    exact ⟨ht, by simpa using hc⟩

/-- When the loop is over, everything has been turned round. -/
theorem Swapped.read {lo n : Nat} {buf : CharBuf} {s : Itoa} (h : Swapped lo (lo + n) buf s) (hle : s.i ≤ s.j) :
    (s.buf.chars.add lo).read n = ((buf.chars.add lo).read n).reverse := by
  refine CharPtr.read_reverse ?_
  intro k hk
  simp only [CharPtr.add_apply]
  have hmid : lo + k < s.j ∨ s.i ≤ lo + k := Or.imp_right (Nat.le_trans hle) (Nat.lt_or_ge (lo + k) s.j)
  rw [h.swapped (lo + k) (by omega) (by omega) hmid]
  congr 1
  omega

/-- What both loops leave behind: what stood below `lo`, the digits with the highest first, and a NUL. -/
theorem Digits.turned {radix lo n : Nat} {buf : CharBuf} {ds : List Nat} {s t : Itoa} (hs : Digits radix lo n buf ds s)
    (ht : Swapped lo (lo + ds.length) (s.buf.set (lo + ds.length) 0) t) (hle : t.i ≤ t.j) :
    t.buf.chars.read (lo + ds.length) = buf.chars.read lo ++ (ds.map digitChar).reverse ∧ t.buf.chars (lo + ds.length) = 0 ∧
      ∀ k ∈ t.buf.writes, k ∈ buf.writes ∨ k ≤ lo + ds.length := by
  refine ⟨?_, ?_, ?_⟩
  · have hbelow : t.buf.chars.read lo = buf.chars.read lo := by
      refine CharPtr.read_congr ?_
      intro k hk
      rw [ht.kept k (Or.inl hk), CharBuf.set_chars, if_neg (by omega), hs.below k hk]
    have hdigits : ((s.buf.set (lo + ds.length) 0).chars.add lo).read ds.length = ds.map digitChar := by
      rw [← hs.written]
      refine CharPtr.read_congr ?_
      intro k hk
      rw [CharPtr.add_apply, CharBuf.set_chars, if_neg (by omega), CharPtr.add_apply]
    rw [CharPtr.read_add, hbelow, ht.read hle, hdigits]
  · rw [ht.kept _ (Or.inr (Or.inl (Nat.le_refl _))), CharBuf.set_chars, if_pos rfl]
  · intro k hk
    rcases ht.writes k hk with hk | hk
    · rcases CharBuf.mem_set_writes.mp hk with rfl | hk
      · exact Or.inr (Nat.le_refl _)
      · refine (hs.writes k hk).imp_right ?_
        rw [hs.i]
        exact Nat.le_of_lt
    · exact Or.inr (Nat.le_of_lt hk)

/-! ## The whole numeral -/

/-- The negation of a negative number is its absolute value, also that of the lowest one. -/
theorem toNat_neg_of_neg {num : BitVec 32} (h : num.toInt < 0) : (0 - num).toNat = num.toInt.natAbs := by
  have hlt := num.isLt
  have hzero : (0 : BitVec 32).toNat = 0 := rfl
  rw [BitVec.toInt_eq_toNat_cond] at h ⊢
  rw [BitVec.toNat_sub, hzero]
  split at h <;> split <;> omega

/-- What the first loop starts from: the sign is written, and the number left is the one its numeral has. -/
structure Signed (radix : Nat) (num : BitVec 32) (buf : CharBuf) (sign : List (BitVec 8)) (s : Itoa) : Prop where
  i : s.i = sign.length
  j : s.j = sign.length
  chars : s.buf.chars.read sign.length = sign
  nonzero : s.num.toNat ≠ 0
  text : itoaText radix num = sign ++ numeral radix s.num.toNat
  writes : ∀ k ∈ s.buf.writes, k ∈ buf.writes ∨ k < sign.length

theorem itoaSign_spec {num : BitVec 32} (hnum : num ≠ 0) (buf : CharBuf) (radix : BitVec 32) :
    ∃ sign, Signed radix.toNat num buf sign (itoaSign num buf radix) := by
  have hz : num.toNat ≠ 0 := fun h => hnum (BitVec.eq_of_toNat_eq h)
  have hradix : radix = 10 ↔ radix.toNat = 10 := ⟨fun h => by rw [h]; rfl, fun h => BitVec.eq_of_toNat_eq h⟩
  by_cases hneg : radix = 10 ∧ num.toInt < 0
  · have habs := toNat_neg_of_neg hneg.2
    have hne := hneg.2
    rw [itoaSign, if_pos hneg]
    refine ⟨[chr '-'], rfl, rfl, ?_, ?_, ?_, ?_⟩
    · simp [CharPtr.read]
    · simp only [habs]
      omega
    · simp only [habs, itoaText, if_pos (And.imp_left hradix.mp hneg), List.singleton_append]
    · intro k hk
      rcases CharBuf.mem_set_writes.mp hk with rfl | hk
      · exact Or.inr Nat.zero_lt_one
      · exact Or.inl hk
  · rw [itoaSign, if_neg hneg]
    refine ⟨[], rfl, rfl, rfl, hz, ?_, fun _ hk => Or.inl hk⟩
    rw [itoaText, if_neg (mt (And.imp_left hradix.mpr) hneg), List.nil_append]

/-- `itoa` returns, the array has the numeral and a NUL after it, and no index past the NUL's has been written. -/
theorem itoa_spec (num : BitVec 32) (buf : CharBuf) {radix : BitVec 32} (h2 : 2 ≤ radix.toNat) (h36 : radix.toNat ≤ 36) :
    Comp.Ensures (itoa num buf radix) (fun b => Spells b.chars (itoaText radix.toNat num) ∧
      ∀ k ∈ b.writes, k ∈ buf.writes ∨ k ≤ (itoaText radix.toNat num).length) := by
  unfold itoa
  split
  · rename_i hz
    have htext : itoaText radix.toNat num = [chr '0'] := by simp [itoaText, numeral, hz]
    rw [htext]
    refine Comp.ensures_pure ⟨⟨rfl, by decide, rfl⟩, ?_⟩
    intro k hk
    simp only [CharBuf.mem_set_writes] at hk
    rcases hk with rfl | rfl | hk
    · exact Or.inr (Nat.le_refl _)
    · exact Or.inr (Nat.zero_le _)
    · exact Or.inl hk
  · rename_i hnum
    obtain ⟨sign, hsign⟩ := itoaSign_spec hnum buf radix
    generalize itoaSign num buf radix = s at hsign ⊢
    have hlen : (itoaText radix.toNat num).length = sign.length + (Nat.digits radix.toNat s.num.toNat).length := by
      simp [hsign.text, numeral, hsign.nonzero]
    refine (ensures_digits h2 h36 hsign.i hsign.j).bind ?_
    intro t ht
    refine (ensures_swaps { t with buf := t.buf.set t.i 0 }).bind ?_
    rintro u ⟨hu, hle⟩
    simp only [ht.j, ht.i] at hu
    obtain ⟨hread, hnul, hwrites⟩ := ht.turned hu hle
    rw [← hlen] at hread hnul hwrites
    refine Comp.ensures_pure ⟨spells_of_read ?_ (itoaText_ne_nul num h2 h36) hnul, ?_⟩
    · rw [hread, hsign.chars, hsign.text, numeral, if_neg hsign.nonzero]
    · intro k hk
      rcases hwrites k hk with hk | hk
      · exact (hsign.writes k hk).imp_right (fun h => by omega)
      · exact Or.inr hk

end LumOS
