import LumOS.Pmm.Bitmap
import LumOS.Lib.ForRange

/-!
# Fills, word by word and bit by bit

`set_bits` and `unset_bits` go bit by bit to the start of a word, word by word, and bit by bit again. What they leave is what one bit
after the other would (`fills_bitwise`): in the bitmap the two have the same bits, and neither writes outside it. `fillBitsTraced`
lists the words that the three loops access.
-/

namespace LumOS

open Comp

/-- `set_bits` or `unset_bits` with the words of the map that it accesses, one in each turn. -/
def fillBitsTraced (bitOp : Mem → BitVec 32 → BitVec 32 → Mem) (fill : BitVec 32) (m : Mem)
    (mapStart offsetStart offsetEnd : BitVec 32) : Comp (Mem × List (BitVec 32)) := do
  let ((m, i), first) ← visits (fun (_, i) => i ≤ offsetEnd ∧ i % word ≠ 0)
    (fun (m, i) => pure (bitOp m mapStart i, i + 1)) (m, offsetStart)
  let ((m, i), words) ← visits (fun (_, i) => i + word ≤ offsetEnd)
    (fun (m, i) => pure (m.store (mapStart + 4 * (i / word)) fill, i + word)) (m, i)
  let ((m, _), last) ← visits (fun (_, i) => i ≤ offsetEnd)
    (fun (m, i) => pure (bitOp m mapStart i, i + 1)) (m, i)
  return (m, (first ++ words ++ last).map (fun (_, i) => i / word))

def setBitsTraced : Mem → BitVec 32 → BitVec 32 → BitVec 32 → Comp (Mem × List (BitVec 32)) := fillBitsTraced setBit 0xFFFFFFFF

def unsetBitsTraced : Mem → BitVec 32 → BitVec 32 → BitVec 32 → Comp (Mem × List (BitVec 32)) := fillBitsTraced unsetBit 0

/-- With the accesses the functions do what they do without. -/
theorem traces_fillBits (bitOp : Mem → BitVec 32 → BitVec 32 → Mem) (fill : BitVec 32) (m : Mem)
    (mapStart offsetStart offsetEnd : BitVec 32) :
    Traces (fillBits bitOp fill m mapStart offsetStart offsetEnd) (fillBitsTraced bitOp fill m mapStart offsetStart offsetEnd) := by
  unfold fillBits fillBitsTraced
  exact .visits fun _ _ => .visits fun _ _ => .visits fun _ _ => traces_pure _ _

/-- The bits from `offsetStart` to `offsetEnd`, one at a time. -/
def bitByBit (bitOp : Mem → BitVec 32 → BitVec 32 → Mem) (m : Mem) (mapStart offsetStart offsetEnd : BitVec 32) : Mem :=
  forRange offsetStart.toNat (offsetEnd.toNat + 1) (fun i m => bitOp m mapStart (BitVec.ofNat 32 i)) m

/-- A fill of a map of `n` words: it returns with what the same bits one at a time lead to, and it accesses the words of the map only.
In the map the bits from the start to the end are `v` and the others are as before; outside it nothing has changed. -/
structure FillsBitwise (fill : Comp Mem) (traced : Comp (Mem × List (BitVec 32))) (v : Bool) (n : Nat) (m m' : Mem)
    (mapStart offsetStart offsetEnd : BitVec 32) : Prop where
  returns : Returns fill m'
  traces : Traces fill traced
  words : ∀ m'' ws, Returns traced (m'', ws) → ∀ w ∈ ws, w.toNat < n
  bits : ∀ i < 32 * n, m'.bit mapStart i = if offsetStart.toNat ≤ i ∧ i ≤ offsetEnd.toNat then v else m.bit mapStart i
  outside : m.SameOutside mapStart n m'

/-- An operation on one bit of the map that makes it `v`. -/
structure MakesBit (bitOp : Mem → BitVec 32 → BitVec 32 → Mem) (v : Bool) (mapStart : BitVec 32) : Prop where
  stores : ∀ m i, ∃ x, bitOp m mapStart i = m.store (Mem.cell mapStart (i.toNat / 32)) x
  fills : ∀ m (i : BitVec 32), i.toNat / 32 < Mem.cells → Filled mapStart m (bitOp m mapStart i) i.toNat (i.toNat + 1) v

theorem makesBit_setBit (mapStart : BitVec 32) : MakesBit setBit true mapStart where
  stores := by
    intro m i
    exact ⟨_, congrArg (fun a => m.store a _) (word_addr_zero mapStart i)⟩
  fills := by
    intro m i hi n hn
    rw [bit_setBit_zero m mapStart i hi hn]
    exact if_congr (by omega) rfl rfl

theorem makesBit_unsetBit (mapStart : BitVec 32) : MakesBit unsetBit false mapStart where
  stores := by
    intro m i
    exact ⟨_, congrArg (fun a => m.store a _) (word_addr_zero mapStart i)⟩
  fills := by
    intro m i hi n hn
    rw [bit_unsetBit_zero m mapStart i hi hn]
    exact if_congr (by omega) rfl rfl

/-! ## The words -/

/-- What the loops keep: the index passes the end by one at most, and nothing outside the map has changed. -/
structure InMap (mapStart : BitVec 32) (n : Nat) (m : Mem) (last : BitVec 32) (s : Mem × BitVec 32) : Prop where
  le_last : s.2.toNat ≤ last.toNat + 1
  outside : m.SameOutside mapStart n s.1

section

variable {bitOp : Mem → BitVec 32 → BitVec 32 → Mem} {fill mapStart first last : BitVec 32} {v : Bool} {n : Nat} {m : Mem}
  {s t : Mem × BitVec 32} {vs : List (Mem × BitVec 32)}

theorem toNat_div_word_lt {i : BitVec 32} (hlast : last.toNat < 32 * n) (hi : i ≤ last) : (i / word).toNat < n := by
  rw [BitVec.le_def] at hi
  rw [toNat_div_word]
  omega

theorem InMap.bitTurn (hop : MakesBit bitOp v mapStart) (h : InMap mapStart n m last s) (hlast : last.toNat < 32 * n)
    (hmax : last.toNat + 33 < 2 ^ 32) (hi : s.2 ≤ last) : InMap mapStart n m last (bitOp s.1 mapStart s.2, s.2 + 1) where
  le_last := by
    have hone : (1 : BitVec 32).toNat = 1 := rfl
    simp only
    bv_omega
  outside := by
    obtain ⟨x, hx⟩ := hop.stores s.1 s.2
    rw [hx]
    rw [BitVec.le_def] at hi
    exact h.outside.store (by omega) x

/-- Adding a word to the index does not wrap. -/
theorem InMap.toNat_add_word (h : InMap mapStart n m last s) (hmax : last.toNat + 33 < 2 ^ 32) :
    (s.2 + word).toNat = s.2.toNat + 32 := by
  have hle := h.le_last
  have hword : word.toNat = 32 := rfl
  bv_omega

theorem InMap.wordTurn (h : InMap mapStart n m last s) (hlast : last.toNat < 32 * n) (hmax : last.toNat + 33 < 2 ^ 32)
    (hi : s.2 + word ≤ last) : InMap mapStart n m last (s.1.store (mapStart + 4 * (s.2 / word)) fill, s.2 + word) := by
  have hs := h.toNat_add_word hmax
  rw [BitVec.le_def, hs] at hi
  refine ⟨?_, ?_⟩
  · rw [hs]
    omega
  · rw [word_addr_zero]
    exact h.outside.store (by omega) fill

/-- The loops bit by bit. -/
theorem InMap.bitLoop {cond : Mem × BitVec 32 → Bool} (hop : MakesBit bitOp v mapStart) (h : InMap mapStart n m last s)
    (hlast : last.toNat < 32 * n) (hmax : last.toNat + 33 < 2 ^ 32) (hcond : ∀ s, cond s = true → s.2 ≤ last)
    (hv : Visits cond (fun (m, i) => pure (bitOp m mapStart i, i + 1)) s vs t) :
    InMap mapStart n m last t ∧ ∀ u ∈ vs, (u.2 / word).toNat < n := by
  have hinv := hv.invariant (InMap mapStart n m last) ?_ h
  · refine ⟨hinv.2.1, ?_⟩
    intro u hu
    exact toNat_div_word_lt hlast (hcond u (hinv.1 u hu).2)
  · intro u w hu hc hw
    rw [← returns_pure.mp hw]
    exact hu.bitTurn hop hlast hmax (hcond u hc)

/-- The loop word by word. -/
theorem InMap.wordLoop (h : InMap mapStart n m last s) (hlast : last.toNat < 32 * n) (hmax : last.toNat + 33 < 2 ^ 32)
    (hv : Visits (fun (_, i) => i + word ≤ last)
      (fun (m, i) => pure (m.store (mapStart + 4 * (i / word)) fill, i + word)) s vs t) :
    InMap mapStart n m last t ∧ ∀ u ∈ vs, (u.2 / word).toNat < n := by
  have hinv := hv.invariant (InMap mapStart n m last) ?_ h
  · refine ⟨hinv.2.1, ?_⟩
    intro u hu
    obtain ⟨hin, hc⟩ := hinv.1 u hu
    have hword := hin.toNat_add_word hmax
    have hle : (u.2 + word).toNat ≤ last.toNat := of_decide_eq_true hc
    exact toNat_div_word_lt hlast (BitVec.le_def.mpr (by omega))
  · intro u w hu hc hw
    rw [← returns_pure.mp hw]
    exact hu.wordTurn hlast hmax (of_decide_eq_true hc)

/-- All three loops stay in the map. -/
theorem fillBitsTraced_words {m' : Mem} {ws : List (BitVec 32)} (hop : MakesBit bitOp v mapStart) (hle : first.toNat ≤ last.toNat + 1)
    (hlast : last.toNat < 32 * n) (hmax : last.toNat + 33 < 2 ^ 32)
    (h : Returns (fillBitsTraced bitOp fill m mapStart first last) (m', ws)) :
    m.SameOutside mapStart n m' ∧ ∀ w ∈ ws, w.toNat < n := by
  unfold fillBitsTraced at h
  obtain ⟨⟨s₁, vs₁⟩, h₁, h⟩ := returns_bind.mp h
  obtain ⟨⟨s₂, vs₂⟩, h₂, h⟩ := returns_bind.mp h
  obtain ⟨⟨s₃, vs₃⟩, h₃, h⟩ := returns_bind.mp h
  have hstart : InMap mapStart n m last (m, first) := ⟨hle, .refl m⟩
  obtain ⟨hin₁, hw₁⟩ := hstart.bitLoop hop hlast hmax (fun s hc => (of_decide_eq_true hc).1) (returns_visits.mp h₁)
  obtain ⟨hin₂, hw₂⟩ := hin₁.wordLoop hlast hmax (returns_visits.mp h₂)
  obtain ⟨hin₃, hw₃⟩ := hin₂.bitLoop hop hlast hmax (fun s hc => of_decide_eq_true hc) (returns_visits.mp h₃)
  obtain ⟨rfl, rfl⟩ := Prod.mk.inj (returns_pure.mp h)
  refine ⟨hin₃.outside, ?_⟩
  intro w hw
  obtain ⟨u, hu, rfl⟩ := List.mem_map.mp hw
  rw [List.mem_append, List.mem_append] at hu
  rcases hu with (hu | hu) | hu
  · exact hw₁ u hu
  · exact hw₂ u hu
  · exact hw₃ u hu

/-! ## The bits -/

/-- One bit after the other. -/
theorem bitByBit_filled (hop : MakesBit bitOp v mapStart) (hle : first.toNat ≤ last.toNat + 1) (hlast : last.toNat < 32 * n)
    (hn : n ≤ Mem.cells) (hmax : last.toNat + 33 < 2 ^ 32) :
    Filled mapStart m (bitByBit bitOp m mapStart first last) first.toNat (last.toNat + 1) v ∧
      m.SameOutside mapStart n (bitByBit bitOp m mapStart first last) := by
  refine forRange_induct hle (fun i m' => Filled mapStart m m' first.toNat i v ∧ m.SameOutside mapStart n m')
    ⟨Filled.refl m _ v, .refl m⟩ ?_
  rintro i m' hlo hhi ⟨hfilled, houtside⟩
  have hi : (BitVec.ofNat 32 i).toNat = i := by
    rw [BitVec.toNat_ofNat]
    exact Nat.mod_eq_of_lt (by omega)
  constructor
  · have hbit := hop.fills m' (BitVec.ofNat 32 i) (by omega)
    rw [hi] at hbit
    exact hfilled.extend hlo (Nat.le_succ i) hbit
  · obtain ⟨x, hx⟩ := hop.stores m' (BitVec.ofNat 32 i)
    rw [hx, hi]
    exact houtside.store (by omega) x

/-- The three loops. -/
theorem fillBits_filled (hop : MakesBit bitOp v mapStart) (hfill : ∀ t < 32, fill.getLsbD t = v)
    (hle : first.toNat ≤ last.toNat + 1) (hmax : last.toNat + 33 < 2 ^ 32) (hcells : last.toNat / 32 < Mem.cells) :
    Ensures (fillBits bitOp fill m mapStart first last)
      (fun m' => Filled mapStart m m' first.toNat (last.toNat + 1) v) := by
  have hop' : ∀ m (i : BitVec 32), 0 + i.toNat / 32 < Mem.cells →
      Filled mapStart m (bitOp m (Mem.cell mapStart 0) i) (32 * 0 + i.toNat) (32 * 0 + i.toNat + 1) v := by
    intro m i hi
    rw [Nat.zero_add] at hi
    simpa using hop.fills m i hi
  have h := fillBits_ensures m hop' hfill hle hmax (by omega)
  simpa using h

/-- The body of the two functions. -/
theorem fillBits_bitwise (hop : MakesBit bitOp v mapStart) (hfill : ∀ t < 32, fill.getLsbD t = v) (hn : n ≤ 2 ^ 15 + 1)
    (hle : first.toNat ≤ last.toNat + 1) (hlast : last.toNat < 32 * n) :
    FillsBitwise (fillBits bitOp fill m mapStart first last) (fillBitsTraced bitOp fill m mapStart first last) v n m
      (bitByBit bitOp m mapStart first last) mapStart first last := by
  have hcells : n ≤ Mem.cells := Nat.le_trans hn (by decide)
  have hmax : last.toNat + 33 < 2 ^ 32 := by omega
  have hspec : Filled mapStart m (bitByBit bitOp m mapStart first last) first.toNat (last.toNat + 1) v ∧
      m.SameOutside mapStart n (bitByBit bitOp m mapStart first last) := bitByBit_filled hop hle hlast hcells hmax
  have htraces := traces_fillBits bitOp fill m mapStart first last
  obtain ⟨m', hm', hfilled⟩ : Ensures (fillBits bitOp fill m mapStart first last) _ := fillBits_filled hop hfill hle hmax (by omega)
  obtain ⟨ws, hws⟩ := (htraces m').mp hm'
  have heq : m' = bitByBit bitOp m mapStart first last := by
    refine (fillBitsTraced_words hop hle hlast hmax hws).1.ext hspec.2 ?_
    intro i hi
    rw [hfilled i (by omega), hspec.1 i (by omega)]
  exact
    { returns := heq ▸ hm'
      traces := htraces
      words := fun _ _ h => (fillBitsTraced_words hop hle hlast hmax h).2
      bits := by
        intro i hi
        rw [hspec.1 i (by omega)]
        exact if_congr (by omega) rfl rfl
      outside := hspec.2 }

end

/-- `set_bits` and `unset_bits` on a map of `n` words, as many as the bitmap of a zone can have: they are the same as setting and
clearing the bits one at a time. -/
theorem fills_bitwise (m : Mem) (mapStart : BitVec 32) {n : Nat} (hn : n ≤ 2 ^ 15 + 1) {offsetStart offsetEnd : BitVec 32}
    (hle : offsetStart.toNat ≤ offsetEnd.toNat + 1) (hend : offsetEnd.toNat < 32 * n) :
    FillsBitwise (setBits m mapStart offsetStart offsetEnd) (setBitsTraced m mapStart offsetStart offsetEnd) true n m
      (bitByBit setBit m mapStart offsetStart offsetEnd) mapStart offsetStart offsetEnd ∧
    FillsBitwise (unsetBits m mapStart offsetStart offsetEnd) (unsetBitsTraced m mapStart offsetStart offsetEnd) false n m
      (bitByBit unsetBit m mapStart offsetStart offsetEnd) mapStart offsetStart offsetEnd :=
  ⟨fillBits_bitwise (makesBit_setBit mapStart) (by decide) hn hle hend,
    fillBits_bitwise (makesBit_unsetBit mapStart) (by decide) hn hle hend⟩

/-- A range over three words, and an empty one. -/
theorem fills_bitwise_threeWords :
    Returns (setBits (fun _ => 0) 0x1000 30 65) (bitByBit setBit (fun _ => 0) 0x1000 30 65) ∧
      Returns (unsetBits (fun _ => 0) 0x1000 64 63) (fun _ => 0) :=
  ⟨(fills_bitwise (fun _ => 0) 0x1000 (n := 3) (by decide) (by decide) (by decide)).1.returns,
    (fills_bitwise (fun _ => 0) 0x1000 (n := 3) (by decide) (by decide) (by decide)).2.returns⟩

end LumOS
