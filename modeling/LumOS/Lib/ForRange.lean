import LumOS.Lib.Comp

/-!
# Counting loops

`forRange lo hi body` is `for (i = lo; i < hi; i++) body`, with the state passed along. `forRange_induct` is its invariant rule. A loop
that counts down to zero takes as many turns (`Comp.returns_countDown`).
-/

section

variable {σ : Type}

/-- `n` turns of a counting loop, the first with counter `i`. -/
def forTurns (body : Nat → σ → σ) : Nat → Nat → σ → σ
  | 0, _, s => s
  | n + 1, i, s => forTurns body n (i + 1) (body i s)

/-- The loop `for (i = lo; i < hi; i++) body`. -/
def forRange (lo hi : Nat) (body : Nat → σ → σ) (s : σ) : σ := forTurns body (hi - lo) lo s

/-- What holds of the counter and the state before the loop, and is kept by every turn, holds of the bound and the state after. -/
theorem forRange_induct {lo hi : Nat} (hle : lo ≤ hi) {body : Nat → σ → σ} (I : Nat → σ → Prop) {s : σ} (h : I lo s)
    (hstep : ∀ i s, lo ≤ i → i < hi → I i s → I (i + 1) (body i s)) : I hi (forRange lo hi body s) := by
  suffices ∀ n i s, lo ≤ i → i + n = hi → I i s → I hi (forTurns body n i s) from
    this (hi - lo) lo s (Nat.le_refl lo) (Nat.add_sub_cancel' hle) h
  intro n
  induction n with
  | zero =>
    rintro i s _ rfl h
    exact h
  | succ n ih =>
    intro i s hlo hn h
    exact ih (i + 1) _ (by omega) (by omega) (hstep i s hlo (by omega) h)

/-- The first turn of a loop that takes one. -/
theorem forRange_head {lo hi : Nat} (h : lo < hi) (body : Nat → σ → σ) (s : σ) :
    forRange lo hi body s = forRange (lo + 1) hi body (body lo s) := by
  rw [forRange, forRange, show hi - lo = hi - (lo + 1) + 1 by omega, forTurns]

/-- Loops of the same turns, seen in a part of the state. -/
theorem forRange_map {τ : Type} {f : σ → σ} {g : τ → τ} {π : σ → τ} (h : ∀ s, π (f s) = g (π s)) (lo hi : Nat) (s : σ) :
    π (forRange lo hi (fun _ => f) s) = forRange lo hi (fun _ => g) (π s) := by
  suffices ∀ n i s, π (forTurns (fun _ => f) n i s) = forTurns (fun _ => g) n i (π s) from this (hi - lo) lo s
  intro n
  induction n with
  | zero =>
    intro i s
    rfl
  | succ n ih =>
    intro i s
    rw [forTurns, ih, h, forTurns]

/-- A loop that counts down to zero. -/
theorem Comp.returns_countDown {cond : σ → Bool} {step : σ → σ} {count : σ → Nat} (hcond : ∀ s, cond s = decide (count s ≠ 0))
    (hstep : ∀ s, count s ≠ 0 → count (step s) + 1 = count s) {lo hi : Nat} {s : σ} (hcount : lo + count s = hi) :
    Returns (loop cond (fun s => pure (step s)) s) (forRange lo hi (fun _ => step) s) := by
  obtain ⟨n, hn⟩ : ∃ n, count s = n := ⟨_, rfl⟩
  induction n generalizing lo s with
  | zero =>
    have hexit : cond s = false := by
      rw [hcond, decide_eq_false_iff_not, not_not]
      exact hn
    rw [forRange, show hi - lo = 0 by omega, forTurns]
    exact returns_loop_exit hexit
  | succ n ih =>
    have hne : count s ≠ 0 := by omega
    have hnext := hstep s hne
    have hturn : cond s = true := by
      rw [hcond, decide_eq_true_iff]
      exact hne
    rw [forRange_head (by omega)]
    exact returns_loop_turn hturn (returns_pure.mpr rfl) (ih (by omega) (by omega))

end
