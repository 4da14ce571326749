import Mathlib.Algebra.Group.Int.Defs
import Mathlib.Algebra.Group.Nat.Defs
import Mathlib.Tactic.Common

/-!
# Computations that may not return

A `Comp α` is a computation with an unbounded loop in it somewhere: given a number of turns it may spend in each loop, it has a
result or it has none yet, and more turns never change a result it has (`Comp.mono`, carried by the structure). `Returns c a`
says the computation returns `a`; `Diverges c` says it never returns; `Ensures c Q` says it returns a value that satisfies `Q`.
Loops are `Comp.loop`, with an invariant and measure rule (`ensures_loop`), an induction principle on a loop that returns
(`Returns.loop_induct`) and a rule for a loop that does not return (`diverges_loop`). `visits` is a loop that also lists the states
it has taken a turn from; it ends where the loop ends, and what it lists is what `Visits` says (`returns_visits`). A computation that
`Traces` another returns the same values with a trace added to them.
-/

/-- A computation: the result it has reached when every loop may take the given number of turns. -/
structure Comp (α : Type) where
  run : Nat → Option α
  mono : ∀ {n : Nat} {a : α}, run n = some a → run (n + 1) = some a

namespace Comp

variable {α β σ τ : Type}

/-- A result stays the result with more turns. -/
theorem mono_le (c : Comp α) {n m : Nat} (h : n ≤ m) {a : α} (hr : c.run n = some a) : c.run m = some a := by
  induction h with
  | refl => exact hr
  | step _ ih => exact c.mono ih

/-- The computation that returns at once. -/
protected def pure (a : α) : Comp α where
  run _ := some a
  mono h := h

/-- Run one computation and then another on its result. -/
protected def bind (c : Comp α) (f : α → Comp β) : Comp β where
  run n := (c.run n).bind (fun a => (f a).run n)
  mono := by
    intro n b h
    obtain ⟨a, ha, hb⟩ := Option.bind_eq_some_iff.mp h
    exact Option.bind_eq_some_iff.mpr ⟨a, c.mono ha, (f a).mono hb⟩

instance : Monad Comp where
  pure := Comp.pure
  bind := Comp.bind

/-- The computation that never returns. -/
def diverge : Comp α where
  run _ := none
  mono h := absurd h.symm (Option.some_ne_none _)

/-- At most `k` turns of a loop, where each turn has `n` turns for the loops inside it. -/
def turns (cond : σ → Bool) (body : σ → Comp σ) (n : Nat) : Nat → σ → Option σ
  | 0, _ => none
  | k + 1, s => if cond s then ((body s).run n).bind (turns cond body n k) else some s

/-- More turns, of the loop or of the loops inside it, never change the state a loop has ended in. -/
theorem turns_mono {cond : σ → Bool} {body : σ → Comp σ} {n n' : Nat} (hn : n ≤ n') {t : σ} :
    ∀ {k k' : Nat} {s : σ}, k ≤ k' → turns cond body n k s = some t → turns cond body n' k' s = some t := by
  intro k
  induction k with
  | zero => intro k' s _ h; cases h
  | succ k ih =>
    intro k' s hk h
    obtain ⟨k', rfl⟩ : ∃ j, k' = j + 1 := ⟨k' - 1, by omega⟩
    rw [turns] at h ⊢
    by_cases hc : cond s = true
    · rw [if_pos hc] at h ⊢
      obtain ⟨u, hu, ht⟩ := Option.bind_eq_some_iff.mp h
      exact Option.bind_eq_some_iff.mpr ⟨u, (body s).mono_le hn hu, ih (Nat.le_of_succ_le_succ hk) ht⟩
    · rw [if_neg hc] at h ⊢
      exact h

/-- The loop `while (cond) body`. -/
def loop (cond : σ → Bool) (body : σ → Comp σ) (s : σ) : Comp σ where
  run n := turns cond body n n s
  mono h := turns_mono (Nat.le_succ _) (Nat.le_succ _) h

/-! ## Returning -/

/-- The computation returns `a`. -/
def Returns (c : Comp α) (a : α) : Prop := ∃ n, c.run n = some a

/-- The computation never returns. -/
def Diverges (c : Comp α) : Prop := ∀ n, c.run n = none

/-- A computation returns one value at most. -/
theorem Returns.unique {c : Comp α} {a b : α} (ha : Returns c a) (hb : Returns c b) : a = b := by
  obtain ⟨n, hn⟩ := ha
  obtain ⟨m, hm⟩ := hb
  have h1 := c.mono_le (Nat.le_max_left n m) hn
  have h2 := c.mono_le (Nat.le_max_right n m) hm
  exact Option.some.inj (h1.symm.trans h2)

theorem Diverges.not_returns {c : Comp α} (h : Diverges c) (a : α) : ¬Returns c a := by
  rintro ⟨n, hn⟩
  rw [h n] at hn
  cases hn

@[simp] theorem returns_pure {a b : α} : Returns (pure a : Comp α) b ↔ a = b := by
  constructor
  · rintro ⟨n, hn⟩
    exact Option.some.inj hn
  · rintro rfl
    exact ⟨0, rfl⟩

@[simp] theorem returns_bind {c : Comp α} {f : α → Comp β} {b : β} :
    Returns (c >>= f) b ↔ ∃ a, Returns c a ∧ Returns (f a) b := by
  constructor
  · rintro ⟨n, hn⟩
    obtain ⟨a, ha, hb⟩ := Option.bind_eq_some_iff.mp hn
    exact ⟨a, ⟨n, ha⟩, ⟨n, hb⟩⟩
  · rintro ⟨a, ⟨n, hn⟩, ⟨m, hm⟩⟩
    exact ⟨max n m, Option.bind_eq_some_iff.mpr
      ⟨a, c.mono_le (Nat.le_max_left n m) hn, (f a).mono_le (Nat.le_max_right n m) hm⟩⟩

@[simp] theorem not_returns_diverge {a : α} : ¬Returns (diverge : Comp α) a := by
  rintro ⟨n, hn⟩
  exact Option.some_ne_none a hn.symm

/-- A computation that has a result after some turns returns it, with what is read off the result. -/
theorem exists_returns_of_run {c : Comp α} {n : Nat} {f : α → β} {x : β} (h : (c.run n).map f = some x) :
    ∃ a, Returns c a ∧ f a = x := by
  obtain ⟨a, ha, hx⟩ := Option.map_eq_some_iff.mp h
  exact ⟨a, ⟨n, ha⟩, hx⟩

/-- A computation in three parts can be taken apart at either end. -/
theorem bind_bind (c : Comp α) (f : α → Comp β) (g : β → Comp σ) : c >>= f >>= g = c >>= fun a => f a >>= g := by
  have hrun : (c >>= f >>= g).run = (c >>= fun a => f a >>= g).run := by
    funext n
    exact Option.bind_assoc (c.run n) (fun a => (f a).run n) (fun b => (g b).run n)
  cases h1 : c >>= f >>= g with
  | mk r1 m1 =>
    cases h2 : c >>= fun a => f a >>= g with
    | mk r2 m2 =>
      rw [h1, h2] at hrun
      simp only at hrun
      subst hrun
      rfl

/-- A computation that diverges makes whatever starts with it diverge. -/
theorem Diverges.bind {c : Comp α} (h : Diverges c) (f : α → Comp β) : Diverges (c >>= f) := by
  intro n
  show (c.run n).bind _ = none
  rw [h n]
  rfl

/-! ## Ensuring a postcondition -/

/-- The computation returns a value that satisfies `Q`. -/
def Ensures (c : Comp α) (Q : α → Prop) : Prop := ∃ a, Returns c a ∧ Q a

/-- What a computation ensures holds of the value it returns. -/
theorem Ensures.of_returns {c : Comp α} {Q : α → Prop} (h : Ensures c Q) {a : α} (ha : Returns c a) : Q a := by
  obtain ⟨b, hb, hq⟩ := h
  rw [ha.unique hb]
  exact hq

/-- What a computation that returns `a` ensures is what holds of `a`. -/
theorem Returns.ensures_iff {c : Comp α} {a : α} (ha : Returns c a) {Q : α → Prop} : Ensures c Q ↔ Q a :=
  ⟨fun h => h.of_returns ha, fun h => ⟨a, ha, h⟩⟩

theorem Ensures.imp {c : Comp α} {Q R : α → Prop} (h : Ensures c Q) (hqr : ∀ a, Q a → R a) : Ensures c R := by
  obtain ⟨a, ha, hq⟩ := h
  exact ⟨a, ha, hqr a hq⟩

theorem ensures_pure {a : α} {Q : α → Prop} (h : Q a) : Ensures (pure a) Q :=
  ⟨a, returns_pure.mpr rfl, h⟩

theorem Ensures.bind {c : Comp α} {f : α → Comp β} {Q : α → Prop} {R : β → Prop} (hc : Ensures c Q)
    (hf : ∀ a, Q a → Ensures (f a) R) : Ensures (c >>= f) R := by
  obtain ⟨a, ha, hq⟩ := hc
  obtain ⟨b, hb, hr⟩ := hf a hq
  exact ⟨b, returns_bind.mpr ⟨a, ha, hb⟩, hr⟩

/-! ## Loops -/

/-- A loop whose condition is false returns the state it was entered with. -/
theorem returns_loop_exit {cond : σ → Bool} {body : σ → Comp σ} {s : σ} (hc : cond s = false) :
    Returns (loop cond body s) s :=
  ⟨1, by simp [loop, turns, hc]⟩

/-- A loop whose condition is true returns what the loop returns after one turn. -/
theorem returns_loop_turn {cond : σ → Bool} {body : σ → Comp σ} {s u t : σ} (hc : cond s = true)
    (hu : Returns (body s) u) (ht : Returns (loop cond body u) t) : Returns (loop cond body s) t := by
  obtain ⟨n, hn⟩ := hu
  obtain ⟨m, hm⟩ := ht
  refine ⟨max n m + 1, ?_⟩
  have h1 := (body s).mono_le (Nat.le_succ_of_le (Nat.le_max_left n m)) hn
  have h2 : turns cond body (max n m) (max n m) u = some t := (loop cond body u).mono_le (Nat.le_max_right n m) hm
  show turns cond body (max n m + 1) (max n m + 1) s = some t
  rw [turns, if_pos hc, h1]
  exact turns_mono (Nat.le_succ _) (Nat.le_refl _) h2

/-- The invariant and measure rule: when every turn from a state that satisfies the invariant returns, keeps the invariant and
lowers the measure, the loop returns, in a state that satisfies the invariant and fails the condition. -/
theorem ensures_loop {cond : σ → Bool} {body : σ → Comp σ} (I : σ → Prop) (μ : σ → Nat)
    (hbody : ∀ s, I s → cond s = true → Ensures (body s) (fun t => I t ∧ μ t < μ s)) {s : σ} (hs : I s) :
    Ensures (loop cond body s) (fun t => I t ∧ cond t = false) := by
  induction hm : μ s using Nat.strongRecOn generalizing s with
  | _ m ih =>
    by_cases hc : cond s = true
    · obtain ⟨u, hu, hi, hlt⟩ := hbody s hs hc
      obtain ⟨t, ht, hq⟩ := ih (μ u) (hm ▸ hlt) hi rfl
      exact ⟨t, returns_loop_turn hc hu ht, hq⟩
    · rw [Bool.not_eq_true] at hc
      exact ⟨s, returns_loop_exit hc, hs, hc⟩

/-- Induction on a loop that returns: a relation between the state it is entered with and the state it returns holds when it
holds of a loop that is left at once and is kept when one more turn is put in front. -/
theorem Returns.loop_induct {cond : σ → Bool} {body : σ → Comp σ} {P : σ → σ → Prop}
    (hexit : ∀ s, cond s = false → P s s)
    (hturn : ∀ s u t, cond s = true → Returns (body s) u → P u t → P s t) {s t : σ}
    (h : Returns (loop cond body s) t) : P s t := by
  obtain ⟨n, hn⟩ := h
  suffices ∀ k s, turns cond body n k s = some t → P s t from this n s hn
  intro k
  induction k with
  | zero => intro s h; cases h
  | succ k ih =>
    intro s h
    rw [turns] at h
    by_cases hc : cond s = true
    · rw [if_pos hc] at h
      obtain ⟨u, hu, ht⟩ := Option.bind_eq_some_iff.mp h
      exact hturn s u t hc ⟨n, hu⟩ (ih u ht)
    · rw [if_neg hc] at h
      rw [← Option.some.inj h]
      exact hexit s (by simpa using hc)

/-- A loop with an invariant that forces its condition to be true never returns. -/
theorem diverges_loop {cond : σ → Bool} {body : σ → Comp σ} (I : σ → Prop) (hcond : ∀ s, I s → cond s = true)
    (hbody : ∀ s t, I s → Returns (body s) t → I t) {s : σ} (hs : I s) : Diverges (loop cond body s) := by
  intro n
  suffices ∀ k s, I s → turns cond body n k s = none from this n s hs
  intro k
  induction k with
  | zero => intro s _; rfl
  | succ k ih =>
    intro s hs
    rw [turns, if_pos (hcond s hs)]
    cases hu : (body s).run n with
    | none => rfl
    | some u => exact ih u (hbody s u hs ⟨n, hu⟩)

/-! ## The states a loop goes through -/

/-- A loop, with the states from which it has taken a turn. -/
def visits (cond : σ → Bool) (body : σ → Comp σ) (s : σ) : Comp (σ × List σ) :=
  loop (fun p => cond p.1) (fun p => do
    let t ← body p.1
    return (t, p.2 ++ [p.1])) (s, [])

/-- The loop goes from `s` to `t` and leaves it there, with a turn from each of the states in between. -/
inductive Visits (cond : σ → Bool) (body : σ → Comp σ) : σ → List σ → σ → Prop where
  | exit {s : σ} (h : cond s = false) : Visits cond body s [] s
  | turn {s u t : σ} {vs : List σ} (h : cond s = true) (hu : Returns (body s) u) (hvs : Visits cond body u vs t) :
      Visits cond body s (s :: vs) t

section

variable {cond : σ → Bool} {body : σ → Comp σ} {s t : σ} {vs : List σ}

/-- A loop that lists its turns returns where the loop goes, with the states in between. -/
theorem returns_visits : Returns (visits cond body s) (t, vs) ↔ Visits cond body s vs t := by
  constructor
  · intro h
    have hvisits := h.loop_induct (P := fun p q => ∃ ws, q.2 = p.2 ++ ws ∧ Visits cond body p.1 ws q.1) ?_ ?_
    · obtain ⟨ws, hws, hv⟩ := hvisits
      obtain rfl : vs = ws := by simpa using hws
      exact hv
    · intro p hc
      exact ⟨[], (List.append_nil p.2).symm, .exit hc⟩
    · intro p q r hc hq ih
      obtain ⟨u, hu, hq⟩ := returns_bind.mp hq
      obtain ⟨ws, hws, hv⟩ := ih
      rw [← returns_pure.mp hq] at hws hv
      exact ⟨p.1 :: ws, by rw [hws, List.append_assoc]; rfl, .turn hc hu hv⟩
  · intro h
    suffices ∀ acc, Returns (loop (fun p => cond p.1) (fun p => do
        let t ← body p.1
        return (t, p.2 ++ [p.1])) (s, acc)) (t, acc ++ vs) from this []
    induction h with
    | exit hc =>
      intro acc
      rw [List.append_nil]
      exact returns_loop_exit hc
    | @turn s u t vs hc hu _ ih =>
      intro acc
      refine returns_loop_turn hc (returns_bind.mpr ⟨u, hu, returns_pure.mpr rfl⟩) ?_
      have := ih (acc ++ [s])
      rwa [List.append_assoc] at this

/-- A loop goes where it returns. -/
theorem Returns.exists_visits (h : Returns (loop cond body s) t) : ∃ vs, Visits cond body s vs t := by
  refine h.loop_induct (P := fun s t => ∃ vs, Visits cond body s vs t) ?_ ?_
  · intro s hc
    exact ⟨[], .exit hc⟩
  · rintro s u t hc hu ⟨vs, hvs⟩
    exact ⟨s :: vs, .turn hc hu hvs⟩

theorem Visits.returns (h : Visits cond body s vs t) : Returns (loop cond body s) t := by
  induction h with
  | exit hc => exact returns_loop_exit hc
  | turn hc hu _ ih => exact returns_loop_turn hc hu ih

/-- The states that a loop goes through start with the one it is entered with. -/
theorem Visits.head (h : Visits cond body s vs t) : ∃ ws, vs ++ [t] = s :: ws := by
  cases h with
  | exit _ => exact ⟨[], rfl⟩
  | turn _ _ _ => exact ⟨_, rfl⟩

/-- A relation holds between all neighbours among the states a loop goes through exactly when each turn ensures it. -/
theorem Visits.isChain_iff (h : Visits cond body s vs t) (R : σ → σ → Prop) :
    (vs ++ [t]).IsChain R ↔ ∀ v ∈ vs, Ensures (body v) (R v) := by
  induction h with
  | exit _ => exact iff_of_true (.singleton _) (fun v hv => absurd hv List.not_mem_nil)
  | turn hc hu hvs ih =>
    obtain ⟨ws, hws⟩ := hvs.head
    rw [List.cons_append, hws, List.isChain_cons_cons, ← hws, ih, List.forall_mem_cons, hu.ensures_iff]

/-- What a loop keeps holds of the states it goes through. -/
theorem Visits.invariant (h : Visits cond body s vs t) (I : σ → Prop)
    (hbody : ∀ s u, I s → cond s = true → Returns (body s) u → I u) (hs : I s) :
    (∀ v ∈ vs, I v ∧ cond v = true) ∧ I t ∧ cond t = false := by
  induction h with
  | exit hc => exact ⟨fun v hv => absurd hv List.not_mem_nil, hs, hc⟩
  | turn hc hu _ ih =>
    obtain ⟨hall, hend⟩ := ih (hbody _ _ hs hc hu)
    exact ⟨List.forall_mem_cons.mpr ⟨⟨hs, hc⟩, hall⟩, hend⟩

end

/-! ## Traces -/

/-- The second computation is the first, with a trace of what it does. -/
def Traces (c : Comp α) (c' : Comp (α × τ)) : Prop := ∀ a, Returns c a ↔ ∃ t, Returns c' (a, t)

theorem traces_pure (a : α) (t : τ) : Traces (pure a) (pure (a, t)) := by
  intro b
  rw [returns_pure]
  constructor
  · rintro rfl
    exact ⟨t, returns_pure.mpr rfl⟩
  · rintro ⟨u, hu⟩
    exact congrArg Prod.fst (returns_pure.mp hu)

theorem traces_diverge : Traces (diverge : Comp α) (diverge : Comp (α × τ)) := by
  intro a
  refine iff_of_false not_returns_diverge ?_
  rintro ⟨t, ht⟩
  exact not_returns_diverge ht

theorem Traces.ite {p : Prop} [Decidable p] {c d : Comp α} {c' d' : Comp (α × τ)} (hc : Traces c c') (hd : Traces d d') :
    Traces (if p then c else d) (if p then c' else d') := by
  by_cases h : p
  · rw [if_pos h, if_pos h]
    exact hc
  · rw [if_neg h, if_neg h]
    exact hd

/-- What comes before is the same, and the rest is traced. -/
theorem Traces.bind {c : Comp α} {f : α → Comp β} {f' : α → Comp (β × τ)} (hf : ∀ a, Traces (f a) (f' a)) :
    Traces (c >>= f) (c >>= f') := by
  intro b
  rw [returns_bind]
  constructor
  · rintro ⟨a, ha, hb⟩
    obtain ⟨t, ht⟩ := (hf a b).mp hb
    exact ⟨t, returns_bind.mpr ⟨a, ha, ht⟩⟩
  · rintro ⟨t, ht⟩
    obtain ⟨a, ha, hb⟩ := returns_bind.mp ht
    exact ⟨a, ha, (hf a b).mpr ⟨t, hb⟩⟩

/-- A loop comes before, and the states it takes a turn from go into the trace. -/
theorem Traces.visits {cond : σ → Bool} {body : σ → Comp σ} {s : σ} {f : σ → Comp β} {f' : σ × List σ → Comp (β × τ)}
    (hf : ∀ t vs, Traces (f t) (f' (t, vs))) : Traces (loop cond body s >>= f) (Comp.visits cond body s >>= f') := by
  intro b
  rw [returns_bind]
  constructor
  · rintro ⟨t, ht, hb⟩
    obtain ⟨vs, hvs⟩ := ht.exists_visits
    obtain ⟨u, hu⟩ := (hf t vs b).mp hb
    exact ⟨u, returns_bind.mpr ⟨(t, vs), returns_visits.mpr hvs, hu⟩⟩
  · rintro ⟨u, hu⟩
    obtain ⟨⟨t, vs⟩, hvs, hb⟩ := returns_bind.mp hu
    exact ⟨t, (returns_visits.mp hvs).returns, (hf t vs b).mpr ⟨u, hb⟩⟩

end Comp
