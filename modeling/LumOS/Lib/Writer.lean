import LumOS.Lib.Comp

/-!
# Computations that write

A computation that also writes takes the output so far and returns it with what has been appended. `Writes c c' text` says that `c'` does
what `c` does and appends `text`, and `Erases c c'` that `c` does what `c'` does when the output is left out. Both have a rule for each way
to put computations together; what a loop writes is what its turns write, from the states that it visits (`Writes.loop`).
-/

namespace Comp

variable {α β σ γ : Type}

/-- When `c` returns, so does `c'`, with the same result, and has written the text. -/
def Writes (c : Comp α) (c' : List γ → Comp (α × List γ)) (text : List γ) : Prop :=
  ∀ a, Returns c a → ∀ out, Returns (c' out) (a, out ++ text)

/-- When `c'` returns, so does `c`, with the same result. -/
def Erases (c : Comp α) (c' : List γ → Comp (α × List γ)) : Prop := ∀ out r, Returns (c' out) r → Returns c r.1

/-! ## What is written -/

theorem writes_pure (a : α) : Writes (pure a) (fun out => pure (a, out)) ([] : List γ) := by
  intro b hb out
  rw [returns_pure.mp hb, List.append_nil]
  exact returns_pure.mpr rfl

theorem Writes.bind {c : Comp α} {c' : List γ → Comp (α × List γ)} {s t : List γ} {f : α → Comp β}
    {f' : α → List γ → Comp (β × List γ)} (hc : Writes c c' s) (hf : ∀ a, Returns c a → Writes (f a) (f' a) t) :
    Writes (c >>= f) (fun out => c' out >>= fun r => f' r.1 r.2) (s ++ t) := by
  intro b hb out
  obtain ⟨a, ha, hb⟩ := returns_bind.mp hb
  rw [← List.append_assoc]
  exact returns_bind.mpr ⟨_, hc a ha out, hf a ha b hb _⟩

section

variable {cond : σ → Bool} {body : σ → Comp σ} {body' : σ × List γ → Comp (σ × List γ)} {text : σ → List γ}

/-- What a loop writes. -/
theorem Writes.loop {s t : σ} {vs : List σ}
    (hbody : ∀ s ∈ vs, cond s = true → Writes (body s) (fun out => body' (s, out)) (text s)) (hvs : Visits cond body s vs t) :
    Writes (Comp.loop cond body s) (fun out => Comp.loop (fun r => cond r.1) body' (s, out)) (vs.flatMap text) := by
  intro u hu
  obtain rfl := hu.unique hvs.returns
  induction hvs with
  | exit hs =>
    intro out
    rw [List.flatMap_nil, List.append_nil]
    exact returns_loop_exit hs
  | turn hs hturn hvs ih =>
    intro out
    rw [List.forall_mem_cons] at hbody
    rw [List.flatMap_cons, ← List.append_assoc]
    exact returns_loop_turn hs (hbody.1 hs _ hturn out) (ih hbody.2 hvs.returns _)

/-! ## What is done -/

theorem erases_pure (a : α) : Erases (pure a) (fun out : List γ => pure (a, out)) := by
  intro out r hr
  rw [← returns_pure.mp hr]
  exact returns_pure.mpr rfl

theorem Erases.bind {c : Comp α} {c' : List γ → Comp (α × List γ)} {f : α → Comp β}
    {f' : α → List γ → Comp (β × List γ)} (hc : Erases c c') (hf : ∀ a, Erases (f a) (f' a)) : Erases (c >>= f) (fun out => c' out >>= fun r => f' r.1 r.2) := by
  intro out r hr
  obtain ⟨a, ha, hr⟩ := returns_bind.mp hr
  exact returns_bind.mpr ⟨a.1, hc out a ha, hf a.1 a.2 r hr⟩

theorem Erases.loop (hbody : ∀ s, Erases (body s) (fun out => body' (s, out))) (s : σ) :
    Erases (Comp.loop cond body s) (fun out => Comp.loop (fun r => cond r.1) body' (s, out)) := by
  intro out r hr
  refine hr.loop_induct (P := fun p q => Returns (Comp.loop cond body p.1) q.1) ?_ ?_
  · intro p hp
    exact returns_loop_exit hp
  · intro p u q hp hu hq
    exact returns_loop_turn hp (hbody p.1 p.2 u hu) hq

end

end Comp
