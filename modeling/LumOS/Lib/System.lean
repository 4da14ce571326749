import Mathlib.Logic.Relation
import Mathlib.Tactic.Common

/-!
# Transition systems

A `System` has initial states and a step relation. What holds of every reachable state is proved with `Reachable.invariant`; that
one system does no more than another is a `Simulation`, which takes reachable states to reachable states
(`Simulation.reachable`). A step of the system below may be any number of steps of the system above, also none.

For a system that has a program to run, in the form of the operations still to come, `Along` says what holds before each of them; what
else happens in the system leaves it alone when it leaves the state of the program alone.
-/

/-- A transition system. -/
structure System (σ : Type) where
  init : σ → Prop
  step : σ → σ → Prop

namespace System

variable {σ τ : Type}

/-- The states a system reaches. -/
inductive Reachable (S : System σ) : σ → Prop where
  | init {s : σ} (h : S.init s) : Reachable S s
  | step {s t : σ} (hs : Reachable S s) (h : S.step s t) : Reachable S t

/-- What holds initially and is kept by every step from a reachable state holds of every reachable state. -/
theorem Reachable.invariant {S : System σ} (I : σ → Prop) (hinit : ∀ s, S.init s → I s)
    (hstep : ∀ s t, S.Reachable s → I s → S.step s t → I t) {s : σ} (h : S.Reachable s) : I s := by
  induction h with
  | init h => exact hinit _ h
  | step hs h ih => exact hstep _ _ hs ih h

/-- Any number of steps lead from a reachable state to a reachable state. -/
theorem Reachable.steps {S : System σ} {s t : σ} (hs : S.Reachable s) (h : Relation.ReflTransGen S.step s t) :
    S.Reachable t := by
  induction h with
  | refl => exact hs
  | tail _ h ih => exact ih.step h

/-- Every step of `S` between states related by `R` is some steps of `T`. -/
structure Simulation (S : System σ) (T : System τ) (R : σ → τ → Prop) : Prop where
  init : ∀ s, S.init s → ∃ t, T.init t ∧ R s t
  step : ∀ s s' t, S.Reachable s → T.Reachable t → R s t → S.step s s' →
    ∃ t', Relation.ReflTransGen T.step t t' ∧ R s' t'

/-- A simulation relates every reachable state to a reachable one. -/
theorem Simulation.reachable {S : System σ} {T : System τ} {R : σ → τ → Prop} (h : Simulation S T R) {s : σ}
    (hs : S.Reachable s) : ∃ t, T.Reachable t ∧ R s t := by
  induction hs with
  | init hi =>
    obtain ⟨t, ht, hr⟩ := h.init _ hi
    exact ⟨t, .init ht, hr⟩
  | step hs hst ih =>
    obtain ⟨t, ht, hr⟩ := ih
    obtain ⟨t', hsteps, hr'⟩ := h.step _ _ t hs ht hr hst
    exact ⟨t', ht.steps hsteps, hr'⟩

/-! ## A program of operations -/

section

variable {α : Type} {exec : σ → α → σ} {I : List α → σ → Prop}

/-- Of the operations still to come and of the state `I` holds, now and after each of the operations. -/
def Along (exec : σ → α → σ) (I : List α → σ → Prop) : List α → σ → Prop
  | [], s => I [] s
  | op :: ops, s => I (op :: ops) s ∧ Along exec I ops (exec s op)

theorem Along.here {ops : List α} {s : σ} (h : Along exec I ops s) : I ops s := by
  cases ops with
  | nil => exact h
  | cons op ops => exact h.1

theorem Along.next {op : α} {ops : List α} {s : σ} (h : Along exec I (op :: ops) s) : Along exec I ops (exec s op) := h.2

theorem Along.imp {J : List α → σ → Prop} {ops : List α} {s : σ} (h : Along exec I ops s) (hij : ∀ ops s, I ops s → J ops s) :
    Along exec J ops s := by
  induction ops generalizing s with
  | nil => exact hij _ _ h
  | cons op ops ih => exact ⟨hij _ _ h.1, ih h.2⟩

theorem Along.and {J : List α → σ → Prop} {ops : List α} {s : σ} (h : Along exec I ops s) (h' : Along exec J ops s) :
    Along exec (fun ops s => I ops s ∧ J ops s) ops s := by
  induction ops generalizing s with
  | nil => exact ⟨h, h'⟩
  | cons op ops ih => exact ⟨⟨h.1, h'.1⟩, ih h.2 h'.2⟩

/-- Where the program ends does not change on the way there. -/
theorem along_foldl (exec : σ → α → σ) (ops : List α) (s : σ) :
    Along exec (fun rest t => rest.foldl exec t = ops.foldl exec s) ops s := by
  induction ops generalizing s with
  | nil => exact rfl
  | cons op ops ih => exact ⟨rfl, ih (exec s op)⟩

/-- A program in two parts. -/
theorem Along.append {pre post : List α} {s : σ}
    (hpre : ∀ done op ops, pre = done ++ op :: ops → I (op :: ops ++ post) (done.foldl exec s))
    (hpost : Along exec I post (pre.foldl exec s)) : Along exec I (pre ++ post) s := by
  induction pre generalizing s with
  | nil => exact hpost
  | cons op pre ih => exact ⟨hpre [] op pre rfl, ih (fun done op' ops h => hpre (op :: done) op' ops (congrArg (op :: ·) h)) hpost⟩

end

end System
