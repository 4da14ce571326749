import LumOS.Lib.System
import Mathlib.Data.Nat.Count
import Mathlib.Data.Set.Pairwise.Basic

/-!
# Allocating from a pool

The purpose of an allocator, with nothing said about how it keeps track: there is a pool of resources, a resource is given out
only when it is in the pool and not out already, and only what is out comes back (`poolSystem`). The resources that are out are
then always distinct members of the pool.

A counter of the resources not out is kept by adding and taking one; `count_add_one` is the fact behind that.
-/

section

variable {α : Type} [DecidableEq α]

/-- Giving out a resource of the pool that is not out, or taking one back that is. -/
inductive PoolStep (pool : Set α) : List α → List α → Prop where
  | give {out : List α} {a : α} (hp : a ∈ pool) (ho : a ∉ out) : PoolStep pool out (a :: out)
  | back {out : List α} {a : α} (ho : a ∈ out) : PoolStep pool out (out.erase a)

/-- The allocator over a pool: its states are the resources that are out. -/
def poolSystem (pool : Set α) : System (List α) where
  init out := out = []
  step := PoolStep pool

/-- The resources that are out are distinct members of the pool. -/
theorem pool_sound {pool : Set α} {out : List α} (h : (poolSystem pool).Reachable out) :
    out.Nodup ∧ ∀ a ∈ out, a ∈ pool := by
  refine h.invariant (fun out => out.Nodup ∧ ∀ a ∈ out, a ∈ pool) ?_ ?_
  · rintro out rfl
    exact ⟨List.nodup_nil, fun _ ha => absurd ha List.not_mem_nil⟩
  · rintro out _ _ ⟨hd, hp⟩ (⟨ha, ho⟩ | ho)
    · exact ⟨List.nodup_cons.mpr ⟨ho, hd⟩, List.forall_mem_cons.mpr ⟨ha, hp⟩⟩
    · exact ⟨hd.erase _, fun b hb => hp b (List.mem_of_mem_erase hb)⟩

/-- A resource given out is apart from all that are out, when the resources of the pool are pairwise apart. -/
theorem pool_apart {pool : Set α} {r : α → α → Prop} (hr : pool.Pairwise r) {out : List α}
    (h : (poolSystem pool).Reachable out) {a : α} (ha : a ∈ pool) (ho : a ∉ out) : ∀ b ∈ out, r a b := by
  intro b hb
  refine hr ha ((pool_sound h).2 b hb) ?_
  rintro rfl
  exact ho hb

end

/-- One more number below `n` satisfies `p` than `q`, when they differ at one number and `p` holds there. -/
theorem count_add_one {p q : Nat → Prop} [DecidablePred p] [DecidablePred q] {i n : Nat} (hi : i < n) (hp : p i) (hq : ¬q i)
    (hne : ∀ j, j ≠ i → (p j ↔ q j)) : Nat.count p n = Nat.count q n + 1 := by
  induction n with
  | zero => exact absurd hi (Nat.not_lt_zero i)
  | succ n ih =>
    rw [Nat.count_succ, Nat.count_succ]
    rcases Nat.lt_or_eq_of_le (Nat.le_of_lt_succ hi) with hlt | rfl
    · rw [ih hlt, if_congr (hne n (by omega)) rfl rfl]
      omega
    · have hsame : Nat.count p i = Nat.count q i :=
        Nat.le_antisymm (Nat.count_mono_left (fun k hk h => (hne k (by omega)).mp h))
          (Nat.count_mono_left (fun k hk h => (hne k (by omega)).mpr h))
      rw [hsame, if_pos hp, if_neg hq]

/-- The numbers below `n` that satisfy `p` and those that do not are `n` together. -/
theorem count_add_count_not (p : Nat → Prop) [DecidablePred p] (n : Nat) :
    Nat.count p n + Nat.count (fun i => ¬p i) n = n := by
  induction n with
  | zero => simp
  | succ n ih =>
    rw [Nat.count_succ, Nat.count_succ]
    by_cases h : p n
    · rw [if_pos h, if_neg (by simpa using h)]
      omega
    · rw [if_neg h, if_pos (by simpa using h)]
      omega
