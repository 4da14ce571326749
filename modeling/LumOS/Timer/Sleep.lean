import LumOS.Lib.Comp

/-!
# Waiting for the timer

`timer_tick` and `sleep` of `timer.c`. In every turn of the loop of `sleep` the processor halts until the next interrupt, and that
is one of the timer's; the ticks that `sleep` waits are the turns of its loop. The tick it waits for is computed modulo `2 ^ 32`, and
so is the product it is computed from.
-/

namespace LumOS

open Comp

/-- The variables of `timer.c`: `ticks` and `CLOCKS_PER_SECOND`. -/
structure Timer where
  ticks : BitVec 32
  clocksPerSecond : BitVec 32

/-- `timer_tick` -/
def timerTick (t : Timer) : Timer := { t with ticks := t.ticks + 1 }

/-- `target_ticks` -/
def targetTicks (t : Timer) (ms : BitVec 32) : BitVec 32 := t.ticks + ms * t.clocksPerSecond / 1000

/-- `sleep`, with the states in which it has found that the time is not up yet. -/
def sleep (t : Timer) (ms : BitVec 32) : Comp (Timer × List Timer) :=
  visits (fun s => s.ticks ≤ targetTicks t ms) (fun s => pure (timerTick s)) t

/-- The ticks that `sleep` is to wait for, in exact arithmetic. -/
def exactTicks (t : Timer) (ms : BitVec 32) : Nat := ms.toNat * t.clocksPerSecond.toNat / 1000

/-- `sleep` returns, and does so after the right number of ticks. -/
def SleepsRight (t : Timer) (ms : BitVec 32) : Prop := Ensures (sleep t ms) (fun r => r.2.length = exactTicks t ms + 1)

/-- A wait for the last value of the counter does not end. -/
theorem wait_diverges {target : BitVec 32} (htarget : target.toNat + 1 = 2 ^ 32) (t : Timer) :
    Diverges (visits (fun s => s.ticks ≤ target) (fun s => pure (timerTick s)) t) := by
  refine diverges_loop (fun _ => True) ?_ (fun _ _ _ _ => trivial) trivial
  intro p _
  have := p.1.ticks.isLt
  rw [decide_eq_true_eq, BitVec.le_def]
  omega

/-- A wait for any other value ends after the ticks up to it, and one more. -/
theorem wait_visits {target : BitVec 32} (htarget : target.toNat + 1 < 2 ^ 32) (t : Timer) :
    ∃ s vs, Visits (fun s => s.ticks ≤ target) (fun s => pure (timerTick s)) t vs s ∧
      vs.length = target.toNat + 1 - t.ticks.toNat := by
  induction hn : target.toNat + 1 - t.ticks.toNat generalizing t with
  | zero =>
    refine ⟨t, [], .exit ?_, rfl⟩
    rw [decide_eq_false_iff_not, BitVec.le_def]
    omega
  | succ n ih =>
    have hle : t.ticks ≤ target := by
      rw [BitVec.le_def]
      omega
    have hnext : (timerTick t).ticks.toNat = t.ticks.toNat + 1 := by
      have hone : (1 : BitVec 32).toNat = 1 := rfl
      rw [timerTick, BitVec.toNat_add]
      omega
    obtain ⟨s, vs, hvs, hlen⟩ := ih (timerTick t) (by omega)
    exact ⟨s, t :: vs, .turn (decide_eq_true hle) (returns_pure.mpr rfl) hvs, congrArg (· + 1) hlen⟩

/-- How long `sleep` takes. -/
theorem sleepsRight_iff_target (t : Timer) (ms : BitVec 32) :
    SleepsRight t ms ↔
      (targetTicks t ms).toNat + 1 < 2 ^ 32 ∧ (targetTicks t ms).toNat + 1 - t.ticks.toNat = exactTicks t ms + 1 := by
  by_cases htarget : (targetTicks t ms).toNat + 1 < 2 ^ 32
  · obtain ⟨s, vs, hvs, hlen⟩ := wait_visits htarget t
    rw [SleepsRight, sleep, (returns_visits.mpr hvs).ensures_iff, hlen]
    exact (and_iff_right htarget).symm
  · have hlast := (targetTicks t ms).isLt
    refine iff_of_false ?_ (fun h => htarget h.1)
    rintro ⟨r, hr, _⟩
    exact (wait_diverges (by omega) t).not_returns r hr

theorem toNat_targetTicks (t : Timer) (ms : BitVec 32) :
    (targetTicks t ms).toNat =
      (t.ticks.toNat + ms.toNat * t.clocksPerSecond.toNat % 2 ^ 32 / 1000) % 2 ^ 32 := by
  have hthousand : (1000 : BitVec 32).toNat = 1000 := rfl
  rw [targetTicks, BitVec.toNat_add, BitVec.toNat_udiv, BitVec.toNat_mul, hthousand]

/-- `sleep` returns after the right number of ticks exactly when neither the product nor the tick to wait for wraps, and that tick is
not the last one the counter can show. -/
theorem sleepsRight_iff (t : Timer) (ms : BitVec 32) :
    SleepsRight t ms ↔
      ms.toNat * t.clocksPerSecond.toNat < 2 ^ 32 ∧ t.ticks.toNat + exactTicks t ms + 1 < 2 ^ 32 := by
  rw [sleepsRight_iff_target, toNat_targetTicks, exactTicks]
  have hticks := t.ticks.isLt
  generalize ms.toNat * t.clocksPerSecond.toNat = product
  omega

/-- One millisecond, at a thousand ticks a second, just before the counter wraps: the wait is for its last value, and does not
end. -/
theorem sleep_stuck : ¬SleepsRight { ticks := 0xFFFFFFFE, clocksPerSecond := 1000 } 1 := by
  rw [sleepsRight_iff_target]
  decide

end LumOS
