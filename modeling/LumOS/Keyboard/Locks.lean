import LumOS.Keyboard.Modifiers

/-!
# Locks

The lock flags of `status`, over all histories of the keyboard. A lock key turns its flag over with every make code it sends
(`Toggles`), and it goes on sending them while it is held; the handler does not look at `lastScancode`, from which it could tell.
-/

namespace LumOS

open Comp

/-- The key with make code 0x3A. -/
def capsLockKey : BitVec 7 := 0x3A

/-- The key with make code 0x45. -/
def numLockKey : BitVec 7 := 0x45

/-- The key with make code 0x46. -/
def scrollLockKey : BitVec 7 := 0x46

/-- The make codes that a key sends while it is held already, or while it is not. -/
def makesWhile (down : Bool) (key : BitVec 7) (held : Held) : List KeyEvent → Nat
  | [] => 0
  | e :: es => (if e = .make key ∧ held key = down then 1 else 0) + makesWhile down key (held.after e) es

/-- The physical presses of a key: the make codes it sends when it is not held. -/
def presses (key : BitVec 7) (es : List KeyEvent) : Nat := makesWhile false key Held.none es

/-- The make codes that a key sends again while it is held. -/
def repeats (key : BitVec 7) (es : List KeyEvent) : Nat := makesWhile true key Held.none es

/-- The make codes of a key are its presses and their repetitions. -/
theorem count_make (key : BitVec 7) (held : Held) (es : List KeyEvent) :
    es.count (.make key) = makesWhile false key held es + makesWhile true key held es := by
  induction es generalizing held with
  | nil => rfl
  | cons e es ih =>
    rw [List.count_cons, ih (held.after e), makesWhile, makesWhile]
    by_cases he : e = .make key
    · cases hheld : held key <;> simp [he] <;> omega
    · simp [he]

/-- The make code of the key turns the flag over, and no other code changes it. -/
structure Toggles (mask : BitVec 8) (key : BitVec 7) : Prop where
  single : ∃ i < 8, mask = BitVec.twoPow 8 i
  silent : Silent (KeyEvent.make key).scancode
  make : keySwitch (KeyEvent.make key).scancode = .toggle mask
  makeOther : ∀ k, k ≠ key → hasFlag (keySwitch (KeyEvent.make k).scancode).mask mask = false
  release : ∀ k, hasFlag (keySwitch (KeyEvent.release k).scancode).mask mask = false

theorem capsLock_toggles : Toggles capsLock capsLockKey :=
  ⟨⟨2, by decide, by decide⟩, by decide, by decide, by decide, by decide⟩

theorem numLock_toggles : Toggles numLock numLockKey :=
  ⟨⟨3, by decide, by decide⟩, by decide, by decide, by decide, by decide⟩

theorem scrollLock_toggles : Toggles scrollLock scrollLockKey :=
  ⟨⟨4, by decide, by decide⟩, by decide, by decide, by decide, by decide⟩

section

variable {mask : BitVec 8} {key : BitVec 7}

theorem Toggles.make_step (h : Toggles mask key) (s : BitVec 8) :
    hasFlag (nextStatus s (KeyEvent.make key).scancode) mask = !hasFlag s mask := by
  obtain ⟨i, hi, hmask⟩ := h.single
  rw [nextStatus_of_silent h.silent, h.make, Effect.apply, hmask]
  exact hasFlag_xor_twoPow s hi

theorem Toggles.other_step (h : Toggles mask key) (s : BitVec 8) {e : KeyEvent} (he : e ≠ .make key) :
    hasFlag (nextStatus s e.scancode) mask = hasFlag s mask := by
  cases e with
  | make k =>
    refine hasFlag_nextStatus s (h.makeOther k ?_)
    rintro rfl
    exact he rfl
  | release k => exact hasFlag_nextStatus s (h.release k)

/-- After a history the flag has been turned over once for each make code of the key. -/
theorem Toggles.run (h : Toggles mask key) (s : BitVec 8) (es : List KeyEvent) :
    hasFlag ((es.map KeyEvent.scancode).foldl nextStatus s) mask =
      (hasFlag s mask ^^ decide (es.count (.make key) % 2 = 1)) := by
  induction es generalizing s with
  | nil => simp
  | cons e es ih =>
    rw [List.map_cons, List.foldl_cons, ih]
    by_cases he : e = .make key
    · subst he
      have hodd : decide ((es.count (.make key) + 1) % 2 = 1) = !decide (es.count (.make key) % 2 = 1) := by
        rw [← decide_not]
        exact decide_eq_decide.mpr (by omega)
      rw [h.make_step, List.count_cons_self, hodd, Bool.not_xor, Bool.xor_not]
    · rw [h.other_step s he, List.count_cons_of_ne he]

/-- From `status` zero on, the flag is the parity of the physical presses exactly when the key has been repeated an even number of
times. -/
theorem Toggles.parity_iff (h : Toggles mask key) (es : List KeyEvent) :
    (hasFlag ((es.map KeyEvent.scancode).foldl nextStatus 0) mask = true ↔ presses key es % 2 = 1) ↔
      repeats key es % 2 = 0 := by
  rw [h.run, hasFlag_zero, Bool.false_xor, decide_eq_true_eq, count_make key Held.none, presses, repeats]
  omega

end

/-- Each lock flag is the parity of the physical presses of its key. -/
structure LocksTrack (es : List KeyEvent) (status : BitVec 8) : Prop where
  capsLock : hasFlag status capsLock = true ↔ presses capsLockKey es % 2 = 1
  numLock : hasFlag status numLock = true ↔ presses numLockKey es % 2 = 1
  scrollLock : hasFlag status scrollLock = true ↔ presses scrollLockKey es % 2 = 1

/-- From `status` zero on, the lock flags are the parities of the physical presses after a history exactly when in it each lock key
has sent an even number of make codes while it was held already. -/
theorem locks_track_iff (stack : CharPtr) (kb : Keyboard) (es : List KeyEvent) :
    Ensures (deliver stack (initKeyboard kb) (es.map KeyEvent.scancode)) (fun kb' => LocksTrack es kb'.status) ↔
      repeats capsLockKey es % 2 = 0 ∧ repeats numLockKey es % 2 = 0 ∧ repeats scrollLockKey es % 2 = 0 := by
  rw [ensures_deliver_iff stack kb _ (LocksTrack es), ← capsLock_toggles.parity_iff, ← numLock_toggles.parity_iff,
    ← scrollLock_toggles.parity_iff]
  exact ⟨fun h => ⟨h.capsLock, h.numLock, h.scrollLock⟩, fun h => ⟨h.1, h.2.1, h.2.2⟩⟩

/-- Caps lock goes down and is held until it has been repeated once: one press, and the flag is not set. -/
theorem capsLock_lost : presses capsLockKey [.make capsLockKey, .make capsLockKey] = 1 ∧
    ∃ kb, Returns (deliver (fun _ => 0) (initKeyboard { scancode := 0, lastScancode := 0, status := 0, out := [] })
      ([KeyEvent.make capsLockKey, .make capsLockKey].map KeyEvent.scancode)) kb ∧ hasFlag kb.status capsLock = false ∧
      ¬LocksTrack [.make capsLockKey, .make capsLockKey] kb.status := by
  refine ⟨by decide, _, deliver_returns _ _ _, by decide, ?_⟩
  intro h
  exact absurd (h.capsLock.mpr (by decide)) (by decide)

end LumOS
