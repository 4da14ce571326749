import LumOS.Keyboard.Keys

/-!
# Modifiers

The modifier flags of `status`, over all histories of the keyboard. Control and alt have one key each. Both shift keys share one
flag: it is cleared when one of them is released, also while the other one is held.
-/

namespace LumOS

open Comp

/-- The key with make code 0x1D. -/
def controlKey : BitVec 7 := 0x1D

/-- The key with make code 0x2A. -/
def leftShift : BitVec 7 := 0x2A

/-- The key with make code 0x36. -/
def rightShift : BitVec 7 := 0x36

/-- The key with make code 0x38. -/
def altKey : BitVec 7 := 0x38

theorem control_latches : Latches ctrl [controlKey] :=
  ⟨by decide, by decide, by decide, by decide, by decide, by decide⟩

theorem shift_latches : Latches shift [leftShift, rightShift] :=
  ⟨by decide, by decide, by decide, by decide, by decide, by decide⟩

theorem alt_latches : Latches alt [altKey] :=
  ⟨by decide, by decide, by decide, by decide, by decide, by decide⟩

/-- The modifier flags track the keys held: each is set exactly while a key of its is held. -/
structure ModifiersTrack (held : Held) (status : BitVec 8) : Prop where
  shift : hasFlag status shift = true ↔ held leftShift = true ∨ held rightShift = true
  ctrl : hasFlag status ctrl = true ↔ held controlKey = true
  alt : hasFlag status alt = true ↔ held altKey = true

theorem modifiersTrack_iff {held : Held} {status : BitVec 8} :
    ModifiersTrack held status ↔ Follows shift [leftShift, rightShift] held status ∧ Follows ctrl [controlKey] held status ∧
      Follows alt [altKey] held status := by
  have hone : ∀ {mask : BitVec 8} {key : BitVec 7},
      Follows mask [key] held status ↔ (hasFlag status mask = true ↔ held key = true) := by
    intro mask key
    simp [Follows]
  have htwo : Follows shift [leftShift, rightShift] held status ↔
      (hasFlag status shift = true ↔ held leftShift = true ∨ held rightShift = true) := by
    simp [Follows]
  rw [hone, hone, htwo]
  exact ⟨fun h => ⟨h.shift, h.ctrl, h.alt⟩, fun h => ⟨h.1, h.2.1, h.2.2⟩⟩

/-- A single key is never released while another one of its flag's is held. -/
theorem apart_singleton (key : BitVec 7) (held : Held) (es : List KeyEvent) : Apart [key] held es := by
  induction es generalizing held with
  | nil => trivial
  | cons e es ih =>
    refine ⟨?_, ih _⟩
    cases e with
    | make _ => trivial
    | release k =>
      intro hk j hj hne
      rw [List.mem_singleton.mp hk, List.mem_singleton.mp hj] at hne
      exact absurd rfl hne

/-- Before any key is held, with `status` zero. -/
theorem follows_none {mask : BitVec 8} {keys : List (BitVec 7)} : Follows mask keys Held.none 0 := by
  rw [Follows, hasFlag_zero]
  simp [Held.none]

/-- What `status` is after a history. -/
theorem status_foldl (kb : Keyboard) (codes : List (BitVec 8)) :
    (codes.foldl Keyboard.after kb).status = codes.foldl nextStatus kb.status := by
  induction codes generalizing kb with
  | nil => rfl
  | cons data codes ih => exact ih (kb.after data)

/-- What holds of `status` after a history from `status` zero on. -/
theorem ensures_deliver_iff (stack : CharPtr) (kb : Keyboard) (codes : List (BitVec 8)) (Q : BitVec 8 → Prop) :
    Ensures (deliver stack (initKeyboard kb) codes) (fun kb' => Q kb'.status) ↔ Q (codes.foldl nextStatus 0) := by
  rw [(deliver_returns stack (initKeyboard kb) codes).ensures_iff, status_foldl]
  rfl

/-- From `status` zero on, the modifier flags track the keys held all along a history exactly when in no step of it a shift key is
released while the other one is held. -/
theorem modifiers_track_iff (stack : CharPtr) (kb : Keyboard) (es : List KeyEvent) :
    (∀ p, p <+: es → Ensures (deliver stack (initKeyboard kb) (p.map KeyEvent.scancode))
      (fun kb' => ModifiersTrack (p.foldl Held.after Held.none) kb'.status)) ↔
      Apart [leftShift, rightShift] Held.none es := by
  simp only [ensures_deliver_iff stack kb _ (ModifiersTrack _)]
  rw [← shift_latches.follows_run_iff follows_none es]
  constructor
  · intro h p hp
    exact (modifiersTrack_iff.mp (h p hp)).1
  · intro h p hp
    refine modifiersTrack_iff.mpr ⟨h p hp, ?_, ?_⟩
    · exact (control_latches.follows_run_iff follows_none es).mpr (apart_singleton _ _ _) p hp
    · exact (alt_latches.follows_run_iff follows_none es).mpr (apart_singleton _ _ _) p hp

/-- Left shift goes down, right shift goes down, left shift comes up: the right one is held, and the flag is not set. -/
theorem shift_lost : Sent Held.none [.make leftShift, .make rightShift, .release leftShift] ∧
    ([KeyEvent.make leftShift, .make rightShift, .release leftShift].foldl Held.after Held.none) rightShift = true ∧
    ∃ kb, Returns (deliver (fun _ => 0) (initKeyboard { scancode := 0, lastScancode := 0, status := 0, out := [] })
      ([KeyEvent.make leftShift, .make rightShift, .release leftShift].map KeyEvent.scancode)) kb ∧
      hasFlag kb.status shift = false := by
  refine ⟨?_, by decide, _, deliver_returns _ _ _, by decide⟩
  exact ⟨by decide, trivial⟩

end LumOS
