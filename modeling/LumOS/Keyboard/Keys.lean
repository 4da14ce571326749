import LumOS.Keyboard.Basic
import LumOS.Lib.Flags

/-!
# Keys

What a keyboard may send, and which keys are held: a key sends its make code, again and again while it is held, and its break code
when it is released. A flag that some keys set when they go down and clear when they come up is `Latches`; it is set exactly while
one of them is held as long as none is released while another is held (`Latches.follows_run_iff`).
-/

namespace LumOS

/-- What a key sends. -/
inductive KeyEvent where
  | make (key : BitVec 7)
  | release (key : BitVec 7)
  deriving DecidableEq

/-- The make code of a key is its number, the break code has the highest bit set as well. -/
def KeyEvent.scancode : KeyEvent → BitVec 8
  | .make key => key.setWidth 8
  | .release key => key.setWidth 8 ||| 0x80

/-- The key that sends it. -/
def KeyEvent.key : KeyEvent → BitVec 7
  | .make key => key
  | .release key => key

/-- Which keys are held. -/
abbrev Held := BitVec 7 → Bool

/-- No key is held. -/
def Held.none : Held := fun _ => false

/-- The keys held after a key has sent something. -/
def Held.after (held : Held) : KeyEvent → Held
  | .make key => fun k => if k = key then true else held k
  | .release key => fun k => if k = key then false else held k

@[simp] theorem Held.after_make (held : Held) (key k : BitVec 7) :
    held.after (.make key) k = if k = key then true else held k := rfl

@[simp] theorem Held.after_release (held : Held) (key k : BitVec 7) :
    held.after (.release key) k = if k = key then false else held k := rfl

/-- The other keys stay as they are. -/
theorem Held.after_ne (held : Held) {e : KeyEvent} {k : BitVec 7} (h : k ≠ e.key) : held.after e k = held k := by
  cases e with
  | make key => exact if_neg h
  | release key => exact if_neg h

/-- A break code is sent only while its key is held. -/
def Sent (held : Held) : List KeyEvent → Prop
  | [] => True
  | .make key :: es => Sent (held.after (.make key)) es
  | .release key :: es => held key = true ∧ Sent (held.after (.release key)) es

/-! ## Flags that keys latch -/

namespace Effect

/-- The mask of the flags that an effect changes. -/
def mask : Effect → BitVec 8
  | .set mask => mask
  | .clear mask => mask
  | .toggle mask => mask
  | .keep => 0

/-- An effect keeps the other flags. -/
theorem hasFlag_apply {e : Effect} {m : BitVec 8} (s : BitVec 8) (h : hasFlag e.mask m = false) :
    hasFlag (e.apply s) m = hasFlag s m := by
  cases e with
  | set mask => rw [apply, hasFlag_or, show hasFlag mask m = false from h, Bool.or_false]
  | clear mask => exact hasFlag_and_not s h
  | toggle mask => exact hasFlag_xor s h
  | keep => rfl

end Effect

/-- A key that prints nothing, with or without shift. -/
def Silent (scancode : BitVec 8) : Prop := scancode &&& 0x80 ≠ 0 ∨ kbdus scancode = 0 ∧ kbdusShift scancode = 0

instance (scancode : BitVec 8) : Decidable (Silent scancode) := inferInstanceAs (Decidable (_ ∨ _))

theorem Silent.not_prints {scancode : BitVec 8} (h : Silent scancode) (s : BitVec 8) : ¬Prints s scancode := by
  rintro ⟨hmake, htemp⟩
  rcases h with h | ⟨hu, hs⟩
  · exact h hmake
  · apply htemp
    unfold keyTemp
    split
    · exact hu
    · exact hs

theorem nextStatus_of_silent {scancode : BitVec 8} (h : Silent scancode) (s : BitVec 8) :
    nextStatus s scancode = (keySwitch scancode).apply s := by
  rw [nextStatus, if_neg (h.not_prints s)]

/-- A scancode keeps the flags that its case of the `switch` does not change. -/
theorem hasFlag_nextStatus {scancode m : BitVec 8} (s : BitVec 8) (h : hasFlag (keySwitch scancode).mask m = false) :
    hasFlag (nextStatus s scancode) m = hasFlag s m := by
  unfold nextStatus
  split
  · rfl
  · exact Effect.hasFlag_apply s h

/-- The make codes of the keys set the flag and their break codes clear it, and no other code changes it. -/
structure Latches (mask : BitVec 8) (keys : List (BitVec 7)) : Prop where
  nonzero : hasFlag mask mask = true
  silent : ∀ key ∈ keys, Silent (KeyEvent.make key).scancode ∧ Silent (KeyEvent.release key).scancode
  make : ∀ key ∈ keys, keySwitch (KeyEvent.make key).scancode = .set mask
  release : ∀ key ∈ keys, keySwitch (KeyEvent.release key).scancode = .clear mask
  makeOther : ∀ key, key ∉ keys → hasFlag (keySwitch (KeyEvent.make key).scancode).mask mask = false
  releaseOther : ∀ key, key ∉ keys → hasFlag (keySwitch (KeyEvent.release key).scancode).mask mask = false

/-- The flag is set exactly while one of the keys is held. -/
def Follows (mask : BitVec 8) (keys : List (BitVec 7)) (held : Held) (s : BitVec 8) : Prop :=
  hasFlag s mask = true ↔ ∃ k ∈ keys, held k = true

/-- None of the keys is released while another of them is held. -/
def Alone (keys : List (BitVec 7)) (held : Held) : KeyEvent → Prop
  | .make _ => True
  | .release key => key ∈ keys → ∀ k ∈ keys, k ≠ key → held k = false

/-- In no step of a history is one of the keys released while another of them is held. -/
def Apart (keys : List (BitVec 7)) (held : Held) : List KeyEvent → Prop
  | [] => True
  | e :: es => Alone keys held e ∧ Apart keys (held.after e) es

section

variable {mask : BitVec 8} {keys : List (BitVec 7)} {held : Held} {s : BitVec 8}

/-- Another key keeps the flag, and the keys stay as they are. -/
theorem Latches.follows_other_iff (h : Latches mask keys) {e : KeyEvent} (he : e.key ∉ keys) :
    Follows mask keys (held.after e) (nextStatus s e.scancode) ↔ Follows mask keys held s := by
  have hflag : hasFlag (nextStatus s e.scancode) mask = hasFlag s mask := by
    cases e with
    | make key => exact hasFlag_nextStatus s (h.makeOther key he)
    | release key => exact hasFlag_nextStatus s (h.releaseOther key he)
  have hheld : (∃ k ∈ keys, held.after e k = true) ↔ ∃ k ∈ keys, held k = true := by
    refine exists_congr ?_
    intro k
    refine and_congr_right ?_
    intro hk
    rw [held.after_ne (fun hkey => he (hkey ▸ hk))]
  rw [Follows, Follows, hflag, hheld]

/-- A make code of one of the keys sets the flag. -/
theorem Latches.follows_make (h : Latches mask keys) {key : BitVec 7} (hkey : key ∈ keys) :
    Follows mask keys (held.after (.make key)) (nextStatus s (KeyEvent.make key).scancode) := by
  have hset : hasFlag (nextStatus s (KeyEvent.make key).scancode) mask = true := by
    rw [nextStatus_of_silent (h.silent key hkey).1, h.make key hkey, Effect.apply, hasFlag_or, h.nonzero, Bool.or_true]
  exact ⟨fun _ => ⟨key, hkey, if_pos rfl⟩, fun _ => hset⟩

/-- A break code of one of the keys clears the flag, which is right when no other one is held. -/
theorem Latches.follows_release_iff (h : Latches mask keys) {key : BitVec 7} (hkey : key ∈ keys) :
    Follows mask keys (held.after (.release key)) (nextStatus s (KeyEvent.release key).scancode) ↔
      Alone keys held (.release key) := by
  have hclear : hasFlag (nextStatus s (KeyEvent.release key).scancode) mask = false := by
    rw [nextStatus_of_silent (h.silent key hkey).2, h.release key hkey, Effect.apply, hasFlag_and_not_self]
  rw [Follows, hclear]
  constructor
  · intro hiff _ k hk hne
    rw [← Bool.not_eq_true]
    intro hheld
    exact Bool.false_ne_true (hiff.mpr ⟨k, hk, (held.after_ne hne).trans hheld⟩)
  · intro halone
    refine iff_of_false Bool.false_ne_true ?_
    rintro ⟨k, hk, hheld⟩
    rw [Held.after_release] at hheld
    split at hheld
    · cases hheld
    · rename_i hne
      rw [halone hkey k hk hne] at hheld
      cases hheld

/-- From a state in which the flag is right, it stays right exactly when no key is released while another one is held. -/
theorem Latches.follows_step_iff (h : Latches mask keys) (ht : Follows mask keys held s) (e : KeyEvent) :
    Follows mask keys (held.after e) (nextStatus s e.scancode) ↔ Alone keys held e := by
  by_cases hkey : e.key ∈ keys
  · cases e with
    | make key => exact iff_of_true (h.follows_make hkey) trivial
    | release key => exact h.follows_release_iff hkey
  · refine iff_of_true ((h.follows_other_iff hkey).mpr ht) ?_
    cases e with
    | make key => trivial
    | release key => exact fun hmem => absurd hmem hkey

/-- The flag is right all along a history exactly when in no step of it a key is released while another one is held. -/
theorem Latches.follows_run_iff (h : Latches mask keys) (ht : Follows mask keys held s) (es : List KeyEvent) :
    (∀ p, p <+: es → Follows mask keys (p.foldl Held.after held) ((p.map KeyEvent.scancode).foldl nextStatus s)) ↔
      Apart keys held es := by
  induction es generalizing held s with
  | nil =>
    refine iff_of_true ?_ trivial
    intro p hp
    rw [List.prefix_nil.mp hp]
    exact ht
  | cons e es ih =>
    constructor
    · intro hall
      have hstep : Follows mask keys (held.after e) (nextStatus s e.scancode) := hall [e] ⟨es, rfl⟩
      refine ⟨(h.follows_step_iff ht e).mp hstep, (ih hstep).mp ?_⟩
      intro p hp
      exact hall (e :: p) (List.cons_prefix_cons.mpr ⟨rfl, hp⟩)
    · rintro ⟨halone, hapart⟩ p hp
      cases p with
      | nil => exact ht
      | cons e' p =>
        obtain ⟨rfl, hrest⟩ := List.cons_prefix_cons.mp hp
        exact (ih ((h.follows_step_iff ht e').mpr halone)).mpr hapart p hrest

end

end LumOS
