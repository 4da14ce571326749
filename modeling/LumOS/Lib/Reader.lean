import Mathlib.Data.List.TakeWhile

/-!
# Readers of texts

A `Reader` reads a value from the beginning of a text and leaves the rest. `Reads p text a` says that `p` reads `a` from `text`, whatever
comes after it, and `Fails p text` that it reads nothing from such a text. A sequence of readers reads the texts one after the other, and
an alternative is read by its second reader when the first fails. `readText` reads values until the text is over, and gives back those
that a text was put together from (`readText_flatMap`); `many` does so up to a text that its reader fails on (`Reads.many_bind`), and `skip`
passes over a number of texts (`reads_skip`).
-/

/-- A reader: what it has read from the beginning of a text, and the rest. -/
abbrev Reader (γ β : Type) := StateT (List γ) Option β

namespace Reader

variable {γ α β : Type}

/-- The reader reads this value from the text, whatever comes after it. -/
def Reads (p : Reader γ β) (text : List γ) (b : β) : Prop := ∀ rest, p.run (text ++ rest) = some (b, rest)

/-- The reader reads nothing from a text that begins so. -/
def Fails (p : Reader γ β) (text : List γ) : Prop := ∀ rest, p.run (text ++ rest) = none

/-! ## Sequences and alternatives -/

theorem reads_pure (b : β) : Reads (pure b : Reader γ β) [] b := fun _ => rfl

theorem Reads.bind {p : Reader γ α} {f : α → Reader γ β} {s t : List γ} {a : α} {b : β} (hp : Reads p s a) (hf : Reads (f a) t b) :
    Reads (p >>= f) (s ++ t) b := by
  intro rest
  rw [StateT.run_bind, List.append_assoc, hp]
  exact hf rest

theorem Reads.bind_pure {p : Reader γ α} {s : List γ} {a : α} (hp : Reads p s a) (f : α → β) :
    Reads (p >>= fun a => pure (f a)) s (f a) := by
  have hbind := hp.bind (f := fun a => pure (f a)) (reads_pure (f a))
  rwa [List.append_nil] at hbind

theorem Fails.bind {p : Reader γ α} {f : α → Reader γ β} {s : List γ} (hp : Fails p s) : Fails (p >>= f) s := by
  intro rest
  rw [StateT.run_bind, hp]
  rfl

theorem Fails.append {p : Reader γ β} {s : List γ} (hp : Fails p s) (t : List γ) : Fails p (s ++ t) := by
  intro rest
  rw [List.append_assoc]
  exact hp _

/-- An alternative that its first reader reads. -/
theorem Reads.orElse_left {p : Reader γ β} {s : List γ} {b : β} (hp : Reads p s b) (q : Reader γ β) : Reads (p <|> q) s b := by
  intro rest
  show (p.run (s ++ rest) <|> q.run (s ++ rest)) = _
  rw [hp]
  rfl

/-- An alternative that its second reader reads. -/
theorem Reads.orElse_right {p q : Reader γ β} {s : List γ} {b : β} (hq : Reads q s b) (hp : Fails p s) : Reads (p <|> q) s b := by
  intro rest
  show (p.run (s ++ rest) <|> q.run (s ++ rest)) = _
  rw [hp, hq]
  rfl

/-! ## Given texts, and fields up to a character -/

section

variable [DecidableEq γ]

/-- Read a given text. -/
def exactly (s : List γ) : Reader γ Unit := fun t => if s <+: t then some ((), t.drop s.length) else none

theorem reads_exactly (s : List γ) : Reads (exactly s) s () := by
  intro rest
  show (if s <+: s ++ rest then some ((), (s ++ rest).drop s.length) else none) = _
  rw [if_pos (List.prefix_append s rest), List.drop_left]

/-- A text that begins with another character. -/
theorem exactly_fails {c d : γ} {s t : List γ} (hs : s.head? = some c) (ht : t.head? = some d) (h : c ≠ d) : Fails (exactly s) t := by
  obtain ⟨s', rfl⟩ := List.head?_eq_some_iff.mp hs
  obtain ⟨t', rfl⟩ := List.head?_eq_some_iff.mp ht
  intro rest
  refine if_neg (fun hpre => h ?_)
  rw [List.cons_append] at hpre
  exact (List.cons_prefix_cons.mp hpre).1

/-- Read what comes before a character, and the character. -/
def field (read : List γ → Option β) (stop : γ) : Reader γ β := fun t =>
  match t.dropWhile (· ≠ stop) with
  | [] => none
  | _ :: rest => (read (t.takeWhile (· ≠ stop))).map (fun b => (b, rest))

theorem reads_field {read : List γ → Option β} {stop : γ} {s : List γ} {b : β} (hread : read s = some b) (hstop : ∀ c ∈ s, c ≠ stop) :
    Reads (field read stop) (s ++ [stop]) b := by
  intro rest
  have hall : ∀ c ∈ s, decide (c ≠ stop) = true := fun c hc => decide_eq_true (hstop c hc)
  have htake : ((s ++ [stop]) ++ rest).takeWhile (· ≠ stop) = s := by
    rw [List.append_assoc, List.takeWhile_append_of_pos hall]
    simp
  have hdrop : ((s ++ [stop]) ++ rest).dropWhile (· ≠ stop) = stop :: rest := by
    rw [List.append_assoc, List.dropWhile_append_of_pos hall]
    simp
  show (match ((s ++ [stop]) ++ rest).dropWhile (· ≠ stop) with
    | [] => none
    | _ :: rest' => (read (((s ++ [stop]) ++ rest).takeWhile (· ≠ stop))).map (fun b => (b, rest'))) = _
  rw [hdrop, htake, hread]
  rfl

end

/-! ## Texts put together from values -/

/-- Read values until the text is over, a number of them at most. -/
def readAll (p : Reader γ β) : Nat → List γ → Option (List β)
  | _, [] => some []
  | 0, _ :: _ => none
  | n + 1, c :: t => (p.run (c :: t)).bind (fun r => (readAll p n r.2).map (r.1 :: ·))

/-- Read values until the text is over. -/
def readText (p : Reader γ β) (t : List γ) : Option (List β) := readAll p t.length t

theorem readAll_flatMap {p : Reader γ β} {text : β → List γ} (h : ∀ b, Reads p (text b) b) (hne : ∀ b, text b ≠ []) :
    ∀ {bs : List β} {n : Nat}, (bs.flatMap text).length ≤ n → readAll p n (bs.flatMap text) = some bs := by
  intro bs
  induction bs with
  | nil =>
    intro n _
    cases n <;> rfl
  | cons b bs ih =>
    intro n hn
    rw [List.flatMap_cons] at hn ⊢
    have hread := h b (bs.flatMap text)
    obtain ⟨c, s, hs⟩ := List.exists_cons_of_ne_nil (hne b)
    rw [hs, List.cons_append] at hn hread ⊢
    cases n with
    | zero => exact absurd hn (Nat.not_succ_le_zero _)
    | succ n =>
      rw [List.length_cons, List.length_append] at hn
      rw [readAll, hread, Option.bind_some, ih (by omega), Option.map_some]

/-- What a text was put together from is read back. -/
theorem readText_flatMap {p : Reader γ β} {text : β → List γ} (h : ∀ b, Reads p (text b) b) (hne : ∀ b, text b ≠ [])
    (bs : List β) : readText p (bs.flatMap text) = some bs :=
  readAll_flatMap h hne (Nat.le_refl _)

/-! ## Several values in front of something else -/

/-- Read a number of values, and forget them. -/
def skip (p : Reader γ β) : Nat → Reader γ Unit
  | 0 => pure ()
  | n + 1 => do
    let _ ← p
    skip p n

theorem reads_skip {p : Reader γ β} {texts : List (List γ)} (h : ∀ t ∈ texts, ∃ b, Reads p t b) :
    Reads (skip p texts.length) texts.flatten () := by
  induction texts with
  | nil => exact reads_pure ()
  | cons t texts ih =>
    rw [List.forall_mem_cons] at h
    obtain ⟨b, hb⟩ := h.1
    exact hb.bind (ih h.2)

/-- Read one value, and then several. -/
def readCons (p : Reader γ β) (q : Reader γ (List β)) : Reader γ (List β) := do
  let b ← p
  let bs ← q
  return b :: bs

/-- Read values as long as there is one, a number of them at most. -/
def manyUpTo (p : Reader γ β) : Nat → Reader γ (List β)
  | 0 => pure []
  | n + 1 => readCons p (manyUpTo p n) <|> pure []

/-- Read values as long as there is one. -/
def many (p : Reader γ β) : Reader γ (List β) := fun t => (manyUpTo p t.length).run t

theorem run_manyUpTo {p : Reader γ β} {text : β → List γ} (h : ∀ b, Reads p (text b) b) {t : List γ} (hfails : Fails p t)
    (rest : List γ) : ∀ {bs : List β} {n : Nat}, bs.length ≤ n →
    (manyUpTo p n).run (bs.flatMap text ++ (t ++ rest)) = some (bs, t ++ rest) := by
  intro bs
  induction bs with
  | nil =>
    intro n _
    cases n with
    | zero => rfl
    | succ n =>
      have hcons : Fails (readCons p (manyUpTo p n)) t := hfails.bind
      show ((readCons p (manyUpTo p n)).run (t ++ rest) <|> (pure [] : Reader γ (List β)).run (t ++ rest)) = _
      rw [hcons]
      rfl
  | cons b bs ih =>
    intro n hn
    cases n with
    | zero => exact absurd hn (Nat.not_succ_le_zero _)
    | succ n =>
      have hmore := ih (Nat.le_of_succ_le_succ hn)
      have hcons : (readCons p (manyUpTo p n)).run ((b :: bs).flatMap text ++ (t ++ rest)) = some (b :: bs, t ++ rest) := by
        rw [readCons, StateT.run_bind, List.flatMap_cons, List.append_assoc, h]
        show ((manyUpTo p n >>= fun bs => pure (b :: bs)).run (bs.flatMap text ++ (t ++ rest))) = _
        rw [StateT.run_bind, hmore]
        rfl
      show ((readCons p (manyUpTo p n)).run ((b :: bs).flatMap text ++ (t ++ rest)) <|>
        (pure [] : Reader γ (List β)).run ((b :: bs).flatMap text ++ (t ++ rest))) = _
      rw [hcons]
      rfl

theorem length_le_flatMap {text : β → List γ} (hne : ∀ b, text b ≠ []) (bs : List β) : bs.length ≤ (bs.flatMap text).length := by
  induction bs with
  | nil => exact Nat.zero_le _
  | cons b bs ih =>
    have hpos := List.length_pos_iff.mpr (hne b)
    rw [List.flatMap_cons, List.length_cons, List.length_append]
    omega

/-- Values in front of a text on which their reader fails. -/
theorem Reads.many_bind {p : Reader γ β} {text : β → List γ} (h : ∀ b, Reads p (text b) b) (hne : ∀ b, text b ≠ []) {bs : List β}
    {f : List β → Reader γ α} {t : List γ} {a : α} (hfails : Fails p t) (hf : Reads (f bs) t a) :
    Reads (many p >>= f) (bs.flatMap text ++ t) a := by
  intro rest
  have hlen := length_le_flatMap hne bs
  rw [StateT.run_bind, List.append_assoc]
  have hmany : (many p).run (bs.flatMap text ++ (t ++ rest)) = some (bs, t ++ rest) := by
    refine run_manyUpTo h hfails rest ?_
    rw [List.length_append]
    omega
  rw [hmany]
  exact hf rest

end Reader
