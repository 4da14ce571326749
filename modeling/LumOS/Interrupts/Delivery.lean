import LumOS.Interrupts.Service

/-!
# Interrupts and scancodes are accounted for

The records of the machine are in agreement with what has happened (`Recorded`): each interrupt that is accepted leads to one call of
`irq_handler`, in order (`interrupts_handled`), and each byte of the keyboard is dropped before the handler is in use or given to it, once
and in order (`scancodes_delivered`).
-/

namespace LumOS

open System

/-- The vector of the interrupt whose handler has not been called yet. -/
def Cpu.pending : Cpu → List (BitVec 32)
  | .irq (.dispatch _ idtNum :: _) => [idtNum]
  | _ => []

/-- The handlers that the kernel registers. -/
def Registered (handlers : BitVec 32 → Option Handler) : Prop :=
  ∀ idtNum handler, handlers idtNum = some handler → idtNum = 32 ∧ handler = .timerTick ∨ idtNum = 33 ∧ handler = .keyboardHandler

/-- What a call of `irq_handler` can be: for line 0, before or after its handler is registered, for line 1, or for line 7, which is that
of an interrupt that is gone. -/
def IrqCall.Expected (c : IrqCall) : Prop :=
  c = ⟨0, 32, some .timerTick⟩ ∨ c = ⟨0, 32, none⟩ ∨ c = ⟨1, 33, some .keyboardHandler⟩ ∨ c = ⟨7, 39, none⟩

/-- How many times a handler has been called. -/
def countCalls (handler : Handler) (calls : List IrqCall) : Nat := calls.countP (fun c => c.handler = some handler)

@[simp] theorem countCalls_append (handler : Handler) (calls : List IrqCall) (c : IrqCall) :
    countCalls handler (calls ++ [c]) = countCalls handler calls + if c.handler = some handler then 1 else 0 := by
  simp [countCalls, List.countP_append, List.countP_singleton]

namespace Board

/-- What the records say. -/
structure Recorded (kb : Keyboard) (b : Board) : Prop where
  handlers : Registered b.setup.handlers
  vectors : b.accepted.map (fun v => v.setWidth 32) = b.calls.map IrqCall.idtNum ++ b.cpu.pending
  expected : ∀ c ∈ b.calls, c.Expected
  ticks : b.ticks = BitVec.ofNat 32 (countCalls .timerTick b.calls)
  calls : b.received.length = countCalls .keyboardHandler b.calls
  bytes : b.sent = b.dropped ++ b.received ++ b.port.pending
  unused : .clearStatus ∈ b.main → b.received = []
  keyboard : b.keyboard = b.received.foldl Keyboard.after (if .clearStatus ∈ b.main then kb else initKeyboard kb)
  full : 33 ∈ b.cpu.pending → b.port.full = true
  edge : b.port.full = true → b.port.edge = true ∨ 33 ∈ b.cpu.pending ∨ .drain ∈ b.main

section

variable {targetFrequency : BitVec 32} {kb : Keyboard} {b b' : Board} {op : Op} {ops rest : List Op} {irqNum idtNum : BitVec 32}

/-! ## The call that is to come -/

/-- A handler begins with its call. -/
theorem dispatch_of_suffix {n v : BitVec 32} (h : .dispatch irqNum idtNum :: ops <:+ irqHandler n v) : irqNum = n ∧ idtNum = v := by
  have hmem := h.subset List.mem_cons_self
  rcases mem_irqHandler hmem with h | h | h
  · injection h with h1 h2
    exact ⟨h1, h2⟩
  · cases h
  · cases h

theorem sendEoi_pending {n : BitVec 32} (h : ops <:+ sendEoi n) : Cpu.pending (.irq ops) = [] := by
  cases ops with
  | nil => rfl
  | cons op ops =>
    have hmem := h.subset List.mem_cons_self
    cases op with
    | dispatch i j =>
      rw [sendEoi] at hmem
      split at hmem <;> simp at hmem
    | _ => rfl

/-- Once it is called no other is to come. -/
theorem Serving.pending_tail {s : Setup} {n : Nat} (h : Serving s (op :: ops) n) : Cpu.pending (.irq ops) = [] := by
  have htail := h.tail
  rw [irqHandler, List.suffix_cons_iff] at htail
  rcases htail with heq | hsuffix
  · rw [(List.cons.inj heq).2]
    exact sendEoi_pending (List.suffix_refl _)
  · exact sendEoi_pending ((List.suffix_cons op ops).trans hsuffix)

/-- What a call of `irq_handler` finds. -/
inductive Finds (b : Board) : BitVec 32 → BitVec 32 → Prop where
  | timer (h : b.setup.handlers 32 = some .timerTick) : Finds b 0 32
  | early (h : b.setup.handlers 32 = none) (hmain : .registerInterruptHandler 32 .timerTick ∈ b.main) : Finds b 0 32
  | keyboard (h : b.setup.handlers 33 = some .keyboardHandler) (hdrain : .drain ∉ b.main) (hclear : .clearStatus ∉ b.main) : Finds b 1 33
  | gone (h : b.setup.handlers 39 = none) : Finds b 7 39

theorem Sound.finds (h : Sound targetFrequency b) (hr : Registered b.setup.handlers)
    (hcpu : b.cpu = .irq (.dispatch irqNum idtNum :: ops)) : Finds b irqNum idtNum := by
  obtain ⟨-, hload, n, hserving⟩ := h.irq hcpu
  have henabled := h.enabled hload
  obtain ⟨rfl, rfl⟩ := dispatch_of_suffix hserving.tail
  rcases h.line_cases hload hserving with rfl | ⟨rfl, hmask⟩ | rfl
  · rcases henabled.timer with htimer | hmain
    · exact .timer htimer
    · cases hfound : b.setup.handlers 32 with
      | none => exact .early hfound hmain
      | some handler =>
        rcases hr 32 handler hfound with ⟨-, rfl⟩ | ⟨hne, -⟩
        · exact .timer hfound
        · cases hne
  · obtain ⟨hfound, hdrain, hclear⟩ := henabled.keyboard hmask
    exact .keyboard hfound hdrain hclear
  · refine .gone ?_
    cases hfound : b.setup.handlers 39 with
    | none => rfl
    | some handler => rcases hr 39 handler hfound with ⟨hne, -⟩ | ⟨hne, -⟩ <;> cases hne

/-! ## The steps -/

/-- The setup, the interrupt flag, the rest of the program and that of a handler that has been called are not recorded. -/
theorem Recorded.frame (h : Recorded kb b) {s : Setup} {iflag : Bool} {main : List Op} {cpu : Cpu} (hs : Registered s.handlers)
    (hdrain : .drain ∈ main ↔ .drain ∈ b.main) (hclear : .clearStatus ∈ main ↔ .clearStatus ∈ b.main)
    (hcpu : cpu.pending = b.cpu.pending) : Recorded kb { b with setup := s, iflag := iflag, main := main, cpu := cpu } where
  handlers := hs
  vectors := by
    simp only [hcpu]
    exact h.vectors
  expected := h.expected
  ticks := h.ticks
  calls := h.calls
  bytes := h.bytes
  unused := fun hmem => h.unused (hclear.mp hmem)
  keyboard := by
    simp only [hclear]
    exact h.keyboard
  full := by
    simp only [hcpu]
    exact h.full
  edge := by
    simp only [hdrain, hcpu]
    exact h.edge

/-- A call that leaves the keyboard alone: of `timer_tick`, or of no handler. -/
theorem Recorded.call_other (h : Recorded kb b) {handler : Option Handler} {ticks : BitVec 32} (hpending : b.cpu.pending = [idtNum])
    (htail : Cpu.pending (.irq ops) = []) (hexpected : IrqCall.Expected ⟨irqNum, idtNum, handler⟩) (hother : idtNum ≠ 33)
    (hticks : ticks = b.ticks + if handler = some .timerTick then 1 else 0) (hhandler : handler ≠ some .keyboardHandler) :
    Recorded kb { b with ticks := ticks, calls := b.calls ++ [⟨irqNum, idtNum, handler⟩], cpu := .irq ops } where
  handlers := h.handlers
  vectors := by
    have hvectors := h.vectors
    rw [hpending] at hvectors
    simp only [htail, List.map_append, List.map_cons, List.map_nil, List.append_nil]
    exact hvectors
  expected := by
    intro c hc
    rcases List.mem_append.mp hc with hc | hc
    · exact h.expected c hc
    · rw [List.mem_singleton.mp hc]
      exact hexpected
  ticks := by
    rw [countCalls_append, BitVec.ofNat_add, ← h.ticks, hticks]
    split <;> rfl
  calls := by
    rw [countCalls_append, if_neg hhandler]
    exact h.calls
  bytes := h.bytes
  unused := h.unused
  keyboard := h.keyboard
  full := by
    rw [htail]
    simp
  edge := by
    intro hfull
    refine (h.edge hfull).imp_right (fun hrest => Or.inr (hrest.resolve_left ?_))
    rw [hpending, List.mem_singleton]
    exact Ne.symm hother

/-- A call of `keyboard_handler`: the byte is given to it. -/
theorem Recorded.call_keyboard (h : Recorded kb b) (hpending : b.cpu.pending = [33]) (htail : Cpu.pending (.irq ops) = [])
    (hclear : .clearStatus ∉ b.main) :
    Recorded kb { b with
      keyboard := b.keyboard.after b.port.byte
      port := b.port.read
      received := b.received ++ [b.port.byte]
      calls := b.calls ++ [⟨1, 33, some .keyboardHandler⟩]
      cpu := .irq ops } where
  handlers := h.handlers
  vectors := by
    have hvectors := h.vectors
    rw [hpending] at hvectors
    simp only [htail, List.map_append, List.map_cons, List.map_nil, List.append_nil]
    exact hvectors
  expected := by
    intro c hc
    rcases List.mem_append.mp hc with hc | hc
    · exact h.expected c hc
    · rw [List.mem_singleton.mp hc]
      exact Or.inr (Or.inr (Or.inl rfl))
  ticks := by
    rw [countCalls_append, if_neg (by simp)]
    exact h.ticks
  calls := by
    rw [countCalls_append, if_pos rfl, List.length_append, h.calls]
    rfl
  bytes := by
    -- the byte was still to be read
    have hfull : b.port.full = true := h.full (hpending ▸ List.mem_singleton_self 33)
    have hbytes := h.bytes
    rw [KeyPort.pending, if_pos hfull] at hbytes
    show b.sent = b.dropped ++ (b.received ++ [b.port.byte]) ++ []
    rw [hbytes, List.append_nil, List.append_assoc]
  unused := fun hmem => absurd hmem hclear
  keyboard := by
    have hkeyboard := h.keyboard
    rw [if_neg hclear] at hkeyboard ⊢
    rw [List.foldl_append, ← hkeyboard]
    rfl
  full := by
    rw [htail]
    simp
  edge := fun hfull => absurd hfull Bool.false_ne_true

theorem Recorded.step_handler (h : Recorded kb b) (hs : Sound targetFrequency b) (hcpu : b.cpu = .irq (op :: ops)) :
    Recorded kb { b.exec op with cpu := .irq ops } := by
  obtain ⟨-, hload, n, hserving⟩ := hs.irq hcpu
  have htail := hserving.pending_tail
  rcases mem_irqHandler (hserving.tail.subset List.mem_cons_self) with rfl | rfl | rfl
  · have hpending : b.cpu.pending = [BitVec.ofNat 32 (32 + n)] := by
      rw [hcpu]
      rfl
    have hfinds := hs.finds h.handlers hcpu
    generalize BitVec.ofNat 32 n = irqNum at hfinds
    generalize BitVec.ofNat 32 (32 + n) = idtNum at hpending hfinds
    rw [exec, dispatch]
    cases hfinds with
    | timer hfound =>
      rw [hfound]
      exact h.call_other hpending htail (Or.inl rfl) (by decide) rfl (by simp)
    | early hfound _ =>
      rw [hfound]
      exact h.call_other hpending htail (Or.inr (Or.inl rfl)) (by decide) (BitVec.add_zero _).symm (by simp)
    | keyboard hfound _ hclear =>
      rw [hfound]
      exact h.call_keyboard hpending htail hclear
    | gone hfound =>
      rw [hfound]
      exact h.call_other hpending htail (Or.inr (Or.inr (Or.inr rfl))) (by decide) (BitVec.add_zero _).symm (by simp)
  · exact h.frame h.handlers Iff.rfl Iff.rfl (htail.trans (congrArg Cpu.pending hcpu).symm)
  · exact h.frame h.handlers Iff.rfl Iff.rfl (htail.trans (congrArg Cpu.pending hcpu).symm)

theorem Recorded.step_interrupt (h : Recorded kb b) (hs : Sound targetFrequency b) (hcpu : b.cpu = .main) (hiflag : b.iflag = true)
    {master : BitVec 8} (hwired : b.Wired master) (slave : BitVec 8) : Recorded kb (b.interrupt master slave) := by
  obtain ⟨n, hvector, hserving, hline, hrequest⟩ := hs.accept hcpu hiflag master slave
  have hentry : (b.interrupt master slave).cpu.pending = [BitVec.ofNat 32 (32 + n)] := by
    show (entry (b.setup.pics.acknowledge master slave).1).pending = _
    rw [hvector, entry_irq n (Nat.lt_of_lt_of_le hserving.lt (by decide))]
    rfl
  have hpending : b.cpu.pending = [] := by
    rw [hcpu]
    rfl
  have hn : n < 8 := hserving.lt
  have hvec : ∀ n < 8, (BitVec.ofNat 8 (32 + n)).setWidth 32 = BitVec.ofNat 32 (32 + n) := by decide
  have hkeyboard : ∀ n < 8, (33 : BitVec 32) ∈ [BitVec.ofNat 32 (32 + n)] ↔ n = 1 := by decide
  have hport : (b.interrupt master slave).port = if n = 1 then b.port.acknowledge else b.port := by rw [interrupt, hline]
  have hfull : (b.interrupt master slave).port.full = b.port.full := by
    rw [hport]
    split <;> rfl
  refine
    { handlers := h.handlers, vectors := ?_, expected := h.expected, ticks := h.ticks, calls := h.calls, bytes := ?_,
      unused := h.unused, keyboard := h.keyboard, full := ?_, edge := ?_ }
  · have hvectors := h.vectors
    rw [hpending, List.append_nil] at hvectors
    rw [hentry]
    show (b.accepted ++ (b.setup.pics.acknowledge master slave).1.toList).map _ = b.calls.map IrqCall.idtNum ++ _
    rw [hvector, List.map_append, hvectors, Option.toList_some, List.map_singleton, hvec n hn]
  · have hbytes : (b.interrupt master slave).port.pending = b.port.pending := by
      rw [hport]
      split <;> rfl
    rw [hbytes]
    exact h.bytes
  · -- it is the keyboard controller that has asked
    rw [hentry, hkeyboard n hn, hfull]
    rintro rfl
    rcases hrequest with h7 | ⟨hbit, -⟩
    · cases h7
    · rw [hwired, KeyPort.requests, Bool.and_eq_true] at hbit
      exact hbit.2
  · rw [hentry, hkeyboard n hn, hfull]
    intro hpresent
    by_cases h1 : n = 1
    · exact Or.inr (Or.inl h1)
    · have hedge := h.edge hpresent
      rw [hpending] at hedge
      rw [hport, if_neg h1]
      exact hedge.imp_right (fun hrest => Or.inr (hrest.resolve_left List.not_mem_nil))

theorem Recorded.step_key (h : Recorded kb b) (data : BitVec 8) (hfull : b.port.full = false) :
    Recorded kb { b with port := b.port.receive data, sent := b.sent ++ [data] } where
  handlers := h.handlers
  vectors := h.vectors
  expected := h.expected
  ticks := h.ticks
  calls := h.calls
  bytes := by
    have hbytes := h.bytes
    rw [KeyPort.pending, hfull] at hbytes
    show b.sent ++ [data] = b.dropped ++ b.received ++ [data]
    rw [hbytes]
    simp
  unused := h.unused
  keyboard := h.keyboard
  full := fun _ => rfl
  edge := fun _ => Or.inl rfl

/-! ### The initialisations -/

/-- `status` is cleared once, after the loop that drops what the keyboard controller holds. -/
theorem drain_suffix (h : .drain :: rest <:+ bootOps targetFrequency) : .clearStatus ∈ rest := by
  simp only [bootOps, idtInitOps, initTimerOps, initKeyboardOps, List.cons_append, List.nil_append, List.suffix_cons_iff] at h
  simp at h
  rw [h]
  simp

theorem clearStatus_suffix (h : .clearStatus :: rest <:+ bootOps targetFrequency) : .clearStatus ∉ rest := by
  simp only [bootOps, idtInitOps, initTimerOps, initKeyboardOps, List.cons_append, List.nil_append, List.suffix_cons_iff] at h
  simp at h
  rw [h]
  simp

theorem mem_bootOps_register {handler : Handler} (h : .registerInterruptHandler idtNum handler ∈ bootOps targetFrequency) :
    idtNum = 32 ∧ handler = .timerTick ∨ idtNum = 33 ∧ handler = .keyboardHandler := by
  simpa [bootOps, idtInitOps, initTimerOps, initKeyboardOps] using h

theorem dispatch_notMem_bootOps : .dispatch irqNum idtNum ∉ bootOps targetFrequency := by
  simp [bootOps, idtInitOps, initTimerOps, initKeyboardOps]

theorem Registered.update {handlers : BitVec 32 → Option Handler} {handler : Handler} (h : Registered handlers)
    (hnew : idtNum = 32 ∧ handler = .timerTick ∨ idtNum = 33 ∧ handler = .keyboardHandler) :
    Registered (Function.update handlers idtNum (some handler)) := by
  intro i g hg
  by_cases hi : i = idtNum
  · subst hi
    rw [Function.update_self, Option.some.injEq] at hg
    rwa [← hg]
  · rw [Function.update_of_ne hi] at hg
    exact h i g hg

/-- The loop of `init_keyboard`: the byte is dropped. -/
theorem Recorded.drain (h : Recorded kb b) (hcpu : b.cpu = .main) (hmain : b.main = .drain :: rest)
    (hsuffix : .drain :: rest <:+ bootOps targetFrequency) :
    Recorded kb { b.exec .drain with main := b.remaining .drain rest } := by
  have hclear := drain_suffix hsuffix
  have hmem : .clearStatus ∈ b.remaining .drain rest := by
    unfold remaining
    split
    · exact List.mem_cons_of_mem _ hclear
    · exact hclear
  have hmem' : .clearStatus ∈ b.main := hmain ▸ List.mem_cons_of_mem _ hclear
  have hunused := h.unused hmem'
  refine
    { handlers := h.handlers, vectors := h.vectors, expected := h.expected, ticks := h.ticks, calls := h.calls, bytes := ?_,
      unused := fun _ => hunused, keyboard := ?_, full := ?_, edge := ?_ }
  · have hbytes := h.bytes
    rw [hunused, List.append_nil] at hbytes
    show b.sent = b.dropped ++ b.port.pending ++ b.received ++ []
    rw [hunused, List.append_nil, List.append_nil]
    exact hbytes
  · have hkeyboard := h.keyboard
    rw [if_pos hmem'] at hkeyboard
    rw [if_pos hmem]
    exact hkeyboard
  · intro hpending
    rw [show (b.exec .drain).cpu = b.cpu from rfl, hcpu] at hpending
    exact absurd hpending List.not_mem_nil
  · exact fun hfull => absurd hfull Bool.false_ne_true

/-- `status` is cleared. -/
theorem Recorded.clearStatus (h : Recorded kb b) (hmain : b.main = .clearStatus :: rest)
    (hsuffix : .clearStatus :: rest <:+ bootOps targetFrequency) :
    Recorded kb { b.exec .clearStatus with main := b.remaining .clearStatus rest } := by
  have hrest : b.remaining .clearStatus rest = rest := if_neg (by simp)
  have hclear := clearStatus_suffix hsuffix
  have hmem : .clearStatus ∈ b.main := hmain ▸ List.mem_cons_self
  have hunused := h.unused hmem
  rw [hrest]
  refine
    { handlers := h.handlers, vectors := h.vectors, expected := h.expected, ticks := h.ticks, calls := h.calls, bytes := h.bytes,
      unused := fun _ => hunused, keyboard := ?_, full := h.full, edge := ?_ }
  · have hkeyboard := h.keyboard
    rw [if_pos hmem, hunused] at hkeyboard
    show initKeyboard b.keyboard = b.received.foldl Keyboard.after _
    rw [if_neg hclear, hunused, hkeyboard]
    rfl
  · intro hfull
    have hedge := h.edge hfull
    have hdrain : .drain ∈ b.main ↔ .drain ∈ rest := by simp [hmain]
    rwa [hdrain] at hedge

theorem Recorded.step_main (h : Recorded kb b) (hs : Sound targetFrequency b) (hcpu : b.cpu = .main) (hmain : b.main = op :: rest) :
    Recorded kb { b.exec op with main := b.remaining op rest } := by
  have hsuffix := hs.suffix
  rw [hmain] at hsuffix
  have hop := hsuffix.subset List.mem_cons_self
  have hmem : ∀ op', op ≠ op' → op ≠ .drain → (op' ∈ b.remaining op rest ↔ op' ∈ b.main) := by
    intro op' hne hdrain
    rw [remaining, if_neg (fun h => hdrain h.1), hmain, List.mem_cons, or_iff_right hne.symm]
  cases op with
  | drain => exact h.drain hcpu hmain hsuffix
  | clearStatus => exact h.clearStatus hmain hsuffix
  | dispatch irqNum idtNum => exact absurd hop dispatch_notMem_bootOps
  | outb portAddr data => exact h.frame h.handlers (hmem _ (by simp) (by simp)) (hmem _ (by simp) (by simp)) rfl
  | loadIdt => exact h.frame h.handlers (hmem _ (by simp) (by simp)) (hmem _ (by simp) (by simp)) rfl
  | setClocksPerSecond targetFrequency => exact h.frame h.handlers (hmem _ (by simp) (by simp)) (hmem _ (by simp) (by simp)) rfl
  | registerInterruptHandler idtNum handler =>
    exact h.frame (Registered.update h.handlers (mem_bootOps_register hop)) (hmem _ (by simp) (by simp)) (hmem _ (by simp) (by simp)) rfl

theorem Recorded.step (h : Recorded kb b) (hs : Sound targetFrequency b) (hstep : Step b b') : Recorded kb b' := by
  cases hstep with
  | main hcpu hmain => exact h.step_main hs hcpu hmain
  | interrupt hcpu hiflag _ hwired => exact h.step_interrupt hs hcpu hiflag hwired _
  | handler hcpu => exact h.step_handler hs hcpu
  | iret hcpu => exact h.frame h.handlers Iff.rfl Iff.rfl (by rw [hcpu]; rfl)
  | key data hfull => exact h.step_key data hfull

theorem Start.recorded (h : Start targetFrequency kb b) : Recorded kb b where
  handlers := by
    intro idtNum handler hfound
    rw [h.handlers] at hfound
    cases hfound
  vectors := by
    rw [h.accepted, h.calls, h.cpu]
    rfl
  expected := by
    rw [h.calls]
    simp
  ticks := by
    rw [h.ticks, h.calls]
    rfl
  calls := by
    rw [h.received, h.calls]
    rfl
  bytes := by
    rw [h.sent, h.dropped, h.received]
    rfl
  unused := fun _ => h.received
  keyboard := by
    rw [h.received, h.keyboard, h.main, if_pos (by simp [bootOps, initKeyboardOps])]
    rfl
  full := by
    rw [h.cpu]
    exact fun hpending => absurd hpending List.not_mem_nil
  edge := by
    intro _
    rw [h.main]
    exact Or.inr (Or.inr (by simp [bootOps, initKeyboardOps]))

theorem recorded_of_reachable (h : (system targetFrequency kb).Reachable b) : Recorded kb b :=
  h.invariant (Recorded kb) (fun _ hs => Start.recorded hs) (fun _ _ hr hs hstep => hs.step (sound_of_reachable hr) hstep)

/-! ## What comes later -/

theorem Step.main_suffix (h : Step b b') : b'.main <:+ b.main := by
  cases h with
  | main hcpu hmain =>
    rw [hmain]
    exact remaining_suffix _ _ _
  | interrupt _ _ _ _ => exact List.suffix_refl _
  | handler hcpu =>
    show (b.exec _).main <:+ b.main
    exact exec_main b _ ▸ List.suffix_refl _
  | iret _ => exact List.suffix_refl _
  | key _ _ => exact List.suffix_refl _

theorem exec_dropped (b : Board) (h : op ≠ .drain) : (b.exec op).dropped = b.dropped := by
  cases op with
  | dispatch irqNum idtNum =>
    simp only [exec, dispatch]
    unfold call
    split <;> rfl
  | drain => exact absurd rfl h
  | _ => rfl

/-- Only the loop of `init_keyboard` drops a byte. -/
theorem Sound.step_dropped (h : Sound targetFrequency b) (hstep : Step b b') (hdrain : .drain ∉ b.main) : b'.dropped = b.dropped := by
  cases hstep with
  | @main op rest hcpu hmain =>
    rw [hmain, List.mem_cons, not_or] at hdrain
    exact exec_dropped b (Ne.symm hdrain.1)
  | interrupt _ _ _ _ => rfl
  | @handler op ops hcpu =>
    obtain ⟨-, -, n, hserving⟩ := h.irq hcpu
    refine exec_dropped b ?_
    rcases mem_irqHandler (hserving.tail.subset List.mem_cons_self) with rfl | rfl | rfl <;> simp
  | iret _ => rfl
  | key _ _ => rfl

theorem exec_calls (b : Board) (op : Op) : (b.exec op).calls = b.calls ∨
    ∃ irqNum idtNum, op = .dispatch irqNum idtNum ∧ (b.exec op).calls = b.calls ++ [⟨irqNum, idtNum, b.setup.handlers idtNum⟩] := by
  cases op with
  | dispatch irqNum idtNum => exact Or.inr ⟨irqNum, idtNum, rfl, rfl⟩
  | _ => exact Or.inl rfl

/-- Once the handler of the timer is registered, a call finds no handler only for a request that is gone. -/
theorem Sound.step_calls (h : Sound targetFrequency b) (hr : Registered b.setup.handlers) (hstep : Step b b')
    (htimer : .registerInterruptHandler 32 .timerTick ∉ b.main) :
    ∃ new, b'.calls = b.calls ++ new ∧ ∀ c ∈ new, c.handler = none → c.idtNum = 39 := by
  have hsame : ∀ calls, calls = b.calls → ∃ new, calls = b.calls ++ new ∧ ∀ c ∈ new, IrqCall.handler c = none → c.idtNum = 39 := by
    rintro calls rfl
    exact ⟨[], (List.append_nil _).symm, by simp⟩
  cases hstep with
  | @main op rest hcpu hmain =>
    have hop := (hmain ▸ h.suffix).subset List.mem_cons_self
    rcases exec_calls b op with hcalls | ⟨irqNum, idtNum, rfl, -⟩
    · exact hsame _ hcalls
    · exact absurd hop dispatch_notMem_bootOps
  | interrupt _ _ _ _ => exact hsame _ rfl
  | @handler op ops hcpu =>
    rcases exec_calls b op with hcalls | ⟨irqNum, idtNum, rfl, hcalls⟩
    · exact hsame _ hcalls
    · refine ⟨_, hcalls, ?_⟩
      simp only [List.forall_mem_singleton]
      intro hnone
      cases h.finds hr hcpu with
      | timer hfound =>
        rw [hfound] at hnone
        cases hnone
      | early _ hmain => exact absurd hmain htimer
      | keyboard hfound _ _ =>
        rw [hfound] at hnone
        cases hnone
      | gone _ => rfl
  | iret _ => exact hsame _ rfl
  | key _ _ => exact hsame _ rfl

end

end Board

/-! ## The results -/

section

variable {targetFrequency : BitVec 32} {kb : Keyboard} {b : Board}

/-- Every byte that comes from the keyboard is dropped by `init_keyboard`, or given to the handler once, in the order in which they have
come, or still to be read; once the loop of `init_keyboard` is over none is dropped. The keyboard is in the state that the bytes given to
the handler lead to. -/
theorem scancodes_delivered (h : (Board.system targetFrequency kb).Reachable b) :
    b.sent = b.dropped ++ b.received ++ b.port.pending ∧
      b.keyboard = b.received.foldl Keyboard.after (if .clearStatus ∈ b.main then kb else initKeyboard kb) ∧
      (.drain ∉ b.main → ∀ b', Relation.ReflTransGen Board.Step b b' → b'.dropped = b.dropped) := by
  have hr := Board.recorded_of_reachable h
  refine ⟨hr.bytes, hr.keyboard, fun hdrain b' hsteps => ?_⟩
  suffices .drain ∉ b'.main ∧ b'.dropped = b.dropped from this.2
  induction hsteps with
  | refl => exact ⟨hdrain, rfl⟩
  | tail hsteps hstep ih =>
    have hs := Board.sound_of_reachable (h.steps hsteps)
    exact ⟨fun hmem => ih.1 (hstep.main_suffix.subset hmem), (hs.step_dropped hstep ih.1).trans ih.2⟩

/-- Each interrupt accepted leads to one call of `irq_handler`, in order, and the timer has ticked once for each call of its handler. A
call finds no handler only for a request that is gone, or when the timer has asked for an interrupt before its handler is
registered. -/
theorem interrupts_handled (h : (Board.system targetFrequency kb).Reachable b) :
    b.accepted.map (fun v => v.setWidth 32) = b.calls.map IrqCall.idtNum ++ b.cpu.pending ∧ (∀ c ∈ b.calls, c.Expected) ∧
      b.ticks = BitVec.ofNat 32 (countCalls .timerTick b.calls) ∧ b.received.length = countCalls .keyboardHandler b.calls ∧
      (.registerInterruptHandler 32 .timerTick ∉ b.main → ∀ b', Relation.ReflTransGen Board.Step b b' →
        ∃ new, b'.calls = b.calls ++ new ∧ ∀ c ∈ new, c.handler = none → c.idtNum = 39) := by
  have hr := Board.recorded_of_reachable h
  refine ⟨hr.vectors, hr.expected, hr.ticks, hr.calls, fun htimer b' hsteps => ?_⟩
  suffices .registerInterruptHandler 32 .timerTick ∉ b'.main ∧
      ∃ new, b'.calls = b.calls ++ new ∧ ∀ c ∈ new, c.handler = none → c.idtNum = 39 from this.2
  induction hsteps with
  | refl => exact ⟨htimer, [], (List.append_nil _).symm, by simp⟩
  | tail hsteps hstep ih =>
    obtain ⟨hmain, new, hnew, hnone⟩ := ih
    have hreach := h.steps hsteps
    obtain ⟨new', hnew', hnone'⟩ :=
      (Board.sound_of_reachable hreach).step_calls (Board.recorded_of_reachable hreach).handlers hstep hmain
    refine ⟨fun hmem => hmain (hstep.main_suffix.subset hmem), new ++ new', ?_, ?_⟩
    · rw [hnew', hnew, List.append_assoc]
    · intro c hc
      rcases List.mem_append.mp hc with hc | hc
      · exact hnone c hc
      · exact hnone' c hc

end

/-- The byte found in the buffer is dropped, and the one typed is to be read. -/
theorem scancodes_delivered_smallServed : smallServed.dropped = [0x1C] ∧ smallServed.received = [] ∧
    smallServed.port.pending = [0x1E] ∧ smallServed.sent = [0x1C] ++ [] ++ [0x1E] := by
  obtain ⟨hbytes, -, -⟩ := scancodes_delivered smallServed_reachable
  exact ⟨rfl, rfl, rfl, hbytes⟩

theorem interrupts_handled_smallServed : smallServed.accepted = [33] ∧ smallServed.cpu.pending = [33] ∧
    smallServed.accepted.map (fun v => v.setWidth 32) = [] ++ smallServed.cpu.pending := by
  obtain ⟨hvectors, -, -, -, -⟩ := interrupts_handled smallServed_reachable
  exact ⟨by decide, by decide, hvectors⟩

end LumOS
