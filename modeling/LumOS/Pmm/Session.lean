import LumOS.Pmm.Client

/-!
# Memory maps laid out in memory, and clients that can be run

`Boot.ofEntries` lays out entries of 24 bytes back to back, the way a boot loader does; the walk of the memory map reads the same
entries back (`memoryMap_bootOf`). `session` runs `init_pmm` and a list of calls with a bound on the turns of each loop; when it
has a result, a client reaches it (`session_reachable`).
-/

namespace LumOS

open Comp

/-! ## Laying out a memory map -/

/-- The words of an entry in the order they are stored. -/
def MmapEntry.word (e : MmapEntry) : Nat → BitVec 32
  | 0 => e.size
  | 1 => e.baseLow
  | 2 => e.baseHigh
  | 3 => e.lengthLow
  | 4 => e.lengthHigh
  | _ => e.type

/-- The boot loader's memory with the entries from address `p` on. -/
def Boot.ofEntries (p : BitVec 32) (es : List MmapEntry) : Boot := fun a =>
  let o := (a - p).toNat
  match es[o / 24]? with
  | some e => (e.word (o % 24 / 4) >>> (8 * (o % 4))).setWidth 8
  | none => 0

/-- The boot loader's description of a memory map at a physical address. -/
def mapInfo (addr : BitVec 32) (es : List MmapEntry) : MultibootInfo where
  flags := mbtFlagIsMmap
  mmapLength := BitVec.ofNat 32 (24 * es.length)
  mmapAddr := addr

/-- The boot loader's memory with a memory map at a physical address, seen from the kernel's virtual addresses. -/
def bootOf (addr : BitVec 32) (es : List MmapEntry) : Boot := Boot.ofEntries (addr + virtualKernelOffset) es

/-- A word is its four bytes. -/
theorem bytes_append (w : BitVec 32) :
    (w >>> 24).setWidth 8 ++ (w >>> 16).setWidth 8 ++ (w >>> 8).setWidth 8 ++ w.setWidth 8 = w := by
  apply BitVec.eq_of_getLsbD_eq
  intro i hi
  simp only [BitVec.getLsbD_append, BitVec.getLsbD_setWidth, BitVec.getLsbD_ushiftRight]
  by_cases h1 : i < 8
  · simp [h1]
  by_cases h2 : i < 16
  · have hlt : i - 8 < 8 := by omega
    have he : 8 + (i - 8) = i := by omega
    simp [h1, hlt, he]
  have h2' : ¬i - 8 < 8 := by omega
  by_cases h3 : i < 24
  · have hlt : i - 8 - 8 < 8 := by omega
    have he : 16 + (i - 8 - 8) = i := by omega
    simp [h1, h2', hlt, he]
  · have h3' : ¬i - 8 - 8 < 8 := by omega
    have hlt : i - 8 - 8 - 8 < 8 := by omega
    have he : 24 + (i - 8 - 8 - 8) = i := by omega
    simp [h1, h2', h3', hlt, he]

section

variable {p : BitVec 32} {es : List MmapEntry} {e : MmapEntry} {j : Nat}

theorem ofEntries_byte (he : es[j]? = some e) (hj : 24 * j + 24 ≤ 2 ^ 32) {f b : Nat} (hf : f < 6) (hb : b < 4) :
    Boot.ofEntries p es (p + BitVec.ofNat 32 (24 * j + 4 * f + b)) = (e.word f >>> (8 * b)).setWidth 8 := by
  have ho : (p + BitVec.ofNat 32 (24 * j + 4 * f + b) - p).toNat = 24 * j + 4 * f + b := by
    bv_omega
  have h1 : (24 * j + 4 * f + b) / 24 = j := by omega
  have h2 : (24 * j + 4 * f + b) % 24 / 4 = f := by omega
  have h3 : (24 * j + 4 * f + b) % 4 = b := by omega
  simp only [Boot.ofEntries, ho, h1, h2, h3, he]

theorem ofEntries_load32 (he : es[j]? = some e) (hj : 24 * j + 24 ≤ 2 ^ 32) {f : Nat} (hf : f < 6) :
    (Boot.ofEntries p es).load32 (p + BitVec.ofNat 32 (24 * j) + BitVec.ofNat 32 (4 * f)) = e.word f := by
  have hbyte : ∀ b < 4, Boot.ofEntries p es (p + BitVec.ofNat 32 (24 * j) + BitVec.ofNat 32 (4 * f) + BitVec.ofNat 32 b) =
      (e.word f >>> (8 * b)).setWidth 8 := by
    intro b hb
    rw [← ofEntries_byte (p := p) he hj hf hb]
    simp only [BitVec.ofNat_add, BitVec.add_assoc]
  have h0 := hbyte 0 (by omega)
  have h1 := hbyte 1 (by omega)
  have h2 := hbyte 2 (by omega)
  have h3 := hbyte 3 (by omega)
  simp only [BitVec.add_zero] at h0
  refine Eq.trans ?_ (bytes_append (e.word f))
  exact congr (congrArg (· ++ ·) (congr (congrArg (· ++ ·) (congr (congrArg (· ++ ·) h3) h2)) h1)) h0

/-- An entry that was laid out is read back. -/
theorem ofEntries_entry (he : es[j]? = some e) (hj : 24 * j + 24 ≤ 2 ^ 32) :
    (Boot.ofEntries p es).entry (p + BitVec.ofNat 32 (24 * j)) = e := by
  have h0 := ofEntries_load32 (p := p) he hj (f := 0) (by omega)
  have h1 := ofEntries_load32 (p := p) he hj (f := 1) (by omega)
  have h2 := ofEntries_load32 (p := p) he hj (f := 2) (by omega)
  have h3 := ofEntries_load32 (p := p) he hj (f := 3) (by omega)
  have h4 := ofEntries_load32 (p := p) he hj (f := 4) (by omega)
  have h5 := ofEntries_load32 (p := p) he hj (f := 5) (by omega)
  simp only [BitVec.add_zero, Nat.mul_zero] at h0
  simp only [Boot.entry, MmapEntry.word] at *
  rw [h0]
  exact congr (congr (congr (congr (congrArg (MmapEntry.mk e.size) h1) h2) h3) h4) h5

/-- The walk of a map that was laid out visits its entries. -/
theorem mapEntries_ofEntries (hsize : ∀ e ∈ es, e.size = 20) (hp : p.toNat + 24 * es.length < 2 ^ 32) :
    ∀ {suf pre : List MmapEntry}, es = pre ++ suf →
    MapEntries (Boot.ofEntries p es) (p + BitVec.ofNat 32 (24 * es.length)) (p + BitVec.ofNat 32 (24 * pre.length)) suf := by
  intro suf
  induction suf with
  | nil =>
    intro pre he
    rw [List.append_nil] at he
    rw [← he]
    exact .done (BitVec.lt_irrefl _)
  | cons e suf ih =>
    intro pre he
    have hlen : es.length = pre.length + 1 + suf.length := by
      rw [he, List.length_append, List.length_cons]
      omega
    have hget : es[pre.length]? = some e := by
      rw [he]
      simp
    have hread := ofEntries_entry (p := p) hget (by omega)
    have hsplit : es = (pre ++ [e]) ++ suf := by
      rw [he, List.append_assoc]
      rfl
    have hrest := ih hsplit
    have hnext : e.next (p + BitVec.ofNat 32 (24 * pre.length)) = p + BitVec.ofNat 32 (24 * (pre ++ [e]).length) := by
      rw [MmapEntry.next, hsize e (by rw [he]; simp), List.length_append, List.length_singleton, Nat.mul_add,
        BitVec.ofNat_add, ← BitVec.add_assoc, BitVec.add_assoc _ 20 4]
      rfl
    have hlt : p + BitVec.ofNat 32 (24 * pre.length) < p + BitVec.ofNat 32 (24 * es.length) := by
      have hadd : ∀ n ≤ es.length, (p + BitVec.ofNat 32 (24 * n)).toNat = p.toNat + 24 * n := by
        intro n hn
        rw [BitVec.toNat_add, BitVec.toNat_ofNat, Nat.mod_eq_of_lt (a := 24 * n) (by omega), Nat.mod_eq_of_lt (by omega)]
      rw [BitVec.lt_def, hadd _ (by omega), hadd _ (Nat.le_refl _)]
      omega
    rw [← hnext, ← hread] at hrest
    have hent := MapEntries.entry hlt hrest
    rwa [hread] at hent

end

/-- A memory map that was laid out, as `init_pmm` finds it. -/
theorem memoryMap_bootOf {addr : BitVec 32} {es : List MmapEntry} (hsize : ∀ e ∈ es, e.size = 20)
    (hp : (addr + virtualKernelOffset).toNat + 24 * es.length < 2 ^ 32) :
    MemoryMap (bootOf addr es) (mapInfo addr es) es := by
  have h := mapEntries_ofEntries hsize hp (List.nil_append es).symm
  have hend : (mapInfo addr es).mmapEnd = addr + virtualKernelOffset + BitVec.ofNat 32 (24 * es.length) := by
    simp only [MultibootInfo.mmapEnd, mapInfo]
    rw [BitVec.add_assoc, BitVec.add_comm (BitVec.ofNat 32 _), BitVec.add_assoc]
  rw [MemoryMap, bootOf, hend]
  simpa [MultibootInfo.mmapStart, mapInfo] using h

/-! ## Running a client -/

/-- The calls of a client. -/
inductive Call where
  | alloc
  | free (addr : BitVec 32)

section

variable (k : Kernel) (ok : BitVec 32 → BitVec 32 → BitVec 32 → Prop) [∀ start length a, Decidable (ok start length a)]

/-- One call, when it is one the client may make and its loops take at most `n` turns. -/
def Client.call (n : Nat) (c : Client) : Call → Option Client
  | .alloc => ((pmmAlloc k c.mem).run n).map (fun r => ⟨r.2, r.1 :: c.held⟩)
  | .free a =>
    if a ∈ c.held ∧ ok (zoneField c.mem k.memoryZones .start) (zoneField c.mem k.memoryZones .length) a then
      ((pmmFree k c.mem a).run n).map (fun m => ⟨m, c.held.erase a⟩)
    else none

/-- `init_pmm`, from a memory of zeros, and then a list of calls. -/
def session (boot : Boot) (mbt : MultibootInfo) (n : Nat) (calls : List Call) : Option Client :=
  ((initPmm k boot mbt (fun _ => 0)).run n).bind (fun m => calls.foldlM (Client.call k ok n) ⟨m, []⟩)

variable {k} {ok}

theorem Client.step_of_call {n : Nat} {c c' : Client} {call : Call} (h : Client.call k ok n c call = some c') :
    ClientStep k ok c c' := by
  cases call with
  | alloc =>
    obtain ⟨r, hr, rfl⟩ := Option.map_eq_some_iff.mp h
    exact .alloc ⟨n, hr⟩
  | free a =>
    rw [Client.call] at h
    by_cases hok : a ∈ c.held ∧ ok (zoneField c.mem k.memoryZones .start) (zoneField c.mem k.memoryZones .length) a
    · rw [if_pos hok] at h
      obtain ⟨m, hm, rfl⟩ := Option.map_eq_some_iff.mp h
      exact .free hok.1 hok.2 ⟨n, hm⟩
    · rw [if_neg hok] at h
      cases h

/-- A client reaches the result of a session. -/
theorem session_reachable {boot : Boot} {mbt : MultibootInfo} {n : Nat} {calls : List Call} {c : Client}
    (h : session k ok boot mbt n calls = some c) : (clientSystem k boot mbt ok).Reachable c := by
  obtain ⟨m, hm, hcalls⟩ := Option.bind_eq_some_iff.mp h
  have hstart : (clientSystem k boot mbt ok).Reachable ⟨m, []⟩ := .init ⟨rfl, _, n, hm⟩
  generalize (⟨m, []⟩ : Client) = c₀ at hcalls hstart
  clear h hm
  induction calls generalizing c₀ with
  | nil =>
    obtain rfl : c₀ = c := Option.some.inj hcalls
    exact hstart
  | cons call calls ih =>
    rw [List.foldlM_cons] at hcalls
    obtain ⟨c₁, h1, h2⟩ := Option.bind_eq_some_iff.mp hcalls
    exact ih c₁ h2 (hstart.step (Client.step_of_call h1))

variable (k) (ok)

/-- A client that a session ends in, with what is read off it. -/
theorem exists_session (boot : Boot) (mbt : MultibootInfo) (n : Nat) (calls : List Call) {β : Type} (f : Client → β) (x : β)
    (h : (session k ok boot mbt n calls).map f = some x) : ∃ c, (clientSystem k boot mbt ok).Reachable c ∧ f c = x := by
  obtain ⟨c, hc, hx⟩ := Option.map_eq_some_iff.mp h
  exact ⟨c, session_reachable hc, hx⟩

/-- What `init_pmm` leaves, from a memory of zeros, with what is read off it. -/
theorem exists_init (boot : Boot) (mbt : MultibootInfo) (n : Nat) {β : Type} (f : Mem → β) (x : β)
    (h : ((initPmm k boot mbt (fun _ => 0)).run n).map f = some x) :
    ∃ m, Returns (initPmm k boot mbt (fun _ => 0)) m ∧ f m = x :=
  exists_returns_of_run h

/-- A client that a session ends in and a call of `pmm_alloc` there, with what is read off them. -/
theorem exists_session_alloc (boot : Boot) (mbt : MultibootInfo) (n : Nat) (calls : List Call) {β : Type}
    (f : Client → BitVec 32 → Mem → β) (x : β)
    (h : ((session k ok boot mbt n calls).bind (fun c => ((pmmAlloc k c.mem).run n).map (fun r => f c r.1 r.2))) = some x) :
    ∃ c a m, (clientSystem k boot mbt ok).Reachable c ∧ Returns (pmmAlloc k c.mem) (a, m) ∧ f c a m = x := by
  obtain ⟨c, hc, h⟩ := Option.bind_eq_some_iff.mp h
  obtain ⟨⟨a, m⟩, ha, hx⟩ := Option.map_eq_some_iff.mp h
  exact ⟨c, a, m, session_reachable hc, ⟨n, ha⟩, hx⟩

end

end LumOS
