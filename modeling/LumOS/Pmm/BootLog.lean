import LumOS.Lib.Writer
import LumOS.Pmm.Report
import LumOS.Pmm.Reserve

/-!
# What `init_pmm` logs

`init_pmm` with what it logs: a line for each section of the memory map that it uses, the size of its structures, the range it reserves,
what that range meets in each zone, and then `printZones`. It does what it does without the log (`initPmm_of_logged`), and always logs
(`initPmm_logged`).
-/

namespace LumOS

open Comp

/-- The format `"[pmm]: init_pmm()\n"`. -/
def formatInit : CString := CString.ofChars (literal "[pmm]: init_pmm()\n") (by simp [literal, chr])

/-- The format `"[PMM] : No memory map available\n"`. -/
def formatNoMap : CString := CString.ofChars (literal "[PMM] : No memory map available\n") (by simp [literal, chr])

/-- The format `"(*) base: %x\tlen: %x bytes\ttype: %d\n"`. -/
def formatSection : CString := CString.ofChars (literal "(*) base: %x\tlen: %x bytes\ttype: %d\n") (by simp [literal, chr])

/-- The format `"PMM strucutres take %d bytes\n"`. -/
def formatStructures : CString := CString.ofChars (literal "PMM strucutres take %d bytes\n") (by simp [literal, chr])

/-- The format `"\nReserving kernel blocks\n"`. -/
def formatReserving : CString := CString.ofChars (literal "\nReserving kernel blocks\n") (by simp [literal, chr])

/-- The format `"kernel start : %x\tkernel end: %x\n"`. -/
def formatKernel : CString := CString.ofChars (literal "kernel start : %x\tkernel end: %x\n") (by simp [literal, chr])

/-- The format `"zone start: %x\tzone end: %x\n"`. -/
def formatZone : CString := CString.ofChars (literal "zone start: %x\tzone end: %x\n") (by simp [literal, chr])

/-- The format `"kernel and zone overlap\n"`. -/
def formatOverlap : CString := CString.ofChars (literal "kernel and zone overlap\n") (by simp [literal, chr])

/-- The format `"kstart bit: %d\tkend bit: %d\n"`. -/
def formatBits : CString := CString.ofChars (literal "kstart bit: %d\tkend bit: %d\n") (by simp [literal, chr])

section

variable (stack : List (BitVec 8) → CharPtr)

/-- One turn of the walk of the memory map, with what has been logged. -/
def walkStepLogged (k : Kernel) (boot : Boot) (s : Walk × List (BitVec 8)) : Comp (Walk × List (BitVec 8)) := do
  let (w, out) := s
  let e := boot.entry w.sect
  if e.skipped then return ({ w with sect := e.next w.sect }, out)
  let out ← logTo stack (formatSection, [.word e.baseLow, .word e.lengthLow, .word e.type]) out
  let (m, zone) := linkZone k w.mem w.currentZone
  let m ← initZone m zone e
  return ({ sect := e.next w.sect, mem := m, currentZone := zone,
            pmmStructuresSize := w.pmmStructuresSize + (sizeofZone + zoneField m zone .bitmapWords * 4) }, out)

/-- The reservation in one zone, with what is logged. -/
def reserveZoneLogged (resStart resEnd : BitVec 32) (m : Mem) (zone : BitVec 32) (out : List (BitVec 8)) :
    Comp (Mem × List (BitVec 8)) := do
  let start := zoneField m zone .start
  let end_ := zoneField m zone .end_
  let out ← logTo stack (formatZone, [.word start, .word end_]) out
  if (resStart ≤ start ∧ resEnd ≥ start) ∨ (resStart ≥ start ∧ resStart ≤ end_) then
    let out ← logTo stack (formatOverlap, []) out
    let startbit := if start > resStart then start else resStart
    let endbit := if end_ < resEnd then end_ else resEnd
    let startbit := getOffset start startbit
    let endbit := getOffset start endbit
    let out ← logTo stack (formatBits, [.word startbit, .word endbit]) out
    let m ← setBits m (zoneField m zone .bitmap) startbit endbit
    let out ← logTo stack (formatNewline, []) out
    return (m, out)
  else
    let out ← logTo stack (formatNewline, []) out
    return (m, out)

/-- The turn of the loop that reserves the kernel's blocks, with what has been logged. -/
def reserveTurnLogged (resStart resEnd : BitVec 32) (s : (Mem × BitVec 32) × List (BitVec 8)) :
    Comp ((Mem × BitVec 32) × List (BitVec 8)) := do
  let ((m, zone), out) := s
  let (m, out) ← reserveZoneLogged stack resStart resEnd m zone out
  return ((m, zoneField m zone .nextZone), out)

/-- `init_pmm`, with what it logs. Without a memory map it ends in `abort`, which does not return. -/
def initPmmLogged (k : Kernel) (boot : Boot) (mbt : MultibootInfo) (m : Mem) (out : List (BitVec 8)) :
    Comp (Mem × List (BitVec 8)) := do
  let out ← logTo stack (formatInit, []) out
  if mbt.flags &&& mbtFlagIsMmap = 0 then
    let _ ← logTo stack (formatNoMap, []) out
    diverge
  else
    let (w, out) ← loop (fun s => s.1.sect < mbt.mmapEnd) (walkStepLogged stack k boot)
      ({ sect := mbt.mmapStart, mem := m, currentZone := 0, pmmStructuresSize := 0 }, out)
    let out ← logTo stack (formatStructures, [.word w.pmmStructuresSize]) out
    let out ← logTo stack (formatReserving, []) out
    let resStart := k.resStart
    let resEnd := k.resEnd w.pmmStructuresSize
    let out ← logTo stack (formatKernel, [.word resStart, .word resEnd]) out
    let ((m, _), out) ← loop (fun s => s.1.2 ≠ 0) (reserveTurnLogged stack resStart resEnd) ((w.mem, k.memoryZones), out)
    let out ← printZonesLogged stack m k.memoryZones out
    return (m, out)

end

/-! ## The texts -/

/-- What is to be logged of a section of the memory map. -/
def sectionText (base len type : BitVec 32) : List (BitVec 8) :=
  literal "(*) base: " ++ (numeral 16 base.toNat ++ (literal "\tlen: " ++ (numeral 16 len.toNat ++ (literal " bytes\ttype: " ++
    (signedDecimal type.toInt ++ literal "\n")))))

/-- What is to be logged of the size of the structures and of the reserved range. -/
def rangeText (size resStart resEnd : BitVec 32) : List (BitVec 8) :=
  literal "PMM strucutres take " ++ (signedDecimal size.toInt ++ literal " bytes\n") ++ (literal "\nReserving kernel blocks\n" ++
    (literal "kernel start : " ++ (numeral 16 resStart.toNat ++ (literal "\tkernel end: " ++ (numeral 16 resEnd.toNat ++
      literal "\n")))))

/-- What is to be logged of the reservation in a zone. -/
def reserveText (resStart resEnd start end_ : BitVec 32) : List (BitVec 8) :=
  literal "zone start: " ++ (numeral 16 start.toNat ++ (literal "\tzone end: " ++ (numeral 16 end_.toNat ++ literal "\n"))) ++
    ((if (resStart ≤ start ∧ resEnd ≥ start) ∨ (resStart ≥ start ∧ resStart ≤ end_) then
      literal "kernel and zone overlap\n" ++ (literal "kstart bit: " ++
        (signedDecimal (getOffset start (if start > resStart then start else resStart)).toInt ++ (literal "\tkend bit: " ++
          (signedDecimal (getOffset start (if end_ < resEnd then end_ else resEnd)).toInt ++ literal "\n"))))
      else []) ++ literal "\n")

theorem logs_init : Logs (formatInit, []) (literal "[pmm]: init_pmm()\n") :=
  logs_plain (by simp [formatInit, CString.ofChars, literal, chr]) (by simp [formatInit, CString.ofChars, literal])

theorem logs_reserving : Logs (formatReserving, []) (literal "\nReserving kernel blocks\n") :=
  logs_plain (by simp [formatReserving, CString.ofChars, literal, chr]) (by simp [formatReserving, CString.ofChars, literal])

theorem logs_overlap : Logs (formatOverlap, []) (literal "kernel and zone overlap\n") :=
  logs_plain (by simp [formatOverlap, CString.ofChars, literal, chr]) (by simp [formatOverlap, CString.ofChars, literal])

theorem logs_section (base len type : BitVec 32) :
    Logs (formatSection, [.word base, .word len, .word type]) (sectionText base len type) := by
  have hbase := length_hexadecimal_le base
  have hlen := length_hexadecimal_le len
  have htype := length_signedDecimal_le type
  have hall : Renders (literal "(*) base: " ++ chr '%' :: chr 'x' :: (literal "\tlen: " ++ chr '%' :: chr 'x' ::
      (literal " bytes\ttype: " ++ chr '%' :: chr 'd' :: literal "\n"))) [.word base, .word len, .word type]
      (sectionText base len type) :=
    (((renders_plain (by simp [literal, chr])).dec (by simp [literal, chr]) type).hex (by simp [literal, chr]) len).hex
      (by simp [literal, chr]) base
  refine hall.logs (by simp [formatSection, CString.ofChars, literal]) ?_
  simp [sectionText, literal]
  omega

theorem logs_structures (size : BitVec 32) : Logs (formatStructures, [.word size])
    (literal "PMM strucutres take " ++ (signedDecimal size.toInt ++ literal " bytes\n")) := by
  have hsize := length_signedDecimal_le size
  have hall : Renders (literal "PMM strucutres take " ++ chr '%' :: chr 'd' :: literal " bytes\n") [.word size] _ :=
    (renders_plain (by simp [literal, chr])).dec (by simp [literal, chr]) size
  refine hall.logs (by simp [formatStructures, CString.ofChars, literal]) ?_
  simp [literal]
  omega

theorem logs_kernel (resStart resEnd : BitVec 32) : Logs (formatKernel, [.word resStart, .word resEnd])
    (literal "kernel start : " ++ (numeral 16 resStart.toNat ++ (literal "\tkernel end: " ++ (numeral 16 resEnd.toNat ++
      literal "\n")))) := by
  have hstart := length_hexadecimal_le resStart
  have hend := length_hexadecimal_le resEnd
  have hall : Renders (literal "kernel start : " ++ chr '%' :: chr 'x' :: (literal "\tkernel end: " ++ chr '%' :: chr 'x' ::
      literal "\n")) [.word resStart, .word resEnd] _ :=
    ((renders_plain (by simp [literal, chr])).hex (by simp [literal, chr]) resEnd).hex (by simp [literal, chr]) resStart
  refine hall.logs (by simp [formatKernel, CString.ofChars, literal]) ?_
  simp [literal]
  omega

theorem logs_zone (start end_ : BitVec 32) : Logs (formatZone, [.word start, .word end_])
    (literal "zone start: " ++ (numeral 16 start.toNat ++ (literal "\tzone end: " ++ (numeral 16 end_.toNat ++ literal "\n")))) := by
  have hstart := length_hexadecimal_le start
  have hend := length_hexadecimal_le end_
  have hall : Renders (literal "zone start: " ++ chr '%' :: chr 'x' :: (literal "\tzone end: " ++ chr '%' :: chr 'x' ::
      literal "\n")) [.word start, .word end_] _ :=
    ((renders_plain (by simp [literal, chr])).hex (by simp [literal, chr]) end_).hex (by simp [literal, chr]) start
  refine hall.logs (by simp [formatZone, CString.ofChars, literal]) ?_
  simp [literal]
  omega

theorem logs_bits (startbit endbit : BitVec 32) : Logs (formatBits, [.word startbit, .word endbit])
    (literal "kstart bit: " ++ (signedDecimal startbit.toInt ++ (literal "\tkend bit: " ++ (signedDecimal endbit.toInt ++
      literal "\n")))) := by
  have hstart := length_signedDecimal_le startbit
  have hend := length_signedDecimal_le endbit
  have hall : Renders (literal "kstart bit: " ++ chr '%' :: chr 'd' :: (literal "\tkend bit: " ++ chr '%' :: chr 'd' ::
      literal "\n")) [.word startbit, .word endbit] _ :=
    ((renders_plain (by simp [literal, chr])).dec (by simp [literal, chr]) endbit).dec (by simp [literal, chr]) startbit
  refine hall.logs (by simp [formatBits, CString.ofChars, literal]) ?_
  simp [literal]
  omega

/-! ## The loops -/

section

variable {k : Kernel} {boot : Boot} {stack : List (BitVec 8) → CharPtr} {resStart resEnd : BitVec 32}

/-- A call of `logf` writes its text, and then what comes after it is written. -/
theorem Logs.writes_bind {α : Type} {call : LogCall} {text : List (BitVec 8)} (h : Logs call text) {c : Comp α}
    {f : List (BitVec 8) → Comp (α × List (BitVec 8))} {t : List (BitVec 8)} (hf : Writes c f t) :
    Writes c (fun out => LumOS.logTo stack call out >>= f) (text ++ t) := by
  intro a ha out
  rw [← List.append_assoc]
  exact Comp.returns_bind.mpr ⟨_, h.logTo stack out, hf a ha _⟩

/-- Without the log a call of `logf` does nothing. -/
theorem erases_logTo {α : Type} {call : LogCall} {c : Comp α} {f : List (BitVec 8) → Comp (α × List (BitVec 8))} (hf : Erases c f) :
    Erases c (fun out => logTo stack call out >>= f) := by
  intro out r hr
  obtain ⟨_, -, hr⟩ := returns_bind.mp hr
  exact hf _ r hr

/-- What a turn of the walk writes. -/
def walkText (boot : Boot) (w : Walk) : List (BitVec 8) :=
  if (boot.entry w.sect).skipped then []
  else sectionText (boot.entry w.sect).baseLow (boot.entry w.sect).lengthLow (boot.entry w.sect).type

theorem walkStep_writes (w : Walk) : Writes (walkStep k boot w) (fun out => walkStepLogged stack k boot (w, out)) (walkText boot w) := by
  by_cases hs : (boot.entry w.sect).skipped = true
  · simp only [walkStep, walkStepLogged, walkText, if_pos hs]
    exact writes_pure _
  · simp only [walkStep, walkStepLogged, walkText, if_neg hs]
    rw [← List.append_nil (sectionText _ _ _)]
    refine (logs_section _ _ _).writes_bind ?_
    intro u hu out
    obtain ⟨m, hm, hu⟩ := returns_bind.mp hu
    rw [List.append_nil, ← returns_pure.mp hu]
    exact returns_bind.mpr ⟨m, hm, returns_pure.mpr rfl⟩

theorem walkStep_erases (w : Walk) : Erases (walkStep k boot w) (fun out => walkStepLogged stack k boot (w, out)) := by
  by_cases hs : (boot.entry w.sect).skipped = true
  · simp only [walkStep, walkStepLogged, if_pos hs]
    exact erases_pure _
  · simp only [walkStep, walkStepLogged, if_neg hs]
    refine erases_logTo ?_
    intro out r hr
    obtain ⟨m, hm, hr⟩ := returns_bind.mp hr
    rw [← returns_pure.mp hr]
    exact returns_bind.mpr ⟨m, hm, returns_pure.mpr rfl⟩

theorem walk_erases (stop : BitVec 32) (w : Walk) : Erases (loop (fun w => w.sect < stop) (walkStep k boot) w)
    (fun out => loop (fun s => s.1.sect < stop) (walkStepLogged stack k boot) (w, out)) :=
  Erases.loop walkStep_erases w

/-- The turn of the loop that reserves the kernel's blocks. -/
def reserveTurn (resStart resEnd : BitVec 32) : Mem × BitVec 32 → Comp (Mem × BitVec 32) := fun (m, zone) => do
  let m ← reserveZone resStart resEnd m zone
  return (m, zoneField m zone .nextZone)

/-- What a turn of that loop writes. -/
def reserveTurnText (resStart resEnd : BitVec 32) (s : Mem × BitVec 32) : List (BitVec 8) :=
  reserveText resStart resEnd (zoneField s.1 s.2 .start) (zoneField s.1 s.2 .end_)

theorem reserveZone_writes (m : Mem) (zone : BitVec 32) : Writes (reserveZone resStart resEnd m zone)
    (reserveZoneLogged stack resStart resEnd m zone) (reserveTurnText resStart resEnd (m, zone)) := by
  unfold reserveZoneLogged reserveZone reserveTurnText reserveText
  refine (logs_zone _ _).writes_bind ?_
  simp only
  split
  · rw [List.append_assoc]
    refine logs_overlap.writes_bind ((logs_bits _ _).writes_bind ?_)
    intro m' hm' out
    exact returns_bind.mpr ⟨m', hm', returns_bind.mpr ⟨_, logs_newline.logTo stack out, returns_pure.mpr rfl⟩⟩
  · rw [List.nil_append, ← List.append_nil (literal "\n")]
    exact logs_newline.writes_bind (writes_pure _)

theorem reserveZone_erases (m : Mem) (zone : BitVec 32) :
    Erases (reserveZone resStart resEnd m zone) (reserveZoneLogged stack resStart resEnd m zone) := by
  unfold reserveZoneLogged reserveZone
  refine erases_logTo ?_
  simp only
  split
  · refine erases_logTo (erases_logTo ?_)
    intro out r hr
    obtain ⟨m', hm', hr⟩ := returns_bind.mp hr
    have hlast := (logs_newline.returns_bind (f := fun out => pure (m', out))).mp hr
    rwa [← returns_pure.mp hlast]
  · exact erases_logTo (erases_pure _)

theorem reserveTurn_writes (s : Mem × BitVec 32) : Writes (reserveTurn resStart resEnd s)
    (fun out => reserveTurnLogged stack resStart resEnd (s, out)) (reserveTurnText resStart resEnd s) := by
  have hzone : Writes (reserveZone resStart resEnd s.1 s.2) (reserveZoneLogged stack resStart resEnd s.1 s.2) _ :=
    reserveZone_writes s.1 s.2
  have hturn := hzone.bind (f := fun m => pure (m, zoneField m s.2 .nextZone))
    (fun m _ => writes_pure (m, zoneField m s.2 .nextZone))
  rwa [List.append_nil] at hturn

theorem reserveTurn_erases (s : Mem × BitVec 32) : Erases (reserveTurn resStart resEnd s)
    (fun out => reserveTurnLogged stack resStart resEnd (s, out)) :=
  (reserveZone_erases s.1 s.2).bind (fun _ => erases_pure _)

theorem reserveLoop_erases (s : Mem × BitVec 32) : Erases (loop (fun s => s.2 ≠ 0) (reserveTurn resStart resEnd) s)
    (fun out => loop (fun s => s.1.2 ≠ 0) (reserveTurnLogged stack resStart resEnd) (s, out)) :=
  Erases.loop reserveTurn_erases s

end

/-! ## `init_pmm` -/

/-- A run of `init_pmm` that returns: where its loops go. -/
structure InitRun (k : Kernel) (boot : Boot) (mbt : MultibootInfo) (m₀ m : Mem) (w : Walk) (ws : List Walk)
    (ts : List (Mem × BitVec 32)) (qs : List (BitVec 32)) : Prop where
  flags : mbt.flags &&& mbtFlagIsMmap ≠ 0
  walk : Visits (fun w => w.sect < mbt.mmapEnd) (walkStep k boot) ⟨mbt.mmapStart, m₀, 0, 0⟩ ws w
  reserve : ∃ q, Visits (fun s => s.2 ≠ 0) (reserveTurn k.resStart (k.resEnd w.pmmStructuresSize)) (w.mem, k.memoryZones) ts (m, q)
  zones : ZoneChain m k.memoryZones qs

/-- What `init_pmm` logs in such a run. -/
def initText (k : Kernel) (boot : Boot) (m : Mem) (w : Walk) (ws : List Walk) (ts : List (Mem × BitVec 32)) (qs : List (BitVec 32)) :
    List (BitVec 8) :=
  literal "[pmm]: init_pmm()\n" ++ (ws.flatMap (walkText boot) ++
    (rangeText w.pmmStructuresSize k.resStart (k.resEnd w.pmmStructuresSize) ++
      (ts.flatMap (reserveTurnText k.resStart (k.resEnd w.pmmStructuresSize)) ++ zonesText m qs)))

section

variable {k : Kernel} {boot : Boot} {mbt : MultibootInfo} {m₀ m : Mem}

theorem exists_initRun (h : Returns (initPmm k boot mbt m₀) m) : ∃ w ws ts qs, InitRun k boot mbt m₀ m w ws ts qs := by
  have hflags := (initPmm_walk h).1
  unfold initPmm at h
  rw [if_neg hflags] at h
  obtain ⟨w, hw, h⟩ := returns_bind.mp h
  obtain ⟨m', hm, h⟩ := returns_bind.mp h
  obtain ⟨⟨m'', q⟩, hloop, hm⟩ := returns_bind.mp hm
  obtain rfl := returns_pure.mp hm
  obtain ⟨_, hprint, h⟩ := returns_bind.mp h
  obtain rfl := returns_pure.mp h
  obtain ⟨_, htext⟩ : ∃ text, Returns (printZonesLogged (fun _ _ => 0) m'' k.memoryZones []) text :=
    returns_printZones_iff.mp hprint
  obtain ⟨ws, hws⟩ := hw.exists_visits
  obtain ⟨ts, hts⟩ := hloop.exists_visits
  obtain ⟨qs, hqs⟩ := exists_zoneChain_of_logged htext
  exact ⟨w, ws, ts, qs, hflags, hws, ⟨q, hts⟩, hqs⟩

/-- A run of `init_pmm` logs its text. -/
theorem InitRun.logged {w : Walk} {ws : List Walk} {ts : List (Mem × BitVec 32)} {qs : List (BitVec 32)}
    (h : InitRun k boot mbt m₀ m w ws ts qs) (stack : List (BitVec 8) → CharPtr) (out : List (BitVec 8)) :
    Returns (initPmmLogged stack k boot mbt m₀ out) (m, out ++ initText k boot m w ws ts qs) := by
  obtain ⟨q, hts⟩ := h.reserve
  have hstep : ∀ w, Writes (walkStep k boot w) (fun out => walkStepLogged stack k boot (w, out)) (walkText boot w) := walkStep_writes
  have hturn : ∀ s, Writes (reserveTurn k.resStart (k.resEnd w.pmmStructuresSize) s)
      (fun out => reserveTurnLogged stack k.resStart (k.resEnd w.pmmStructuresSize) (s, out)) _ := reserveTurn_writes
  have hwalk := Writes.loop (fun w _ _ => hstep w) h.walk w h.walk.returns
  have hreserve := Writes.loop (fun s _ _ => hturn s) hts (m, q) hts.returns
  refine logs_init.returns_bind.mpr ?_
  rw [if_neg h.flags]
  refine returns_bind.mpr ⟨_, hwalk _, (logs_structures _).returns_bind.mpr (logs_reserving.returns_bind.mpr ?_)⟩
  refine (logs_kernel _ _).returns_bind.mpr (returns_bind.mpr ⟨_, hreserve _, ?_⟩)
  refine returns_bind.mpr ⟨_, h.zones.logged _, returns_pure.mpr ?_⟩
  simp only [initText, rangeText, List.append_assoc]

/-- With the log `init_pmm` does what it does without. -/
theorem initPmm_of_logged {stack : List (BitVec 8) → CharPtr} {out log : List (BitVec 8)}
    (h : Returns (initPmmLogged stack k boot mbt m₀ out) (m, log)) : Returns (initPmm k boot mbt m₀) m := by
  have h := logs_init.returns_bind.mp h
  unfold initPmm
  by_cases hflags : mbt.flags &&& mbtFlagIsMmap = 0
  · rw [if_pos hflags] at h
    obtain ⟨_, -, h⟩ := returns_bind.mp h
    exact absurd h not_returns_diverge
  · rw [if_neg hflags] at h ⊢
    obtain ⟨⟨w, out'⟩, hwalk, h⟩ := returns_bind.mp h
    have h := (logs_kernel _ _).returns_bind.mp (logs_reserving.returns_bind.mp ((logs_structures _).returns_bind.mp h))
    obtain ⟨⟨⟨m', q⟩, out''⟩, hloop, h⟩ := returns_bind.mp h
    obtain ⟨text, hprint, h⟩ := returns_bind.mp h
    obtain ⟨rfl, rfl⟩ := Prod.mk.inj (returns_pure.mp h)
    refine returns_bind.mpr ⟨w, walk_erases _ _ _ _ hwalk, returns_bind.mpr ⟨m', ?_, ?_⟩⟩
    · exact returns_bind.mpr ⟨_, reserveLoop_erases _ _ _ hloop, returns_pure.mpr rfl⟩
    · exact returns_bind.mpr ⟨(), returns_printZones_iff.mpr ⟨_, hprint⟩, returns_pure.mpr rfl⟩

end

end LumOS
