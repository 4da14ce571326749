import LumOS.Pmm.Audit
import LumOS.Pmm.BootLog

/-!
# The log as a journal

What `init_pmm` and the calls after it log tells what is in the PMM's structures: `replayed` reads the log, makes the zones of the sections
that `init_pmm` has listed, reserves the range that it has named, and then does to them what the records of the calls say. In every run the
zones so found are the ones in memory (`journal_replays`).
-/

namespace LumOS

open Comp Reader

/-! ## Reading the log of `init_pmm` -/

/-- Read a number in radix 16 between a text and a character. -/
def hexTo (s : String) (c : BitVec 8) : Reader (BitVec 8) (BitVec 32) := do
  exactly (literal s)
  field hexadecimal c

/-- Read a signed number in radix 10 between a text and a character. -/
def decTo (s : String) (c : BitVec 8) : Reader (BitVec 8) (BitVec 32) := do
  exactly (literal s)
  field decimal c

/-- A section of the memory map, as it is logged. -/
structure SectionRecord where
  base : BitVec 32
  len : BitVec 32
  type : BitVec 32

def SectionRecord.text (r : SectionRecord) : List (BitVec 8) := sectionText r.base r.len r.type

/-- Read a section of the memory map. -/
def sectionReader : Reader (BitVec 8) SectionRecord := do
  let base ← hexTo "(*) base: " 0x09
  let len ← hexTo "len: " (chr ' ')
  let type ← decTo "bytes\ttype: " 0x0A
  return { base := base, len := len, type := type }

/-- Read the reserved range. -/
def rangeReader : Reader (BitVec 8) (BitVec 32 × BitVec 32) := do
  let _ ← decTo "PMM strucutres take " (chr ' ')
  let resStart ← hexTo "bytes\n\nReserving kernel blocks\nkernel start : " 0x09
  let resEnd ← hexTo "kernel end: " 0x0A
  return (resStart, resEnd)

/-- Read what is logged of the reservation in a zone. -/
def reserveReader : Reader (BitVec 8) Unit := do
  let _ ← hexTo "zone start: " 0x09
  let _ ← hexTo "zone end: " 0x0A
  (do
    let _ ← decTo "kernel and zone overlap\nkstart bit: " 0x09
    let _ ← decTo "kend bit: " 0x0A
    exactly (literal "\n")) <|> exactly (literal "\n")

/-- Read what `printZones` logs of a zone. -/
def zoneReader : Reader (BitVec 8) Unit := do
  let _ ← hexTo "Zone info @ " (chr ':')
  let _ ← hexTo " \nzone start: " 0x0A
  let _ ← hexTo "zone end: " 0x0A
  let _ ← decTo "zone free: " (chr ' ')
  let _ ← decTo "blocks\nzone length: " 0x0A
  let words ← decTo "zone bitmap words: " (chr ' ')
  let _ ← decTo "words : " (chr ' ')
  let _ ← hexTo "bytes\nbitmap location: " 0x0A
  exactly (literal "bitmap contents : ")
  skip (hexTo " " (chr ' ')) (min words.toNat 6)
  exactly (literal "...\n\n") <|> exactly (literal "\n\n")

/-- What `init_pmm` has said: the sections it uses, and the range it reserves. -/
structure BootRecord where
  sections : List SectionRecord
  resStart : BitVec 32
  resEnd : BitVec 32

/-- Read the log of `init_pmm`. -/
def bootReader : Reader (BitVec 8) BootRecord := do
  exactly (literal "[pmm]: init_pmm()\n")
  let sections ← many sectionReader
  let (resStart, resEnd) ← rangeReader
  skip reserveReader sections.length
  exactly (literal "\nPhysical Memory Manger Zones\n------------------------------------\n")
  skip zoneReader sections.length
  exactly (literal "------------------------------------\n")
  return { sections := sections, resStart := resStart, resEnd := resEnd }

section

variable {c : BitVec 8}

theorem reads_hexTo (s : String) (hc : digitOf c = none) (w : BitVec 32) :
    Reads (hexTo s c) (literal s ++ (numeral 16 w.toNat ++ [c])) w :=
  (reads_exactly _).bind (reads_field (hexadecimal_numeral w) (numeral_ne hc _))

theorem reads_decTo (s : String) (hc : digitOf c = none) (hminus : c ≠ chr '-') (w : BitVec 32) :
    Reads (decTo s c) (literal s ++ (signedDecimal w.toInt ++ [c])) w :=
  (reads_exactly _).bind (reads_field (decimal_signedDecimal w) (signedDecimal_ne hc hminus w))

end

theorem reads_section (r : SectionRecord) : Reads sectionReader r.text r := by
  have htext : r.text = (literal "(*) base: " ++ (numeral 16 r.base.toNat ++ [0x09])) ++ ((literal "len: " ++
      (numeral 16 r.len.toNat ++ [chr ' '])) ++ (literal "bytes\ttype: " ++ (signedDecimal r.type.toInt ++ [0x0A]))) := by
    simp [SectionRecord.text, sectionText, literal, chr]
  rw [htext]
  refine (reads_hexTo _ (by decide) _).bind ((reads_hexTo _ (by decide) _).bind ?_)
  exact (reads_decTo _ (by decide) (by decide) _).bind_pure _

theorem reads_range (size resStart resEnd : BitVec 32) : Reads rangeReader (rangeText size resStart resEnd) (resStart, resEnd) := by
  have htext : rangeText size resStart resEnd = (literal "PMM strucutres take " ++ (signedDecimal size.toInt ++ [chr ' '])) ++
      ((literal "bytes\n\nReserving kernel blocks\nkernel start : " ++ (numeral 16 resStart.toNat ++ [0x09])) ++
        (literal "kernel end: " ++ (numeral 16 resEnd.toNat ++ [0x0A]))) := by
    simp [rangeText, literal, chr]
  rw [htext]
  refine (reads_decTo _ (by decide) (by decide) _).bind ((reads_hexTo _ (by decide) _).bind ?_)
  exact (reads_hexTo _ (by decide) _).bind_pure _

theorem reads_reserve (resStart resEnd start end_ : BitVec 32) : Reads reserveReader (reserveText resStart resEnd start end_) () := by
  have hzone : literal "zone start: " ++ (numeral 16 start.toNat ++ (literal "\tzone end: " ++ (numeral 16 end_.toNat ++
      literal "\n"))) = (literal "zone start: " ++ (numeral 16 start.toNat ++ [0x09])) ++ (literal "zone end: " ++
      (numeral 16 end_.toNat ++ [0x0A])) := by
    simp [literal, chr]
  have hbits : ∀ v w : BitVec 32, literal "kernel and zone overlap\n" ++ (literal "kstart bit: " ++ (signedDecimal v.toInt ++
      (literal "\tkend bit: " ++ (signedDecimal w.toInt ++ literal "\n")))) = (literal "kernel and zone overlap\nkstart bit: " ++
      (signedDecimal v.toInt ++ [0x09])) ++ (literal "kend bit: " ++ (signedDecimal w.toInt ++ [0x0A])) := by
    intro v w
    simp [literal, chr]
  rw [reserveText, hzone, List.append_assoc]
  refine (reads_hexTo _ (by decide) _).bind ((reads_hexTo _ (by decide) _).bind ?_)
  split
  · rw [hbits, List.append_assoc]
    refine Reads.orElse_left ?_ _
    exact (reads_decTo _ (by decide) (by decide) _).bind ((reads_decTo _ (by decide) (by decide) _).bind (reads_exactly _))
  · rw [List.nil_append]
    have hfails : Fails (exactly (literal "kernel and zone overlap\nkstart bit: ")) (literal "\n") :=
      exactly_fails (c := chr 'k') (d := chr '\n') (by simp [literal]) (by simp [literal]) (by decide)
    exact Reads.orElse_right (reads_exactly _) hfails.bind.bind

theorem reads_words (m : Mem) (mapstart : BitVec 32) (n : Nat) : Reads (skip (hexTo " " (chr ' ')) n) (wordsText m mapstart n) () := by
  have hspace : literal " " = [chr ' '] := by simp [literal]
  have hword : ∀ t ∈ (List.range n).map (fun i => wordText (m.load (Mem.cell mapstart i))), ∃ w, Reads (hexTo " " (chr ' ')) t w := by
    rw [List.forall_mem_map]
    intro i _
    have hread := reads_hexTo (c := chr ' ') " " (by decide) (m.load (Mem.cell mapstart i))
    rw [← hspace, ← List.append_assoc] at hread
    exact ⟨_, hread⟩
  have hskip := reads_skip hword
  rwa [List.length_map, List.length_range] at hskip

theorem reads_zone (m : Mem) (q : BitVec 32) : Reads zoneReader (zoneText m q ++ literal "\n") () := by
  have htext : zoneText m q ++ literal "\n" = (literal "Zone info @ " ++ (numeral 16 q.toNat ++ [chr ':'])) ++
      ((literal " \nzone start: " ++ (numeral 16 (zoneField m q .start).toNat ++ [0x0A])) ++
      ((literal "zone end: " ++ (numeral 16 (zoneField m q .end_).toNat ++ [0x0A])) ++
      ((literal "zone free: " ++ (signedDecimal (zoneField m q .free).toInt ++ [chr ' '])) ++
      ((literal "blocks\nzone length: " ++ (signedDecimal (zoneField m q .length).toInt ++ [0x0A])) ++
      ((literal "zone bitmap words: " ++ (signedDecimal (zoneField m q .bitmapWords).toInt ++ [chr ' '])) ++
      ((literal "words : " ++ (signedDecimal (zoneField m q .bitmapWords * 4).toInt ++ [chr ' '])) ++
      ((literal "bytes\nbitmap location: " ++ (numeral 16 (zoneField m q .bitmap).toNat ++ [0x0A])) ++
      (literal "bitmap contents : " ++ (wordsText m (zoneField m q .bitmap) (min (zoneField m q .bitmapWords).toNat 6) ++
        if 6 ≤ (zoneField m q .bitmapWords).toNat then literal "...\n\n" else literal "\n\n"))))))))) := by
    rw [zoneText, bitmapText]
    split <;> simp [fieldTexts, literal, chr]
  rw [htext]
  refine (reads_hexTo _ (by decide) _).bind ((reads_hexTo _ (by decide) _).bind ((reads_hexTo _ (by decide) _).bind ?_))
  refine (reads_decTo _ (by decide) (by decide) _).bind ((reads_decTo _ (by decide) (by decide) _).bind ?_)
  refine (reads_decTo _ (by decide) (by decide) _).bind ((reads_decTo _ (by decide) (by decide) _).bind ?_)
  refine (reads_hexTo _ (by decide) _).bind ((reads_exactly _).bind ((reads_words _ _ _).bind ?_))
  split
  · exact (reads_exactly _).orElse_left _
  · have hfails : Fails (exactly (literal "...\n\n")) (literal "\n\n") :=
      exactly_fails (c := chr '.') (d := chr '\n') (by simp [literal]) (by simp [literal]) (by decide)
    exact Reads.orElse_right (reads_exactly _) hfails

theorem section_text_ne_nil (r : SectionRecord) : r.text ≠ [] := by
  simp [SectionRecord.text, sectionText, literal]

/-- The log of `init_pmm` is read back, when it has one part for each section in the reservation and one in `printZones`. -/
theorem reads_init {k : Kernel} {boot : Boot} {m : Mem} {w : Walk} {ws : List Walk} {ts : List (Mem × BitVec 32)}
    {qs : List (BitVec 32)} {sections : List SectionRecord} (hws : ws.flatMap (walkText boot) = sections.flatMap SectionRecord.text)
    (hts : ts.length = sections.length) (hqs : qs.length = sections.length) :
    Reads bootReader (initText k boot m w ws ts qs) ⟨sections, k.resStart, k.resEnd w.pmmStructuresSize⟩ := by
  have hreserve : Reads (skip reserveReader sections.length)
      (ts.flatMap (reserveTurnText k.resStart (k.resEnd w.pmmStructuresSize))) () := by
    have hskip := reads_skip (p := reserveReader) (List.forall_mem_map.mpr fun (s : Mem × BitVec 32) (_ : s ∈ ts) =>
      ⟨(), reads_reserve k.resStart (k.resEnd w.pmmStructuresSize) (zoneField s.1 s.2 .start) (zoneField s.1 s.2 .end_)⟩)
    rwa [List.length_map, hts] at hskip
  have hzones : Reads (skip zoneReader sections.length) (qs.flatMap (fun q => zoneText m q ++ literal "\n")) () := by
    have hskip := reads_skip (p := zoneReader) (List.forall_mem_map.mpr fun q (_ : q ∈ qs) => ⟨(), reads_zone m q⟩)
    rwa [List.length_map, hqs] at hskip
  have hfails : Fails (exactly (literal "(*) base: ")) (rangeText w.pmmStructuresSize k.resStart (k.resEnd w.pmmStructuresSize)) :=
    exactly_fails (c := chr '(') (d := chr 'P') (by simp [literal]) (by simp [rangeText, literal]) (by decide)
  rw [initText, hws, zonesText, List.append_assoc]
  refine (reads_exactly _).bind (Reads.many_bind reads_section section_text_ne_nil (hfails.bind.bind.append _) ?_)
  refine (reads_range _ _ _).bind (hreserve.bind ((reads_exactly _).bind (hzones.bind ?_)))
  exact (reads_exactly _).bind_pure _

/-! ## The parts of the log -/

/-- The section of an entry. -/
def MmapEntry.record (e : MmapEntry) : SectionRecord where
  base := e.baseLow
  len := e.lengthLow
  type := e.type

/-- The walk takes a turn from each entry of the memory map. -/
theorem visits_entries {k : Kernel} {boot : Boot} {stop : BitVec 32} {w t : Walk} {ws : List Walk}
    (h : Visits (fun w => w.sect < stop) (walkStep k boot) w ws t) :
    ∀ {es : List MmapEntry}, MapEntries boot stop w.sect es → ws.map (fun w => boot.entry w.sect) = es := by
  induction h with
  | exit hc =>
    intro es hes
    cases hes with
    | done _ => rfl
    | entry hlt _ => exact absurd hlt (of_decide_eq_false hc)
  | turn hc hu _ ih =>
    intro es hes
    cases hes with
    | done hge => exact absurd (of_decide_eq_true hc) hge
    | entry _ rest =>
      rw [← (walkStep_returns hu).1] at rest
      rw [List.map_cons, ih rest]

/-- The walk logs the usable entries. -/
theorem walk_sections {boot : Boot} {ws : List Walk} {es : List MmapEntry} (h : ws.map (fun w => boot.entry w.sect) = es) :
    ws.flatMap (walkText boot) = ((usable es).map MmapEntry.record).flatMap SectionRecord.text := by
  subst h
  induction ws with
  | nil => rfl
  | cons w ws ih =>
    rw [List.flatMap_cons, ih, List.map_cons, walkText]
    by_cases hs : (boot.entry w.sect).skipped = true
    · rw [if_pos hs, usable_of_skipped hs, List.nil_append]
    · rw [if_neg hs, usable_of_not_skipped (Bool.not_eq_true _ ▸ hs), List.map_cons, List.flatMap_cons]
      rfl

section

variable {base resStart resEnd : BitVec 32} {n : Nat}

/-- The reservation takes a turn from each zone. -/
theorem reserveLoop_length (hfit : Fits base n) {zs : List Zone} :
    ∀ {m : Mem} {h : Nat} {b : Bool} {ts : List (Mem × BitVec 32)} {t : Mem × BitVec 32}, ZonesAt base m h (bumpHead b zs) →
    h + cellsOf zs ≤ n → (∀ z ∈ zs, ∀ b, (z.bump b).RangeOk resStart resEnd) →
    Visits (fun s => s.2 ≠ 0) (reserveTurn resStart resEnd) (m, ptrTo base h zs) ts t → ts.length = zs.length := by
  induction zs with
  | nil =>
    intro m h b ts t _ _ _ hv
    cases hv with
    | exit _ => rfl
    | turn hc _ _ => exact absurd rfl (of_decide_eq_true hc)
  | cons z zs ih =>
    intro m h b ts t hz hn hok hv
    have hlt := hfit.lt_cells
    have h8 := z.eight_le_cells
    have hstep := hz.reserveHead (by omega) (hok z (by simp) b)
    simp only [cellsOf] at hn
    cases hv with
    | exit hc => exact absurd (hfit.cell_ne_zero (by omega)) (of_decide_eq_false hc)
    | @turn _ u _ vs hc hu hv =>
      obtain ⟨m₁, hm₁, hu⟩ := returns_bind.mp hu
      obtain ⟨hz₁, htail, _⟩ := hstep.of_returns hm₁
      have hnext : zoneField m₁ (Mem.cell base h) .nextZone = ptrTo base (h + z.cells) zs := hz₁.header .nextZone
      have hu' : (m₁, ptrTo base (h + z.cells) zs) = u := by
        rw [← hnext]
        exact returns_pure.mp hu
      rw [← hu'] at hv
      rw [List.length_cons, List.length_cons, ih htail (by omega) (fun y hy => hok y (List.mem_cons_of_mem z hy)) hv]

/-- The list in memory has the zones' number of members. -/
theorem ZonesAt.chain_length (hfit : Fits base n) {m : Mem} {zs : List Zone} : ∀ {h : Nat} {qs : List (BitVec 32)},
    ZonesAt base m h zs → h + cellsOf zs ≤ n → ZoneChain m (ptrTo base h zs) qs → qs.length = zs.length := by
  induction zs with
  | nil =>
    intro h qs _ _ hqs
    cases hqs with
    | nil => rfl
    | cons hne _ => exact absurd rfl hne
  | cons z zs ih =>
    intro h qs hz hn hqs
    have h8 := z.eight_le_cells
    simp only [cellsOf] at hn
    have hne := hfit.cell_ne_zero (show h < n by omega)
    generalize hq : ptrTo base h (z :: zs) = q at hqs
    have hcell : Mem.cell base h = q := hq
    cases hqs with
    | nil => exact absurd hcell hne
    | cons _ rest =>
      have hnext : zoneField m (Mem.cell base h) .nextZone = ptrTo base (h + z.cells) zs := hz.1.header .nextZone
      rw [← hcell, hnext] at rest
      rw [List.length_cons, List.length_cons, ih hz.2 (by omega) rest]

end

/-- What `init_pmm` says of a memory map. -/
def bootRecord (k : Kernel) (es : List MmapEntry) : BootRecord where
  sections := (usable es).map MmapEntry.record
  resStart := k.resStart
  resEnd := k.resEnd (structuresSize es)

/-- The log of `init_pmm` is read back. -/
theorem InitRun.reads {k : Kernel} {boot : Boot} {mbt : MultibootInfo} {es : List MmapEntry} {m₀ m : Mem} {w : Walk} {ws : List Walk}
    {ts : List (Mem × BitVec 32)} {qs : List (BitVec 32)} (h : InitRun k boot mbt m₀ m w ws ts qs) (hmap : MemoryMap boot mbt es)
    (hp : Placed k es) (hr : Returns (initPmm k boot mbt m₀) m) :
    Reads bootReader (initText k boot m w ws ts qs) (bootRecord k es) := by
  obtain ⟨hb, hz⟩ := initPmm_returns hmap hp.usable_ne hp.fits hr
  have hinv := (walk_newZones m₀ hmap hp.fits hb).of_returns h.walk.returns
  have hsize : w.pmmStructuresSize = structuresSize es := hinv.size
  have hsections := walk_sections (visits_entries h.walk hmap)
  have hlen : ((usable es).map MmapEntry.record).length = (newZones es).length := by
    rw [newZones, List.length_map, List.length_map]
  have hts : ts.length = (newZones es).length := by
    obtain ⟨q, hv⟩ := h.reserve
    rw [k.memoryZones_eq (List.map_eq_nil_iff.not.mpr hp.usable_ne), hsize] at hv
    have hnew : ZonesAt k.kernelEnd w.mem 0 (bumpHead false (newZones es)) := by
      rw [bumpHead_false]
      exact hinv.zones
    exact reserveLoop_length hp.fits hnew (Nat.le_of_eq (Nat.zero_add _))
      (newZones_rangeOk hb (resStart_le_of_fits hp.usable_ne hp.fits)) hv
  have hqs : qs.length = (newZones es).length := by
    have hchain := h.zones
    rw [k.memoryZones_eq (initialZones_ne k hp.usable_ne)] at hchain
    have hcells : 0 + cellsOf (initialZones k es) ≤ cellsOf (newZones es) := Nat.le_of_eq (by rw [cellsOf_initialZones, Nat.zero_add])
    rw [ZonesAt.chain_length hp.fits hz hcells hchain, length_initialZones, newZones, List.length_map]
  have hreads := reads_init (k := k) (m := m) (w := w) hsections (hts.trans hlen.symm) (hqs.trans hlen.symm)
  rwa [hsize] at hreads

/-! ## Replaying the records -/

/-- The zone that `init_pmm` makes of a section. -/
def SectionRecord.zone (r : SectionRecord) : Zone :=
  MmapEntry.zone { size := 0, baseLow := r.base, baseHigh := 0, lengthLow := r.len, lengthHigh := 0, type := r.type }

/-- The zones that `init_pmm` leaves. -/
def BootRecord.zones (b : BootRecord) : List Zone := reserveZones b.resStart b.resEnd false (b.sections.map SectionRecord.zone)

/-- A block of the first zone whose counter is not 0 is taken. -/
def takeFirst (i : Nat) : List Zone → List Zone
  | [] => []
  | z :: zs => if z.free = 0 then z :: takeFirst i zs else z.take i :: zs

/-- A block of the first zone is given back. -/
def releaseFirst (i : Nat) : List Zone → List Zone
  | [] => []
  | z :: zs => if hi : i < z.length.toNat then z.release i hi :: zs else z :: zs

/-- What a record says of the zones. -/
def replay (zs : List Zone) : PmmRecord → List Zone
  | .alloc (.returning _ _ block) => takeFirst block.toNat zs
  | .alloc _ => zs
  | .notFound _ => zs
  | .free _ _ offset => releaseFirst offset.toNat zs

/-- What a log says of the zones. -/
def replayed (log : List (BitVec 8)) : Option (List Zone) := do
  let (b, rest) ← bootReader.run log
  let rs ← readText record rest
  return rs.foldl replay b.zones

theorem takeFirst_append {pre suf : List Zone} {z : Zone} (hpre : ∀ y ∈ pre, y.free = 0) (hz : z.free ≠ 0) (i : Nat) :
    takeFirst i (pre ++ z :: suf) = pre ++ z.take i :: suf := by
  induction pre with
  | nil => exact if_neg hz
  | cons y pre ih =>
    rw [List.forall_mem_cons] at hpre
    rw [List.cons_append, takeFirst, if_pos hpre.1, ih hpre.2, List.cons_append]

/-- A log of `init_pmm` and of calls. -/
theorem replayed_append {text : List (BitVec 8)} {b : BootRecord} (h : Reads bootReader text b) (rs : List PmmRecord) :
    replayed (text ++ rs.flatMap PmmRecord.text) = some (rs.foldl replay b.zones) := by
  rw [replayed, h, Option.bind_eq_bind, Option.bind_some]
  show (readText record (rs.flatMap PmmRecord.text) >>= fun rs => pure (rs.foldl replay b.zones)) = _
  rw [readText_flatMap reads_record record_text_ne_nil]
  rfl

/-- The zones of the log of `init_pmm` are those that it leaves. -/
theorem bootRecord_zones (k : Kernel) (es : List MmapEntry) : (bootRecord k es).zones = initialZones k es := by
  rw [BootRecord.zones, initialZones, newZones, bootRecord, List.map_map]
  rfl

section

variable {k : Kernel} {es : List MmapEntry} {m : Mem} {zs : List Zone} {zone a : BitVec 32}
variable {stack : List (BitVec 8) → CharPtr} {out : List (BitVec 8)}

/-- The search of a padded bitmap from offset 0 writes which block it takes. -/
theorem searchZone_record {n : Nat} (hends : ScanEnds m (zoneField m zone .bitmap) (zoneField m zone .length))
    (hcovers : (zoneField m zone .length).toNat ≤ 32 * n)
    (hpadded : ∀ i, (zoneField m zone .length).toNat ≤ i → i < 32 * n → m.bit (zoneField m zone .bitmap) i = true) :
    Ensures (searchZoneLogged stack m zone 0 out) (fun r => r = ((0, m), out ++ (SearchRecord.noWords (zoneField m zone .start)).text) ∨
      ∃ i j, j.toNat < (zoneField m zone .length).toNat ∧
        r = (takeBlock m zone j, out ++ (SearchRecord.returning (zoneField m zone .start) i j).text)) := by
  refine Ensures.bind ⟨_, (logs_searchZone _).logTo stack out, rfl⟩ ?_
  rintro _ rfl
  refine Ensures.bind (scanWords_ensures hends) ?_
  rintro i ⟨hmod, -, hset, hi | ⟨hi, t, ht, hu⟩⟩
  · rw [if_pos hi]
    refine Ensures.bind ⟨_, logs_noWords.logTo stack _, rfl⟩ ?_
    rintro _ rfl
    exact ensures_pure (Or.inl (by rw [SearchRecord.text, List.append_assoc]))
  · rw [if_neg (by bv_omega)]
    have hlast := hends.lt hmod hi hset
    refine Ensures.bind ⟨_, (logs_searchWord i).logTo stack _, rfl⟩ ?_
    rintro _ rfl
    refine Ensures.bind (scanBits_ensures hends hmod hi ht hu hset) ?_
    rintro j ⟨hj, hju, -⟩
    rw [if_neg (by bv_omega)]
    have hjl : j.toNat < (zoneField m zone .length).toNat := by
      by_contra hge
      rw [hpadded j.toNat (by omega) (by bv_omega)] at hju
      cases hju
    refine Ensures.bind ⟨_, (logs_returning j).logTo stack _, rfl⟩ ?_
    rintro _ rfl
    refine ensures_pure (Or.inr ⟨i, j, hjl, ?_⟩)
    rw [SearchRecord.text, List.append_assoc, List.append_assoc]

/-- `pmm_alloc` leaves the zones that its record says. -/
theorem pmmAlloc_replay (hz : HasZones k es m zs) (hp : Placed k es) : Ensures (pmmAllocLogged stack k m out) (fun r =>
    ∃ search, r.2 = out ++ (PmmRecord.alloc search).text ∧ HasZones k es r.1.2 (replay zs (.alloc search))) := by
  refine Ensures.bind ⟨_, logs_allocate.logTo stack out, rfl⟩ ?_
  rintro _ rfl
  refine Ensures.bind (searchFree_ensures hz.inMem (hz.shaped.ne hp) (hz.shaped.fits hp)) ?_
  rintro ptr (⟨rfl, -⟩ | ⟨pre, z, suf, rfl, hpre, hfree, hptr, rfl, hza⟩)
  · rw [if_pos rfl]
    refine Ensures.bind ⟨_, logs_noZones.logTo stack _, rfl⟩ ?_
    rintro _ rfl
    exact ensures_pure ⟨.noZones, by rw [PmmRecord.text, SearchRecord.text, List.append_assoc, List.append_assoc], hz⟩
  · have hl := z.length_le_bits
    have hlength : zoneField m (Mem.cell k.kernelEnd (cellsOf pre)) .length = z.length := hza.header .length
    have hbitmap : zoneField m (Mem.cell k.kernelEnd (cellsOf pre)) .bitmap = Mem.cell k.kernelEnd (cellsOf pre + 8) :=
      hza.header .bitmap
    have hhint : zoneField m (Mem.cell k.kernelEnd (cellsOf pre)) .lastOffset = 0 := by
      rw [hza.header .lastOffset, Zone.header, hz.shaped.hint z (by simp)]
    rw [if_neg hptr]
    simp only [hhint]
    refine Ensures.imp (searchZone_record (n := z.bitmapWords.toNat) ?_ ?_ ?_) ?_
    · rw [hlength]
      exact Or.inl (z.length_le.trans (by decide))
    · rwa [hlength]
    · rw [hlength, hbitmap]
      intro i hle hi
      rw [hza.bitmap_bit hi, z.padded i hle]
    rintro r (rfl | ⟨i, j, hj, rfl⟩)
    · exact ⟨.noWords _, by rw [PmmRecord.text, List.append_assoc, List.append_assoc], hz⟩
    · rw [hlength] at hj
      have htake := hz.inMem.take (hz.shaped.fits hp) hj
      rw [← hbitmap] at htake
      refine ⟨.returning _ i j, by rw [PmmRecord.text, List.append_assoc, List.append_assoc], ?_⟩
      rw [replay, takeFirst_append hpre hfree]
      refine ⟨?_, htake⟩
      rw [Shaped, List.map_append, List.map_cons, Zone.take_shape, ← List.map_cons, ← List.map_append]
      exact hz.shaped

/-- `pmm_free` of an address in the first zone leaves the zones that its record says. -/
theorem pmmFree_replay (hz : HasZones k es m zs) (hp : Placed k es) (hb : ∀ e ∈ usable es, 1 ≤ e.blocks) (ha : InFirst k m a)
    {m' : Mem} {log : List (BitVec 8)} (h : Returns (pmmFreeLogged stack k m a out) (m', log)) :
    ∃ r : PmmRecord, log = out ++ r.text ∧ HasZones k es m' (replay zs r) := by
  obtain ⟨_, z, suf, -, rfl, -⟩ := hz.shaped.head hp
  have hi := hz.inFirst_iff.mp ha
  have hfree := pmmFree_of_logged h
  have hstart : zoneField m k.memoryZones .start = z.start := hz.inMem.first .start
  have hend : zoneField m k.memoryZones .end_ = z.end_ := hz.inMem.first .end_
  have hfound : Returns (freeZone k m a) k.memoryZones := by
    refine returns_loop_exit (decide_eq_false fun hc => ?_)
    rw [hstart, hend] at hc
    exact hz.shaped.search hp hb hi hc.2
  have hlog : log = out ++ (freeRecordOf m a k.memoryZones).text :=
    congrArg Prod.snd (h.unique (pmmFree_logged hfound hfree stack out))
  refine ⟨_, hlog, ?_⟩
  rw [freeRecordOf, if_neg k.memoryZones_ne_zero, hstart, replay, releaseFirst, dif_pos hi]
  exact ⟨hz.shaped.release hi, hz.shaped.pmmFree hp hb hz.inMem hi hfree⟩

end

/-! ## Runs of calls -/

/-- The PMM with calls, from `init_pmm` on, with what they and `init_pmm` log. -/
def journalSystem (k : Kernel) (boot : Boot) (mbt : MultibootInfo) (ok : Mem → BitVec 32 → Prop) : System LoggedCalls where
  init s := (∃ stack m₀, Returns (initPmmLogged stack k boot mbt m₀ []) (s.mem, s.log)) ∧ s.events = []
  step := LoggedStep k ok

/-- The log is one of `init_pmm` and of calls, and says which zones are in memory. -/
def LoggedCalls.Replays (k : Kernel) (es : List MmapEntry) (s : LoggedCalls) : Prop :=
  ∃ (text : List (BitVec 8)) (rs : List PmmRecord), s.log = text ++ rs.flatMap PmmRecord.text ∧
    Reads bootReader text (bootRecord k es) ∧ HasZones k es s.mem (rs.foldl replay (initialZones k es))

section

variable {k : Kernel} {boot : Boot} {mbt : MultibootInfo} {es : List MmapEntry} {ok : Mem → BitVec 32 → Prop} {s t : LoggedCalls}

theorem LoggedCalls.Replays.append {text log : List (BitVec 8)} {rs : List PmmRecord} {m : Mem} {events : List PmmEvent} (r : PmmRecord)
    (hs : s.log = text ++ rs.flatMap PmmRecord.text) (htext : Reads bootReader text (bootRecord k es)) (hlog : log = s.log ++ r.text)
    (hz : HasZones k es m (replay (rs.foldl replay (initialZones k es)) r)) : LoggedCalls.Replays k es ⟨m, log, events⟩ := by
  refine ⟨text, rs ++ [r], ?_, htext, ?_⟩
  · rw [hlog, hs, List.flatMap_append, List.flatMap_singleton, List.append_assoc]
  · rwa [List.foldl_append]

theorem LoggedStep.replays (hp : Placed k es) (hb : ∀ e ∈ usable es, 1 ≤ e.blocks) (hok : ∀ m a, ok m a → InFirst k m a)
    (hs : s.Replays k es) (h : LoggedStep k ok s t) : t.Replays k es := by
  obtain ⟨text, rs, hlog, htext, hz⟩ := hs
  cases h with
  | alloc h =>
    obtain ⟨search, halloc, hz'⟩ := (pmmAlloc_replay hz hp).of_returns h
    exact .append (.alloc search) hlog htext halloc hz'
  | free ha h =>
    obtain ⟨r, hfree, hz'⟩ := pmmFree_replay hz hp hb (hok _ _ ha) h
    exact .append r hlog htext hfree hz'

/-- What `init_pmm` leaves and logs. -/
theorem replays_init (hmap : MemoryMap boot mbt es) (hp : Placed k es) {stack : List (BitVec 8) → CharPtr} {m₀ m : Mem}
    {log : List (BitVec 8)} (h : Returns (initPmmLogged stack k boot mbt m₀ []) (m, log)) (events : List PmmEvent) :
    LoggedCalls.Replays k es ⟨m, log, events⟩ := by
  have hinit := initPmm_of_logged h
  obtain ⟨w, ws, ts, qs, hrun⟩ := exists_initRun hinit
  have hlog : log = initText k boot m w ws ts qs := congrArg Prod.snd (h.unique (hrun.logged stack []))
  refine ⟨log, [], (List.append_nil log).symm, ?_, rfl, (initPmm_returns hmap hp.usable_ne hp.fits hinit).2⟩
  rw [hlog]
  exact hrun.reads hmap hp hinit

/-- In every run of `init_pmm` and of calls that give back addresses of the first zone only, on a memory map with a usable entry and with
structures that fit, the log says what is in the structures: the zones that a reader of the log finds, from the sections and the range that
`init_pmm` has logged and what the calls have, are the zones in memory, with their counters and their bitmaps. -/
theorem journal_replays (hmap : MemoryMap boot mbt es) (hp : Placed k es) (hok : ∀ m a, ok m a → InFirst k m a)
    (h : (journalSystem k boot mbt ok).Reachable s) :
    ∃ zs, replayed s.log = some zs ∧ ZonesAt k.kernelEnd s.mem 0 zs := by
  have hinv : (∀ e ∈ usable es, 1 ≤ e.blocks) ∧ s.Replays k es := by
    refine h.invariant (fun s => (∀ e ∈ usable es, 1 ≤ e.blocks) ∧ s.Replays k es) ?_ ?_
    · rintro s ⟨⟨stack, m₀, hinit⟩, -⟩
      exact ⟨initPmm_blocks hmap (initPmm_of_logged hinit), replays_init hmap hp hinit s.events⟩
    · rintro s t - ⟨hb, hs⟩ hstep
      exact ⟨hb, hstep.replays hp hb hok hs⟩
  obtain ⟨text, rs, hlog, htext, hz⟩ := hinv.2
  refine ⟨_, ?_, hz.inMem⟩
  rw [hlog, replayed_append htext, bootRecord_zones]

/-- Two calls on `twoZones`. -/
theorem journal_replays_twoZones : ∃ s zs,
    (journalSystem smallKernel (bootOf 0x9000 twoZones) (mapInfo 0x9000 twoZones) (InFirst smallKernel)).Reachable s ∧
    s.events = [.alloc 0x1000] ∧ replayed s.log = some zs ∧ ZonesAt smallKernel.kernelEnd s.mem 0 zs := by
  obtain ⟨m, hm, hfirst⟩ := exists_init smallKernel (bootOf 0x9000 twoZones) (mapInfo 0x9000 twoZones) 40
    (fun m => ((pmmAlloc smallKernel m).run 40).map Prod.fst) (some 0x1000) (by decide)
  obtain ⟨⟨a, m'⟩, ha, rfl⟩ := exists_returns_of_run hfirst
  obtain ⟨w, ws, ts, qs, hrun⟩ := exists_initRun hm
  have hz := hasZones_init twoZones_memoryMap twoZones_placed hm
  obtain ⟨search, -, hlogged⟩ := allocFrom_logged ha (hz.alloc_start twoZones_placed ha)
  have hinit := hrun.logged (fun _ _ => 0) []
  have hstart : (journalSystem smallKernel (bootOf 0x9000 twoZones) (mapInfo 0x9000 twoZones) (InFirst smallKernel)).Reachable
      ⟨m, _, []⟩ := .init ⟨⟨_, _, hinit⟩, rfl⟩
  have hs := hstart.step (.alloc (hlogged (fun _ _ => 0) _))
  obtain ⟨zs, hreplayed, hat⟩ := journal_replays twoZones_memoryMap twoZones_placed (fun _ _ h => h) hs
  exact ⟨_, zs, hs, rfl, hreplayed, hat⟩

end

end LumOS
