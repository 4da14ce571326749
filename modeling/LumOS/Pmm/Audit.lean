import LumOS.Lib.Reader
import LumOS.Libc.Numeral
import LumOS.Pmm.Foreign
import LumOS.Pmm.Hint
import LumOS.Pmm.Report

/-!
# What the calls log

`pmm_alloc`, `pmm_alloc2` and `pmm_free` with what they log. A `PmmRecord` is what one call writes, and `record` reads one back, without
knowing how the text was made. From what the calls of a run log a reader gets the calls and what each has returned (`log_reads_back`).
Where every zone's search starts at offset 0, as it does in such a run, `pmm_alloc2` logs what `pmm_alloc` does (`pmmAlloc2_logs`).
-/

namespace LumOS

open Comp Reader

/-! ## The calls with what they log -/

/-- The format `"\n[pmm_alloc] : trying to allocate 1 block\n"`. -/
def formatAllocate : CString := CString.ofChars (literal "\n[pmm_alloc] : trying to allocate 1 block\n") (by simp [literal, chr])

/-- The format `"no free zones\n"`. -/
def formatNoZones : CString := CString.ofChars (literal "no free zones\n") (by simp [literal, chr])

/-- The format `"searching in zone starting at %x\n"`. -/
def formatSearchZone : CString := CString.ofChars (literal "searching in zone starting at %x\n") (by simp [literal, chr])

/-- The format `"no free words in zone\n"`. -/
def formatNoWords : CString := CString.ofChars (literal "no free words in zone\n") (by simp [literal, chr])

/-- The format `"searching in word %d\n"`. -/
def formatSearchWord : CString := CString.ofChars (literal "searching in word %d\n") (by simp [literal, chr])

/-- The format `"no free blocks in word\n"`. -/
def formatNoBlocks : CString := CString.ofChars (literal "no free blocks in word\n") (by simp [literal, chr])

/-- The format `"returning block at %d\n"`. -/
def formatReturning : CString := CString.ofChars (literal "returning block at %d\n") (by simp [literal, chr])

/-- The format `"\n[pmm_alloc] : trying to free 1 block at %x (%d)\n"`. -/
def formatTryFree : CString :=
  CString.ofChars (literal "\n[pmm_alloc] : trying to free 1 block at %x (%d)\n") (by simp [literal, chr])

/-- The format `"couldn't find address in a zone"`. -/
def formatNotFound : CString := CString.ofChars (literal "couldn't find address in a zone") (by simp [literal, chr])

/-- The format `"found address in zone starting at %x\n"`. -/
def formatFound : CString := CString.ofChars (literal "found address in zone starting at %x\n") (by simp [literal, chr])

/-- The format `"address offset : %d\n"`. -/
def formatOffset : CString := CString.ofChars (literal "address offset : %d\n") (by simp [literal, chr])

section

variable (stack : List (BitVec 8) → CharPtr)

/-- `searchZone`, with what is logged from the zone on. -/
def searchZoneLogged (m : Mem) (zone s : BitVec 32) (out : List (BitVec 8)) : Comp ((BitVec 32 × Mem) × List (BitVec 8)) := do
  let out ← logTo stack (formatSearchZone, [.word (zoneField m zone .start)]) out
  let bitmap := zoneField m zone .bitmap
  let i ← loop (fun i => m.load (bitmap + 4 * (i / word)) = 0xFFFFFFFF ∧ i < zoneField m zone .length) (fun i => pure (i + word)) s
  if i ≥ zoneField m zone .length then
    let out ← logTo stack (formatNoWords, []) out
    return ((0, m), out)
  let out ← logTo stack (formatSearchWord, [.word i]) out
  let end_ := i + 32
  let i ← loop (fun i => i < end_ ∧ testBit m bitmap i) (fun i => pure (i + 1)) i
  if i ≥ end_ then
    let out ← logTo stack (formatNoBlocks, []) out
    return ((0, m), out)
  let out ← logTo stack (formatReturning, [.word i]) out
  return (takeBlock m zone i, out)

/-- `allocFrom`, with what is logged. -/
def allocFromLogged (k : Kernel) (m : Mem) (start : BitVec 32 → BitVec 32) (out : List (BitVec 8)) :
    Comp ((BitVec 32 × Mem) × List (BitVec 8)) := do
  let out ← logTo stack (formatAllocate, []) out
  let zone ← loop (fun zone => zone ≠ 0 ∧ zoneField m zone .free = 0)
    (fun zone => pure (zoneField m zone .nextZone)) k.memoryZones
  if zone = 0 then
    let out ← logTo stack (formatNoZones, []) out
    return ((0, m), out)
  searchZoneLogged stack m zone (start zone) out

/-- `pmm_alloc`, with what it logs. -/
def pmmAllocLogged (k : Kernel) (m : Mem) (out : List (BitVec 8)) : Comp ((BitVec 32 × Mem) × List (BitVec 8)) :=
  allocFromLogged stack k m (fun zone => zoneField m zone .lastOffset) out

/-- `pmm_alloc2`, with what it logs. -/
def pmmAlloc2Logged (k : Kernel) (m : Mem) (out : List (BitVec 8)) : Comp ((BitVec 32 × Mem) × List (BitVec 8)) :=
  allocFromLogged stack k m (fun _ => 0) out

/-- `pmm_free`, with what it logs. -/
def pmmFreeLogged (k : Kernel) (m : Mem) (addr : BitVec 32) (out : List (BitVec 8)) : Comp (Mem × List (BitVec 8)) := do
  let out ← logTo stack (formatTryFree, [.word addr, .word addr]) out
  let zone ← freeZone k m addr
  if zone = 0 then
    let out ← logTo stack (formatNotFound, []) out
    return (m, out)
  let out ← logTo stack (formatFound, [.word (zoneField m zone .start)]) out
  let offset := getOffset (zoneField m zone .start) addr
  let out ← logTo stack (formatOffset, [.word offset]) out
  let m := unsetBit m (zoneField m zone .bitmap) offset
  return (setZoneField m zone .free (zoneField m zone .free + 1), out)

end

/-! ## The record of a call -/

/-- What is logged of the search for a block. -/
inductive SearchRecord where
  | noZones
  | noWords (start : BitVec 32)
  | noBlocks (start i : BitVec 32)
  | returning (start i block : BitVec 32)
  deriving DecidableEq

/-- What is logged of a call. -/
inductive PmmRecord where
  | alloc (search : SearchRecord)
  | notFound (addr : BitVec 32)
  | free (addr start offset : BitVec 32)
  deriving DecidableEq

/-- A line with a number in radix 16. -/
def hexLine (s : String) (w : BitVec 32) : List (BitVec 8) := literal s ++ (numeral 16 w.toNat ++ [0x0A])

/-- A line with a signed number in radix 10. -/
def decLine (s : String) (w : BitVec 32) : List (BitVec 8) := literal s ++ (signedDecimal w.toInt ++ [0x0A])

/-- What `pmm_alloc` writes after its first line. -/
def SearchRecord.text : SearchRecord → List (BitVec 8)
  | .noZones => literal "no free zones\n"
  | .noWords start => hexLine "searching in zone starting at " start ++ literal "no free words in zone\n"
  | .noBlocks start i =>
    hexLine "searching in zone starting at " start ++ (decLine "searching in word " i ++ literal "no free blocks in word\n")
  | .returning start i block =>
    hexLine "searching in zone starting at " start ++ (decLine "searching in word " i ++ decLine "returning block at " block)

/-- What a call writes. -/
def PmmRecord.text : PmmRecord → List (BitVec 8)
  | .alloc search => literal "\n[pmm_alloc] : trying to " ++ (literal "allocate 1 block\n" ++ search.text)
  | .notFound addr => literal "\n[pmm_alloc] : trying to " ++ (literal "free 1 block at " ++ ((numeral 16 addr.toNat ++ literal " ") ++
      (literal "(" ++ ((signedDecimal addr.toInt ++ literal ")") ++ (literal "\n" ++ literal "couldn't find address in a zone")))))
  | .free addr start offset => literal "\n[pmm_alloc] : trying to " ++ (literal "free 1 block at " ++ ((numeral 16 addr.toNat ++
      literal " ") ++ (literal "(" ++ ((signedDecimal addr.toInt ++ literal ")") ++ (literal "\n" ++
        (hexLine "found address in zone starting at " start ++ decLine "address offset : " offset))))))

/-- The value that `pmm_alloc` has returned. -/
def SearchRecord.result : SearchRecord → BitVec 32
  | .returning start _ block => getAddress start block
  | _ => 0

/-- A call, with the value returned. -/
inductive PmmEvent where
  | alloc (result : BitVec 32)
  | free (addr : BitVec 32)
  deriving DecidableEq

/-- The call of a record. -/
def PmmRecord.event : PmmRecord → PmmEvent
  | .alloc search => .alloc search.result
  | .notFound addr => .free addr
  | .free addr _ _ => .free addr

/-! ## Reading a record -/

/-- The number that characters are read as in radix 16. -/
def hexadecimal (s : List (BitVec 8)) : Option (BitVec 32) := (readDigits 16 0 s).map (BitVec.ofNat 32)

/-- The number that characters are read as in radix 10, with a sign. -/
def decimal (s : List (BitVec 8)) : Option (BitVec 32) :=
  (readDigits 10 0 (unsigned s)).map (fun n : Nat => BitVec.ofInt 32 (if s.head? = some (chr '-') then -n else n))

/-- Read a line with a number in radix 16. -/
def hexReader (s : String) : Reader (BitVec 8) (BitVec 32) := do
  exactly (literal s)
  field hexadecimal 0x0A

/-- Read a line with a signed number in radix 10. -/
def decReader (s : String) : Reader (BitVec 8) (BitVec 32) := do
  exactly (literal s)
  field decimal 0x0A

/-- Read what `pmm_alloc` writes after its first line. -/
def searchRecord : Reader (BitVec 8) SearchRecord :=
  (do
    exactly (literal "no free zones\n")
    return .noZones) <|> do
  let start ← hexReader "searching in zone starting at "
  (do
    exactly (literal "no free words in zone\n")
    return .noWords start) <|> do
  let i ← decReader "searching in word "
  (do
    exactly (literal "no free blocks in word\n")
    return .noBlocks start i) <|> do
  let block ← decReader "returning block at "
  return .returning start i block

/-- Read what `pmm_free` writes after the words it begins with. -/
def freeRecord : Reader (BitVec 8) PmmRecord := do
  exactly (literal "free 1 block at ")
  let addr ← field hexadecimal (chr ' ')
  exactly (literal "(")
  let _ ← field decimal (chr ')')
  exactly (literal "\n")
  (do
    exactly (literal "couldn't find address in a zone")
    return .notFound addr) <|> do
  let start ← hexReader "found address in zone starting at "
  let offset ← decReader "address offset : "
  return .free addr start offset

/-- Read what a call writes. -/
def record : Reader (BitVec 8) PmmRecord := do
  exactly (literal "\n[pmm_alloc] : trying to ")
  (do
    exactly (literal "allocate 1 block\n")
    let search ← searchRecord
    return .alloc search) <|> freeRecord

theorem hexadecimal_numeral (w : BitVec 32) : hexadecimal (numeral 16 w.toNat) = some w := by
  rw [hexadecimal, readDigits_numeral (by decide) (by decide), Option.map_some, BitVec.ofNat_toNat, BitVec.setWidth_eq]

theorem decimal_signedDecimal (w : BitVec 32) : decimal (signedDecimal w.toInt) = some w := by
  have hcanonical : Canonical 10 _ _ := canonical_itoaText w (by decide) (by decide)
  rw [itoaText_ten, itoaValue, if_pos rfl] at hcanonical
  rw [decimal, hcanonical.reads, Option.map_some]
  congr 1
  have hvalue : (if (signedDecimal w.toInt).head? = some (chr '-') then -(w.toInt.natAbs : Int) else w.toInt.natAbs) = w.toInt := by
    split
    · rename_i h
      have hneg := hcanonical.sign.mp h
      omega
    · rename_i h
      have hneg := mt hcanonical.sign.mpr h
      omega
  rw [hvalue, BitVec.ofInt_toInt]

/-- A numeral has none but digits. -/
theorem numeral_ne {c : BitVec 8} (hc : digitOf c = none) (n : Nat) : ∀ d ∈ numeral 16 n, d ≠ c := by
  rintro d hd rfl
  obtain ⟨_, hdigit, -⟩ := digits_numeral (by decide) (by decide) d hd
  rw [hc] at hdigit
  cases hdigit

/-- A signed one has none but digits and the sign. -/
theorem signedDecimal_ne {c : BitVec 8} (hc : digitOf c = none) (hminus : c ≠ chr '-') (w : BitVec 32) :
    ∀ d ∈ signedDecimal w.toInt, d ≠ c := by
  rintro d hd rfl
  have hcanonical : Canonical 10 _ _ := canonical_itoaText w (by decide) (by decide)
  rw [itoaText_ten] at hcanonical
  have hin : d ∈ unsigned (signedDecimal w.toInt) := by
    unfold unsigned
    split
    · rename_i hhead
      obtain ⟨t, ht⟩ := List.head?_eq_some_iff.mp hhead
      rw [ht] at hd ⊢
      exact (List.mem_cons.mp hd).resolve_left hminus
    · exact hd
  obtain ⟨_, hdigit, -⟩ := hcanonical.digits d hin
  rw [hc] at hdigit
  cases hdigit

theorem reads_hexReader (s : String) (w : BitVec 32) : Reads (hexReader s) (hexLine s w) w :=
  (reads_exactly _).bind (reads_field (hexadecimal_numeral w) (numeral_ne (by decide) _))

theorem reads_decReader (s : String) (w : BitVec 32) : Reads (decReader s) (decLine s w) w :=
  (reads_exactly _).bind (reads_field (decimal_signedDecimal w) (signedDecimal_ne (by decide) (by decide) w))

/-- What `pmm_alloc` writes is read back. -/
theorem reads_searchRecord (search : SearchRecord) : Reads searchRecord search.text search := by
  have hzones : ∀ w, Fails (exactly (literal "no free zones\n")) (hexLine "searching in zone starting at " w) :=
    fun w => exactly_fails (c := chr 'n') (d := chr 's') (by simp [literal]) (by simp [hexLine, literal]) (by decide)
  have hwords : ∀ w, Fails (exactly (literal "no free words in zone\n")) (decLine "searching in word " w) :=
    fun w => exactly_fails (c := chr 'n') (d := chr 's') (by simp [literal]) (by simp [decLine, literal]) (by decide)
  have hblocks : ∀ w, Fails (exactly (literal "no free blocks in word\n")) (decLine "returning block at " w) :=
    fun w => exactly_fails (c := chr 'n') (d := chr 'r') (by simp [literal]) (by simp [decLine, literal]) (by decide)
  cases search with
  | noZones => exact ((reads_exactly _).bind_pure _).orElse_left _
  | noWords start =>
    refine Reads.orElse_right ((reads_hexReader _ start).bind ?_) ((hzones start).bind.append _)
    exact ((reads_exactly _).bind_pure _).orElse_left _
  | noBlocks start i =>
    refine Reads.orElse_right ((reads_hexReader _ start).bind ?_) ((hzones start).bind.append _)
    refine Reads.orElse_right ((reads_decReader _ i).bind ?_) ((hwords i).bind.append _)
    exact ((reads_exactly _).bind_pure _).orElse_left _
  | returning start i block =>
    refine Reads.orElse_right ((reads_hexReader _ start).bind ?_) ((hzones start).bind.append _)
    refine Reads.orElse_right ((reads_decReader _ i).bind ?_) ((hwords i).bind.append _)
    exact Reads.orElse_right ((reads_decReader _ block).bind_pure _) (hblocks block).bind

/-- What a call writes is read back. -/
theorem reads_record (r : PmmRecord) : Reads record r.text r := by
  have halloc : ∀ t, Fails (exactly (literal "allocate 1 block\n")) (literal "free 1 block at " ++ t) :=
    fun t => (exactly_fails (c := chr 'a') (d := chr 'f') (by simp [literal]) (by simp [literal]) (by decide)).append t
  have hfound : ∀ w, Fails (exactly (literal "couldn't find address in a zone")) (hexLine "found address in zone starting at " w) :=
    fun w => exactly_fails (c := chr 'c') (d := chr 'f') (by simp [literal]) (by simp [hexLine, literal]) (by decide)
  have hspace : literal " " = [chr ' '] := by simp [literal]
  have hparen : literal ")" = [chr ')'] := by simp [literal]
  have hhex : ∀ w : BitVec 32, Reads (field hexadecimal (chr ' ')) (numeral 16 w.toNat ++ literal " ") w := by
    intro w
    rw [hspace]
    exact reads_field (hexadecimal_numeral w) (numeral_ne (by decide) _)
  have hdec : ∀ w : BitVec 32, Reads (field decimal (chr ')')) (signedDecimal w.toInt ++ literal ")") w := by
    intro w
    rw [hparen]
    exact reads_field (decimal_signedDecimal w) (signedDecimal_ne (by decide) (by decide) w)
  cases r with
  | alloc search =>
    refine (reads_exactly _).bind (Reads.orElse_left ?_ _)
    exact (reads_exactly _).bind ((reads_searchRecord search).bind_pure _)
  | notFound addr =>
    refine (reads_exactly _).bind (Reads.orElse_right ?_ (halloc _).bind)
    refine (reads_exactly _).bind ((hhex addr).bind ((reads_exactly _).bind ((hdec addr).bind ((reads_exactly _).bind ?_))))
    exact ((reads_exactly _).bind_pure _).orElse_left _
  | free addr start offset =>
    refine (reads_exactly _).bind (Reads.orElse_right ?_ (halloc _).bind)
    refine (reads_exactly _).bind ((hhex addr).bind ((reads_exactly _).bind ((hdec addr).bind ((reads_exactly _).bind ?_))))
    refine Reads.orElse_right ?_ ((hfound start).bind.append _)
    exact (reads_hexReader _ start).bind ((reads_decReader _ offset).bind_pure _)

theorem record_text_ne_nil (r : PmmRecord) : r.text ≠ [] := by
  cases r <;> simp [PmmRecord.text, literal]

/-! ## What the calls write -/

theorem logs_hexLine {fmt : CString} {s : String} (w : BitVec 32) (hfmt : fmt.chars = literal s ++ chr '%' :: chr 'x' :: [0x0A])
    (hs : ∀ c ∈ literal s, c ≠ chr '%') (hlen : (literal s).length ≤ 49) : Logs (fmt, [.word w]) (hexLine s w) := by
  rw [hexLine, ← List.append_assoc]
  exact logs_hexadecimal w hfmt hs (by decide) (Nat.succ_le_succ hlen)

theorem logs_decLine {fmt : CString} {s : String} (w : BitVec 32) (hfmt : fmt.chars = literal s ++ chr '%' :: chr 'd' :: [0x0A])
    (hs : ∀ c ∈ literal s, c ≠ chr '%') (hlen : (literal s).length ≤ 49) : Logs (fmt, [.word w]) (decLine s w) := by
  rw [decLine, ← List.append_assoc]
  exact logs_decimal w hfmt hs (by decide) (Nat.succ_le_succ hlen)

theorem logs_allocate : Logs (formatAllocate, []) (literal "\n[pmm_alloc] : trying to " ++ literal "allocate 1 block\n") := by
  have hplain : Logs (formatAllocate, []) formatAllocate.chars := logs_plain (by simp [formatAllocate, CString.ofChars, literal, chr])
    (by simp [formatAllocate, CString.ofChars, literal])
  have htext : formatAllocate.chars = literal "\n[pmm_alloc] : trying to " ++ literal "allocate 1 block\n" := by
    simp [formatAllocate, CString.ofChars, literal]
  rwa [← htext]

theorem logs_noZones : Logs (formatNoZones, []) (literal "no free zones\n") :=
  logs_plain (by simp [formatNoZones, CString.ofChars, literal, chr])
    (by simp [formatNoZones, CString.ofChars, literal])

theorem logs_searchZone (w : BitVec 32) : Logs (formatSearchZone, [.word w]) (hexLine "searching in zone starting at " w) :=
  logs_hexLine w (by simp [formatSearchZone, CString.ofChars, literal, chr]) (by simp [literal, chr]) (by simp [literal])

theorem logs_noWords : Logs (formatNoWords, []) (literal "no free words in zone\n") :=
  logs_plain (by simp [formatNoWords, CString.ofChars, literal, chr])
    (by simp [formatNoWords, CString.ofChars, literal])

theorem logs_searchWord (w : BitVec 32) : Logs (formatSearchWord, [.word w]) (decLine "searching in word " w) :=
  logs_decLine w (by simp [formatSearchWord, CString.ofChars, literal, chr]) (by simp [literal, chr]) (by simp [literal])

theorem logs_noBlocks : Logs (formatNoBlocks, []) (literal "no free blocks in word\n") :=
  logs_plain (by simp [formatNoBlocks, CString.ofChars, literal, chr])
    (by simp [formatNoBlocks, CString.ofChars, literal])

theorem logs_returning (w : BitVec 32) : Logs (formatReturning, [.word w]) (decLine "returning block at " w) :=
  logs_decLine w (by simp [formatReturning, CString.ofChars, literal, chr]) (by simp [literal, chr]) (by simp [literal])

theorem logs_notFound : Logs (formatNotFound, []) (literal "couldn't find address in a zone") :=
  logs_plain (by simp [formatNotFound, CString.ofChars, literal, chr])
    (by simp [formatNotFound, CString.ofChars, literal])

theorem logs_found (w : BitVec 32) : Logs (formatFound, [.word w]) (hexLine "found address in zone starting at " w) :=
  logs_hexLine w (by simp [formatFound, CString.ofChars, literal, chr]) (by simp [literal, chr]) (by simp [literal])

theorem logs_offset (w : BitVec 32) : Logs (formatOffset, [.word w]) (decLine "address offset : " w) :=
  logs_decLine w (by simp [formatOffset, CString.ofChars, literal, chr]) (by simp [literal, chr]) (by simp [literal])

/-- The first line of `pmm_free`. -/
def tryFreeLine (addr : BitVec 32) : List (BitVec 8) :=
  literal "\n[pmm_alloc] : trying to " ++ (literal "free 1 block at " ++ ((numeral 16 addr.toNat ++ literal " ") ++
    (literal "(" ++ ((signedDecimal addr.toInt ++ literal ")") ++ literal "\n"))))

theorem logs_tryFree (addr : BitVec 32) : Logs (formatTryFree, [.word addr, .word addr]) (tryFreeLine addr) := by
  have hhex := length_hexadecimal_le addr
  have hdec := length_signedDecimal_le addr
  have hall : Renders (literal "\n[pmm_alloc] : trying to free 1 block at " ++ chr '%' :: chr 'x' ::
      (literal " (" ++ chr '%' :: chr 'd' :: literal ")\n")) [.word addr, .word addr] _ :=
    ((renders_plain (by simp [literal, chr])).dec (by simp [literal, chr]) addr).hex (by simp [literal, chr]) addr
  have htext : tryFreeLine addr = literal "\n[pmm_alloc] : trying to free 1 block at " ++ (numeral 16 addr.toNat ++
      (literal " (" ++ (signedDecimal addr.toInt ++ literal ")\n"))) := by
    simp [tryFreeLine, literal]
  rw [htext]
  refine hall.logs (by simp [formatTryFree, CString.ofChars, literal]) ?_
  simp [literal]
  omega

section

variable {k : Kernel} {m : Mem} {zone s addr : BitVec 32} {start : BitVec 32 → BitVec 32} {stack : List (BitVec 8) → CharPtr}
variable {out log : List (BitVec 8)} {r : BitVec 32 × Mem}

/-- The search writes a record that has what it returns, when it leaves the start of the zone. -/
theorem searchZone_logged (h : Returns (searchZone m zone s) r) (hkept : zoneField r.2 zone .start = zoneField m zone .start) :
    ∃ search : SearchRecord, search.result = r.1 ∧
      ∀ stack out, Returns (searchZoneLogged stack m zone s out) (r, out ++ search.text) := by
  obtain ⟨i, hi, h⟩ := returns_bind.mp h
  by_cases hlong : i ≥ zoneField m zone .length
  · rw [if_pos hlong] at h
    obtain rfl := returns_pure.mp h
    refine ⟨.noWords (zoneField m zone .start), rfl, fun stack out => ?_⟩
    refine (logs_searchZone _).returns_bind.mpr (returns_bind.mpr ⟨i, hi, ?_⟩)
    rw [if_pos hlong]
    exact logs_noWords.returns_bind.mpr (returns_pure.mpr (by rw [SearchRecord.text, List.append_assoc]))
  · rw [if_neg hlong] at h
    obtain ⟨j, hj, h⟩ := returns_bind.mp h
    by_cases hend : j ≥ i + 32
    · rw [if_pos hend] at h
      obtain rfl := returns_pure.mp h
      refine ⟨.noBlocks (zoneField m zone .start) i, rfl, fun stack out => ?_⟩
      refine (logs_searchZone _).returns_bind.mpr (returns_bind.mpr ⟨i, hi, ?_⟩)
      rw [if_neg hlong]
      refine (logs_searchWord _).returns_bind.mpr (returns_bind.mpr ⟨j, hj, ?_⟩)
      rw [if_pos hend]
      refine logs_noBlocks.returns_bind.mpr (returns_pure.mpr ?_)
      rw [SearchRecord.text, List.append_assoc, List.append_assoc]
    · rw [if_neg hend] at h
      obtain rfl := returns_pure.mp h
      -- the address is computed after the two stores
      refine ⟨.returning (zoneField m zone .start) i j, congrArg (getAddress · j) hkept.symm, fun stack out => ?_⟩
      refine (logs_searchZone _).returns_bind.mpr (returns_bind.mpr ⟨i, hi, ?_⟩)
      rw [if_neg hlong]
      refine (logs_searchWord _).returns_bind.mpr (returns_bind.mpr ⟨j, hj, ?_⟩)
      rw [if_neg hend]
      refine (logs_returning _).returns_bind.mpr (returns_pure.mpr ?_)
      rw [SearchRecord.text, List.append_assoc, List.append_assoc]

/-- The search does what it does without the log. -/
theorem searchZone_of_logged (h : Returns (searchZoneLogged stack m zone s out) (r, log)) : Returns (searchZone m zone s) r := by
  obtain ⟨i, hi, h⟩ := returns_bind.mp ((logs_searchZone _).returns_bind.mp h)
  refine returns_bind.mpr ⟨i, hi, ?_⟩
  by_cases hlong : i ≥ zoneField m zone .length
  · rw [if_pos hlong] at h ⊢
    exact returns_pure.mpr (congrArg Prod.fst (returns_pure.mp (logs_noWords.returns_bind.mp h)))
  · rw [if_neg hlong] at h ⊢
    obtain ⟨j, hj, h⟩ := returns_bind.mp ((logs_searchWord _).returns_bind.mp h)
    refine returns_bind.mpr ⟨j, hj, ?_⟩
    by_cases hend : j ≥ i + 32
    · rw [if_pos hend] at h ⊢
      exact returns_pure.mpr (congrArg Prod.fst (returns_pure.mp (logs_noBlocks.returns_bind.mp h)))
    · rw [if_neg hend] at h ⊢
      exact returns_pure.mpr (congrArg Prod.fst (returns_pure.mp ((logs_returning _).returns_bind.mp h)))

/-- The search along the list ends at its end or at one of its zones. -/
theorem search_inList {t : BitVec 32}
    (h : Returns (loop (fun zone => zone ≠ 0 ∧ zoneField m zone .free = 0) (fun zone => pure (zoneField m zone .nextZone)) zone) t) :
    t = 0 ∨ InList m zone t := by
  refine h.loop_induct (P := fun zone t => t = 0 ∨ InList m zone t) ?_ ?_
  · intro q _
    by_cases h0 : q = 0
    · exact .inl h0
    · exact .inr (.here h0)
  · rintro q _ t hq hnext (h0 | hin)
    · exact .inl h0
    · obtain rfl := returns_pure.mp hnext
      exact .inr (.next (of_decide_eq_true hq).1 hin)

/-- `pmm_alloc` and `pmm_alloc2` write a record that has what they return, when they leave the starts of the zones. -/
theorem allocFrom_logged (h : Returns (allocFrom k m start) r)
    (hkept : ∀ q, InList m k.memoryZones q → zoneField r.2 q .start = zoneField m q .start) :
    ∃ search : SearchRecord, search.result = r.1 ∧
      ∀ stack out, Returns (allocFromLogged stack k m start out) (r, out ++ (PmmRecord.alloc search).text) := by
  obtain ⟨zone, hzone, h⟩ := returns_bind.mp h
  by_cases h0 : zone = 0
  · rw [if_pos h0] at h
    obtain rfl := returns_pure.mp h
    refine ⟨.noZones, rfl, fun stack out => ?_⟩
    refine logs_allocate.returns_bind.mpr (returns_bind.mpr ⟨zone, hzone, ?_⟩)
    rw [if_pos h0]
    refine logs_noZones.returns_bind.mpr (returns_pure.mpr ?_)
    rw [PmmRecord.text, SearchRecord.text, List.append_assoc, List.append_assoc]
  · rw [if_neg h0] at h
    obtain ⟨search, hresult, hsearch⟩ := searchZone_logged h (hkept zone ((search_inList hzone).resolve_left h0))
    refine ⟨search, hresult, fun stack out => ?_⟩
    refine logs_allocate.returns_bind.mpr (returns_bind.mpr ⟨zone, hzone, ?_⟩)
    have hout := hsearch stack (out ++ (literal "\n[pmm_alloc] : trying to " ++ literal "allocate 1 block\n"))
    rw [List.append_assoc, List.append_assoc] at hout
    rw [if_neg h0, PmmRecord.text]
    exact hout

theorem allocFrom_of_logged (h : Returns (allocFromLogged stack k m start out) (r, log)) : Returns (allocFrom k m start) r := by
  obtain ⟨zone, hzone, h⟩ := returns_bind.mp (logs_allocate.returns_bind.mp h)
  refine returns_bind.mpr ⟨zone, hzone, ?_⟩
  by_cases h0 : zone = 0
  · rw [if_pos h0] at h ⊢
    exact returns_pure.mpr (congrArg Prod.fst (returns_pure.mp (logs_noZones.returns_bind.mp h)))
  · rw [if_neg h0] at h ⊢
    exact searchZone_of_logged h

/-- What `pmm_free` writes, by the zone that its search has found. -/
def freeRecordOf (m : Mem) (addr zone : BitVec 32) : PmmRecord :=
  if zone = 0 then .notFound addr else .free addr (zoneField m zone .start) (getOffset (zoneField m zone .start) addr)

theorem event_freeRecordOf : (freeRecordOf m addr zone).event = .free addr := by
  unfold freeRecordOf
  split
  · rfl
  · rfl

theorem pmmFree_logged {m' : Mem} (hzone : Returns (freeZone k m addr) zone) (h : Returns (pmmFree k m addr) m') :
    ∀ stack out, Returns (pmmFreeLogged stack k m addr out) (m', out ++ (freeRecordOf m addr zone).text) := by
  intro stack out
  rw [pmmFree_eq] at h
  obtain ⟨_, hfound, h⟩ := returns_bind.mp h
  obtain rfl := hzone.unique hfound
  refine (logs_tryFree addr).returns_bind.mpr (returns_bind.mpr ⟨zone, hzone, ?_⟩)
  rw [freeIn] at h
  rw [freeRecordOf]
  by_cases h0 : zone = 0
  · rw [if_pos h0] at h ⊢
    obtain rfl := returns_pure.mp h
    refine logs_notFound.returns_bind.mpr (returns_pure.mpr ?_)
    simp only [if_pos h0, PmmRecord.text, tryFreeLine, List.append_assoc]
  · rw [if_neg h0] at h ⊢
    obtain rfl := returns_pure.mp h
    refine (logs_found _).returns_bind.mpr ((logs_offset _).returns_bind.mpr (returns_pure.mpr ?_))
    simp only [if_neg h0, PmmRecord.text, tryFreeLine, List.append_assoc]

/-- When `pmm_free` returns, its search has. -/
theorem exists_freeZone {m' : Mem} (h : Returns (pmmFree k m addr) m') : ∃ zone, Returns (freeZone k m addr) zone := by
  rw [pmmFree_eq] at h
  obtain ⟨zone, hzone, -⟩ := returns_bind.mp h
  exact ⟨zone, hzone⟩

theorem pmmFree_of_logged {m' : Mem} (h : Returns (pmmFreeLogged stack k m addr out) (m', log)) : Returns (pmmFree k m addr) m' := by
  rw [pmmFree_eq]
  obtain ⟨zone, hzone, h⟩ := returns_bind.mp ((logs_tryFree addr).returns_bind.mp h)
  refine returns_bind.mpr ⟨zone, hzone, ?_⟩
  rw [freeIn]
  by_cases h0 : zone = 0
  · rw [if_pos h0] at h ⊢
    exact returns_pure.mpr (congrArg Prod.fst (returns_pure.mp (logs_notFound.returns_bind.mp h)))
  · rw [if_neg h0] at h ⊢
    have hlast := (logs_offset _).returns_bind.mp ((logs_found _).returns_bind.mp h)
    exact returns_pure.mpr (congrArg Prod.fst (returns_pure.mp hlast))

end

/-! ## Runs of calls -/

/-- The memory, what has been logged, and the calls with what they have returned. -/
structure LoggedCalls where
  mem : Mem
  log : List (BitVec 8)
  events : List PmmEvent

/-- A call of `pmm_alloc`, or of `pmm_free` with an address that satisfies `ok`. -/
inductive LoggedStep (k : Kernel) (ok : Mem → BitVec 32 → Prop) : LoggedCalls → LoggedCalls → Prop where
  | alloc {s : LoggedCalls} {stack : List (BitVec 8) → CharPtr} {a : BitVec 32} {m : Mem} {log : List (BitVec 8)}
      (h : Returns (pmmAllocLogged stack k s.mem s.log) ((a, m), log)) : LoggedStep k ok s ⟨m, log, s.events ++ [.alloc a]⟩
  | free {s : LoggedCalls} {stack : List (BitVec 8) → CharPtr} {a : BitVec 32} {m : Mem} {log : List (BitVec 8)} (hok : ok s.mem a)
      (h : Returns (pmmFreeLogged stack k s.mem a s.log) (m, log)) : LoggedStep k ok s ⟨m, log, s.events ++ [.free a]⟩

/-- The PMM with such calls, from `init_pmm` on, with what they log. -/
def loggedSystem (k : Kernel) (boot : Boot) (mbt : MultibootInfo) (ok : Mem → BitVec 32 → Prop) : System LoggedCalls where
  init s := (∃ m₀, Returns (initPmm k boot mbt m₀) s.mem) ∧ s.log = [] ∧ s.events = []
  step := LoggedStep k ok

/-- What has been logged are the records of the calls. -/
def LoggedCalls.Recorded (s : LoggedCalls) : Prop :=
  ∃ rs : List PmmRecord, s.log = rs.flatMap PmmRecord.text ∧ rs.map PmmRecord.event = s.events

theorem LoggedCalls.Recorded.append {s : LoggedCalls} (hs : s.Recorded) (r : PmmRecord) (m : Mem) :
    LoggedCalls.Recorded ⟨m, s.log ++ r.text, s.events ++ [r.event]⟩ := by
  obtain ⟨rs, hlog, hevents⟩ := hs
  refine ⟨rs ++ [r], ?_, ?_⟩
  · rw [hlog, List.flatMap_append, List.flatMap_singleton]
  · rw [List.map_append, hevents]
    rfl

theorem LoggedCalls.Recorded.reads {s : LoggedCalls} (hs : s.Recorded) :
    (readText record s.log).map (List.map PmmRecord.event) = some s.events := by
  obtain ⟨rs, hlog, hevents⟩ := hs
  rw [hlog, readText_flatMap reads_record record_text_ne_nil, Option.map_some, hevents]

section

variable {k : Kernel} {boot : Boot} {mbt : MultibootInfo} {es : List MmapEntry} {ok : Mem → BitVec 32 → Prop}
variable {m m' : Mem} {zs : List Zone} {a : BitVec 32} {s t : LoggedCalls}

/-- `pmm_alloc` leaves the starts of the zones. -/
theorem HasZones.alloc_start (hz : HasZones k es m zs) (hp : Placed k es) (h : Returns (pmmAlloc k m) (a, m')) :
    ∀ q, InList m k.memoryZones q → zoneField m' q .start = zoneField m q .start := by
  intro q hq
  obtain ⟨zs', hstep, hz'⟩ := hz.shaped.pmmAlloc hp hz.inMem h
  obtain ⟨pre, z, suf, rfl, rfl⟩ := hz.inMem.exists_of_inList (hz.shaped.ne hp) (hz.shaped.fits hp) hq
  have hshapes := hstep.shapes
  rw [List.map_append, List.map_cons] at hshapes
  obtain ⟨pre', rest, rfl, hpre, hrest⟩ := List.map_eq_append_iff.mp hshapes
  obtain ⟨z', suf', rfl, hz1, -⟩ := List.map_eq_cons_iff.mp hrest
  have hcells := cellsOf_shape hpre
  have hat := hz'.middle
  rw [hcells] at hat
  rw [hat.header .start, hz.inMem.middle.header .start]
  exact congrArg Shape.start hz1

/-- The search in each zone of the list starts at offset 0. -/
theorem HasZones.lastOffset (hz : HasZones k es m zs) (hp : Placed k es) :
    ∀ q, InList m k.memoryZones q → zoneField m q .lastOffset = 0 := by
  intro q hq
  obtain ⟨pre, z, suf, rfl, rfl⟩ := hz.inMem.exists_of_inList (hz.shaped.ne hp) (hz.shaped.fits hp) hq
  rw [hz.inMem.middle.header .lastOffset]
  exact hz.shaped.hint z (by simp)

/-- A call, with what it logs, is a call. -/
theorem LoggedStep.callStep (h : LoggedStep k ok s t) : CallStep k ok s.mem t.mem := by
  cases h with
  | alloc h => exact .alloc (allocFrom_of_logged h)
  | free hok h => exact .free hok (pmmFree_of_logged h)

/-- A call writes its record. -/
theorem LoggedStep.recorded (hz : HasZones k es s.mem zs) (hp : Placed k es) (hs : s.Recorded) (h : LoggedStep k ok s t) :
    t.Recorded := by
  cases h with
  | @alloc stack a m log h =>
    have halloc := allocFrom_of_logged h
    obtain ⟨search, hresult, hlogged⟩ := allocFrom_logged halloc (hz.alloc_start hp halloc)
    have hlog : log = s.log ++ (PmmRecord.alloc search).text := congrArg Prod.snd (h.unique (hlogged stack s.log))
    have hevent : (PmmRecord.alloc search).event = .alloc a := congrArg PmmEvent.alloc hresult
    rw [hlog, ← hevent]
    exact hs.append _ m
  | @free stack a m log hok h =>
    have hfree := pmmFree_of_logged h
    obtain ⟨zone, hzone⟩ := exists_freeZone hfree
    have hlog : log = s.log ++ (freeRecordOf s.mem a zone).text :=
      congrArg Prod.snd (h.unique (pmmFree_logged hzone hfree stack s.log))
    have hevent : (freeRecordOf s.mem a zone).event = .free a := event_freeRecordOf
    rw [hlog, ← hevent]
    exact hs.append _ m

/-- In a run of calls `pmm_alloc2` returns, leaves and logs what `pmm_alloc` does. -/
theorem pmmAlloc2_logs (hmap : MemoryMap boot mbt es) (hp : Placed k es) (hok : ∀ m a, ok m a → InFirst k m a)
    (hm : (callSystem k boot mbt ok).Reachable m) (stack : List (BitVec 8) → CharPtr) (out : List (BitVec 8))
    (r : (BitVec 32 × Mem) × List (BitVec 8)) :
    Returns (pmmAlloc2Logged stack k m out) r ↔ Returns (pmmAllocLogged stack k m out) r := by
  obtain ⟨-, zs, hz⟩ := calls_hasZones hmap hp hok hm
  unfold pmmAlloc2Logged pmmAllocLogged allocFromLogged
  rw [logs_allocate.returns_bind, logs_allocate.returns_bind, returns_bind, returns_bind]
  refine exists_congr fun zone => and_congr_right fun hzone => ?_
  by_cases h0 : zone = 0
  · rw [if_pos h0, if_pos h0]
  · have hstart := hz.lastOffset hp zone ((search_inList hzone).resolve_left h0)
    rw [if_neg h0, if_neg h0]
    simp only [hstart]

/-- Calls that log are calls. -/
theorem logged_calls : System.Simulation (loggedSystem k boot mbt ok) (callSystem k boot mbt ok) (fun s m => s.mem = m) where
  init s hs := ⟨s.mem, hs.1, rfl⟩
  step := by
    rintro s s' m - - rfl h
    exact ⟨s'.mem, .single h.callStep, rfl⟩

/-- Each run of calls can be had with what it logs. -/
theorem calls_logged (hmap : MemoryMap boot mbt es) (hp : Placed k es) (hok : ∀ m a, ok m a → InFirst k m a) :
    System.Simulation (callSystem k boot mbt ok) (loggedSystem k boot mbt ok) (fun m s => s.mem = m) where
  init m hm := ⟨⟨m, [], []⟩, ⟨hm, rfl, rfl⟩, rfl⟩
  step := by
    rintro m m' s hm - rfl h
    obtain ⟨-, zs, hz⟩ := calls_hasZones hmap hp hok hm
    cases h with
    | alloc h =>
      obtain ⟨search, -, hlogged⟩ := allocFrom_logged h (hz.alloc_start hp h)
      exact ⟨_, .single (.alloc (hlogged (fun _ _ => 0) s.log)), rfl⟩
    | free ha h =>
      obtain ⟨zone, hzone⟩ := exists_freeZone h
      exact ⟨_, .single (.free ha (pmmFree_logged hzone h (fun _ _ => 0) s.log)), rfl⟩

/-- In every run of calls, from `init_pmm` on, on a memory map with a usable entry and with structures that fit, in which only addresses
in the first zone are given back: from the text that the calls have logged a reader gets the calls, in order, with the arguments of
`pmm_free` and the values that `pmm_alloc` has returned. -/
theorem log_reads_back (hmap : MemoryMap boot mbt es) (hp : Placed k es) (hok : ∀ m a, ok m a → InFirst k m a)
    (h : (loggedSystem k boot mbt ok).Reachable s) :
    (readText record s.log).map (List.map PmmRecord.event) = some s.events := by
  refine LoggedCalls.Recorded.reads (h.invariant LoggedCalls.Recorded ?_ ?_)
  · rintro s ⟨-, hlog, hevents⟩
    exact ⟨[], hlog, hevents.symm⟩
  · intro s t hs hrec hstep
    obtain ⟨m, hm, rfl⟩ := logged_calls.reachable hs
    obtain ⟨-, zs, hz⟩ := calls_hasZones hmap hp hok hm
    exact hstep.recorded hz hp hrec

/-- The first call on `twoZones`. -/
theorem log_reads_back_twoZones : ∃ s,
    (loggedSystem smallKernel (bootOf 0x9000 twoZones) (mapInfo 0x9000 twoZones) (InFirst smallKernel)).Reachable s ∧
    s.events = [.alloc 0x1000] ∧ (readText record s.log).map (List.map PmmRecord.event) = some [.alloc 0x1000] := by
  obtain ⟨m, hm, hfirst⟩ := exists_init smallKernel (bootOf 0x9000 twoZones) (mapInfo 0x9000 twoZones) 40
    (fun m => ((pmmAlloc smallKernel m).run 40).map Prod.fst) (some 0x1000) (by decide)
  obtain ⟨⟨a, m'⟩, ha, rfl⟩ := exists_returns_of_run hfirst
  have hz := hasZones_init twoZones_memoryMap twoZones_placed hm
  obtain ⟨search, -, hlogged⟩ := allocFrom_logged ha (hz.alloc_start twoZones_placed ha)
  have hinit :
      (loggedSystem smallKernel (bootOf 0x9000 twoZones) (mapInfo 0x9000 twoZones) (InFirst smallKernel)).Reachable ⟨m, [], []⟩ :=
    .init ⟨⟨_, hm⟩, rfl, rfl⟩
  have hs := hinit.step (.alloc (hlogged (fun _ _ => 0) []))
  exact ⟨_, hs, rfl, log_reads_back twoZones_memoryMap twoZones_placed (fun _ _ h => h) hs⟩

end

end LumOS
