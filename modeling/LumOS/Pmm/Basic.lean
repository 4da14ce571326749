import LumOS.Lib.Comp
import LumOS.Lib.Mem

/-!
# The physical memory manager

`arch/i386/pmm.c`, function by function. The PMM keeps its structures in the memory after the kernel image: a header of 32 bytes
for each zone and behind each header the zone's bitmap. Every access to them is to a word a multiple of four bytes from
`&_kernel_end`, so the memory is a `Mem`. The boot loader's memory map is read and never written; it is a memory of its own, of
bytes (`Boot`), since the size field of an entry may put the next entry at any address. That takes the map to lie apart from what
`init_pmm` writes behind `&_kernel_end`, which the boot loader does not promise and the code does not check.

What the functions write to the log is left out here, and so is `lumos/multiboot.h` but for the three fields that are read.
-/

namespace LumOS

open Comp

/-- `BLOCK_SIZE`, 4 KB in bytes. -/
def blockSize : BitVec 32 := 4096

/-- `WORD`, the number of bits in a word of a bitmap. -/
def word : BitVec 32 := 32

/-- `VIRTUAL_KERNEL_OFFSET_LD` of the linker script. -/
def virtualKernelOffset : BitVec 32 := 0xC0000000

/-- The symbols `_kernel_start` and `_kernel_end` of the linker script: virtual addresses, the second not below the first. -/
structure Kernel where
  kernelStart : BitVec 32
  kernelEnd : BitVec 32
  offset_le : virtualKernelOffset ≤ kernelStart
  start_le : kernelStart ≤ kernelEnd

/-- `memory_zones`: the head of the zone list, which is never written. -/
def Kernel.memoryZones (k : Kernel) : BitVec 32 := k.kernelEnd

/-! ## Bitmap functions -/

/-- `set_bit` -/
def setBit (m : Mem) (mapStart offset : BitVec 32) : Mem :=
  m.store (mapStart + 4 * (offset / word))
    (m.load (mapStart + 4 * (offset / word)) ||| 1#32 <<< (offset % word).toNat)

/-- `unset_bit` -/
def unsetBit (m : Mem) (mapStart offset : BitVec 32) : Mem :=
  m.store (mapStart + 4 * (offset / word))
    (m.load (mapStart + 4 * (offset / word)) &&& ~~~(1#32 <<< (offset % word).toNat))

/-- `test_bit` -/
def testBit (m : Mem) (mapStart offset : BitVec 32) : Bool :=
  m.load (mapStart + 4 * (offset / word)) &&& 1#32 <<< (offset % word).toNat ≠ 0

/-- The body `set_bits` and `unset_bits` share: bit by bit up to the start of a word, word by word, bit by bit to the end. The end
is inclusive. -/
def fillBits (bitOp : Mem → BitVec 32 → BitVec 32 → Mem) (fill : BitVec 32) (m : Mem)
    (mapStart offsetStart offsetEnd : BitVec 32) : Comp Mem := do
  let (m, i) ← loop (fun (_, i) => i ≤ offsetEnd ∧ i % word ≠ 0)
    (fun (m, i) => pure (bitOp m mapStart i, i + 1)) (m, offsetStart)
  let (m, i) ← loop (fun (_, i) => i + word ≤ offsetEnd)
    (fun (m, i) => pure (m.store (mapStart + 4 * (i / word)) fill, i + word)) (m, i)
  let (m, _) ← loop (fun (_, i) => i ≤ offsetEnd)
    (fun (m, i) => pure (bitOp m mapStart i, i + 1)) (m, i)
  return m

/-- `set_bits` -/
def setBits : Mem → BitVec 32 → BitVec 32 → BitVec 32 → Comp Mem := fillBits setBit 0xFFFFFFFF

/-- `unset_bits` -/
def unsetBits : Mem → BitVec 32 → BitVec 32 → BitVec 32 → Comp Mem := fillBits unsetBit 0

/-! ## Zones -/

/-- The fields of `pm_zone_t`. -/
inductive Field where
  | start | end_ | length | free | lastOffset | bitmapWords | bitmap | nextZone
  deriving DecidableEq, Repr

/-- The place of a field in the packed structure, in words. -/
def Field.index : Field → Nat
  | .start => 0
  | .end_ => 1
  | .length => 2
  | .free => 3
  | .lastOffset => 4
  | .bitmapWords => 5
  | .bitmap => 6
  | .nextZone => 7

/-- `sizeof(struct pm_zone_t)` -/
def sizeofZone : BitVec 32 := 32

/-- `zone->f` -/
def zoneField (m : Mem) (zone : BitVec 32) (f : Field) : BitVec 32 := m.load (Mem.cell zone f.index)

/-- `zone->f = v` -/
def setZoneField (m : Mem) (zone : BitVec 32) (f : Field) (v : BitVec 32) : Mem := m.store (Mem.cell zone f.index) v

/-- `GET_OFFSET` with the block size. -/
def getOffset (start target : BitVec 32) : BitVec 32 := (target - start) / blockSize

/-- `GET_ADDRESS` with the block size. -/
def getAddress (start offset : BitVec 32) : BitVec 32 := offset * blockSize + start

/-! ## The memory map -/

/-- The boot loader's memory: the byte at each address. It is apart from the memory behind `&_kernel_end` that `init_pmm` writes: a map
that lies there, whose entries the walk would overwrite before it reads them, is left out. -/
abbrev Boot := BitVec 32 → BitVec 8

/-- The 32-bit word at an address of the boot loader's memory, low byte first. -/
def Boot.load32 (boot : Boot) (a : BitVec 32) : BitVec 32 := boot (a + 3) ++ boot (a + 2) ++ boot (a + 1) ++ boot a

/-- The fields of `multiboot_info_t` that the PMM reads. -/
structure MultibootInfo where
  flags : BitVec 32
  mmapLength : BitVec 32
  mmapAddr : BitVec 32

/-- `MBT_FLAG_IS_MMAP`, the bit of the flags that says the memory map is there. -/
def mbtFlagIsMmap : BitVec 32 := 0x40

/-- `mmap_entry_t` -/
structure MmapEntry where
  size : BitVec 32
  baseLow : BitVec 32
  baseHigh : BitVec 32
  lengthLow : BitVec 32
  lengthHigh : BitVec 32
  type : BitVec 32
  deriving DecidableEq, Repr

/-- The entry at an address. -/
def Boot.entry (boot : Boot) (a : BitVec 32) : MmapEntry where
  size := boot.load32 a
  baseLow := boot.load32 (a + 4)
  baseHigh := boot.load32 (a + 8)
  lengthLow := boot.load32 (a + 12)
  lengthHigh := boot.load32 (a + 16)
  type := boot.load32 (a + 20)

/-- The entries the walk of the memory map skips. -/
def MmapEntry.skipped (e : MmapEntry) : Bool := (e.baseLow = 0 ∧ e.baseHigh ≠ 0) ∨ e.type ≠ 1

/-- The address of the entry after one at `sect`. -/
def MmapEntry.next (e : MmapEntry) (sect : BitVec 32) : BitVec 32 := sect + e.size + 4

/-- Where the walk of the memory map starts. -/
def MultibootInfo.mmapStart (mbt : MultibootInfo) : BitVec 32 := mbt.mmapAddr + virtualKernelOffset

/-- Where the walk of the memory map ends. -/
def MultibootInfo.mmapEnd (mbt : MultibootInfo) : BitVec 32 := mbt.mmapAddr + mbt.mmapLength + virtualKernelOffset

/-! ## Initialisation -/

/-- The linked list of zones gets a place for one more: the memory and the new `current_zone`. -/
def linkZone (k : Kernel) (m : Mem) (currentZone : BitVec 32) : Mem × BitVec 32 :=
  if currentZone = 0 then (m, k.kernelEnd)
  else
    let m := setZoneField m currentZone .nextZone (currentZone + sizeofZone + zoneField m currentZone .bitmapWords * 4)
    (m, zoneField m currentZone .nextZone)

/-- `CEIL` -/
def ceil (x y : BitVec 32) : BitVec 32 := x / y + if x % y ≠ 0 then 1 else 0

/-- The fields of a new zone, from the entry of the memory map, in the order they are written. -/
def writeHeader (m : Mem) (zone : BitVec 32) (e : MmapEntry) : Mem :=
  let m := setZoneField m zone .start e.baseLow
  let m := setZoneField m zone .end_ (zoneField m zone .start + e.lengthLow - 1)
  let m := setZoneField m zone .lastOffset 0
  let m := setZoneField m zone .length (e.lengthLow / blockSize)
  let m := setZoneField m zone .free (zoneField m zone .length)
  let m := setZoneField m zone .bitmapWords (ceil (zoneField m zone .length) word)
  let m := setZoneField m zone .bitmap (zone + sizeofZone)
  setZoneField m zone .nextZone 0

/-- A new zone: its header, then its bitmap with the bits of its blocks unset and the padding set, and the block at address 0 set. -/
def initZone (m : Mem) (zone : BitVec 32) (e : MmapEntry) : Comp Mem := do
  let m := writeHeader m zone e
  let m ← unsetBits m (zoneField m zone .bitmap) 0 (zoneField m zone .length - 1)
  let m ← setBits m (zoneField m zone .bitmap) (zoneField m zone .length) (zoneField m zone .bitmapWords * 32 - 1)
  if zoneField m zone .start = 0 then return setBit m (zoneField m zone .bitmap) 0
  return m

/-- The variables of the walk of the memory map. -/
structure Walk where
  sect : BitVec 32
  mem : Mem
  currentZone : BitVec 32
  pmmStructuresSize : BitVec 32

/-- One turn of the walk of the memory map. What it writes is not in the map, so the next entry is where the size that was there at first
puts it; in the source the size is read again after the zone is made. -/
def walkStep (k : Kernel) (boot : Boot) (w : Walk) : Comp Walk := do
  let e := boot.entry w.sect
  if e.skipped then return { w with sect := e.next w.sect }
  let (m, zone) := linkZone k w.mem w.currentZone
  let m ← initZone m zone e
  return { sect := e.next w.sect, mem := m, currentZone := zone,
           pmmStructuresSize := w.pmmStructuresSize + (sizeofZone + zoneField m zone .bitmapWords * 4) }

/-- The walk of the memory map. -/
def walk (k : Kernel) (boot : Boot) (mbt : MultibootInfo) (m : Mem) : Comp Walk :=
  loop (fun w => w.sect < mbt.mmapEnd) (walkStep k boot)
    { sect := mbt.mmapStart, mem := m, currentZone := 0, pmmStructuresSize := 0 }

/-- `resStart`: the physical address of the first byte of the kernel. -/
def Kernel.resStart (k : Kernel) : BitVec 32 := k.kernelStart - virtualKernelOffset

/-- `resEnd`: the physical address of the last byte of the kernel and of the PMM structures behind it. -/
def Kernel.resEnd (k : Kernel) (pmmStructuresSize : BitVec 32) : BitVec 32 :=
  k.kernelEnd - virtualKernelOffset - 1 + pmmStructuresSize

/-- The blocks of one zone that the reserved range overlaps are set. -/
def reserveZone (resStart resEnd : BitVec 32) (m : Mem) (zone : BitVec 32) : Comp Mem :=
  let start := zoneField m zone .start
  let end_ := zoneField m zone .end_
  if (resStart ≤ start ∧ resEnd ≥ start) ∨ (resStart ≥ start ∧ resStart ≤ end_) then
    let startbit := if start > resStart then start else resStart
    let endbit := if end_ < resEnd then end_ else resEnd
    setBits m (zoneField m zone .bitmap) (getOffset start startbit) (getOffset start endbit)
  else pure m

/-- The kernel's blocks are set in every zone of the list. -/
def reserveKernel (resStart resEnd : BitVec 32) (m : Mem) (memoryZones : BitVec 32) : Comp Mem := do
  let (m, _) ← loop (fun (_, zone) => zone ≠ 0)
    (fun (m, zone) => do
      let m ← reserveZone resStart resEnd m zone
      return (m, zoneField m zone .nextZone))
    (m, memoryZones)
  return m

/-- `printZones`: only the walk along the list. -/
def printZones (m : Mem) (zone : BitVec 32) : Comp Unit := do
  let _ ← loop (fun zone => zone ≠ 0) (fun zone => pure (zoneField m zone .nextZone)) zone
  return ()

/-- `init_pmm`. Without a memory map it ends in `abort`, which does not return. -/
def initPmm (k : Kernel) (boot : Boot) (mbt : MultibootInfo) (m : Mem) : Comp Mem :=
  if mbt.flags &&& mbtFlagIsMmap = 0 then diverge
  else do
    let w ← walk k boot mbt m
    let m ← reserveKernel k.resStart (k.resEnd w.pmmStructuresSize) w.mem k.memoryZones
    printZones m k.memoryZones
    return m

/-! ## Allocating and freeing -/

/-- `pmm_alloc2`: the address returned and the memory left. The search for a word starts at offset 0. -/
def pmmAlloc2 (k : Kernel) (m : Mem) : Comp (BitVec 32 × Mem) := do
  let zone ← loop (fun zone => zone ≠ 0 ∧ zoneField m zone .free = 0)
    (fun zone => pure (zoneField m zone .nextZone)) k.memoryZones
  if zone = 0 then return (0, m)
  let bitmap := zoneField m zone .bitmap
  let i ← loop (fun i => m.load (bitmap + 4 * (i / word)) = 0xFFFFFFFF ∧ i < zoneField m zone .length) (fun i => pure (i + word)) 0
  if i ≥ zoneField m zone .length then return (0, m)
  let end_ := i + 32
  let i ← loop (fun i => i < end_ ∧ testBit m bitmap i) (fun i => pure (i + 1)) i
  if i ≥ end_ then return (0, m)
  let m := setBit m bitmap i
  let m := setZoneField m zone .free (zoneField m zone .free - 1)
  return (getAddress (zoneField m zone .start) i, m)

/-- `pmm_alloc`: the address returned and the memory left. -/
def pmmAlloc (k : Kernel) (m : Mem) : Comp (BitVec 32 × Mem) := do
  let zone ← loop (fun zone => zone ≠ 0 ∧ zoneField m zone .free = 0)
    (fun zone => pure (zoneField m zone .nextZone)) k.memoryZones
  if zone = 0 then return (0, m)
  let bitmap := zoneField m zone .bitmap
  let i ← loop (fun i => m.load (bitmap + 4 * (i / word)) = 0xFFFFFFFF ∧ i < zoneField m zone .length)
    (fun i => pure (i + word)) (zoneField m zone .lastOffset)
  if i ≥ zoneField m zone .length then return (0, m)
  let end_ := i + 32
  let i ← loop (fun i => i < end_ ∧ testBit m bitmap i) (fun i => pure (i + 1)) i
  if i ≥ end_ then return (0, m)
  let m := setBit m bitmap i
  let m := setZoneField m zone .free (zoneField m zone .free - 1)
  return (getAddress (zoneField m zone .start) i, m)

/-- `pmm_free` -/
def pmmFree (k : Kernel) (m : Mem) (addr : BitVec 32) : Comp Mem := do
  let zone ← loop (fun zone => zone ≠ 0 ∧ zoneField m zone .start > addr ∧ addr > zoneField m zone .end_)
    (fun zone => pure (zoneField m zone .nextZone)) k.memoryZones
  if zone = 0 then return m
  let offset := getOffset (zoneField m zone .start) addr
  let m := unsetBit m (zoneField m zone .bitmap) offset
  return setZoneField m zone .free (zoneField m zone .free + 1)

end LumOS
