import Bintos.Machine

/-!
# The physical frame allocator of `memory/pmem.c`

`initializeMemmap` builds the region table from the bootloader's memory map and places the flag
bitmap, `frameAlloc` hands out frames.  The calls of `logf` change no state that these functions
read and are left out; so is `last_freed_index`, which nothing reads.
-/

namespace Bintos

/-- An entry of the memory map (`limine_memmap_entry`). -/
structure MemmapEntry where
  base : U64
  length : U64
  type : U64
  deriving DecidableEq, Repr

/-- `LIMINE_MEMMAP_USABLE` -/
def memmapUsable : U64 := 0
/-- `LIMINE_MEMMAP_FRAMEBUFFER` -/
def memmapFramebuffer : U64 := 7

/-- `FRAME_ALLOCATION_SIZE` -/
def frameAllocationSize : U64 := 4096
/-- `MAX_REGIONS` -/
def maxRegions : ℕ := 32

/-- The flag `AVAIL` of a frame. -/
def avail : U8 := 1 <<< 3
/-- `MAKE_FLAGS(x)` -/
def makeFlags (x : U8) : U8 := x &&& 0xF

/-- `pg_round_up` -/
def pgRoundUp (va : U64) : U64 := (va + frameAllocationSize - 1) &&& ~~~(frameAllocationSize - 1)

/-- `pg_round_down` -/
def pgRoundDown (va : U64) : U64 := va &&& ~~~(frameAllocationSize - 1)

/-- `region_t` -/
structure Region where
  start : U64
  end_ : U64
  pages : U64
  deriving DecidableEq, Repr, Inhabited

/-- The statics of `pmem.c`. -/
structure Pmem where
  map : Option (List MemmapEntry) := none
  bitmapLength : U64 := 0#64
  frameMap : U64 := 0#64
  maxFrames : U64 := 0#64
  initFreeSpace : U64 := 0#64
  numRegions : U8 := 0#8
  regionInfo : List Region := List.replicate maxRegions ⟨0#64, 0#64, 0#64⟩
  index : U64 := 0#64

/-- The kernel with the allocator of `pmem.c`. -/
abbrev Kernel := Machine Pmem

/-- The kernel as the bootloader starts it: zeroed statics, any memory. -/
def atBoot (mem : Mem) : Kernel :=
  { mem, hhdmoff := 0#64, pml4Addr := 0#64, cr3 := none, trace := [], alloc := {} }

/-- Change the statics of `pmem.c`. -/
def modifyPmem (f : Pmem → Pmem) : Kern Pmem Unit := modify fun s => { s with alloc := f s.alloc }

/-! ## Frame flags -/

/-- `(!(frame_no & 1) << 2)` -/
def nibbleShift (frameNo : U64) : ℕ := if frameNo &&& 1 = 0 then 4 else 0

/-- `set_frame_flags`; the C code computes in `int` and stores the low byte. -/
def setFrameFlags (frameNo : U64) (flags : U8) : Kern Pmem Unit := do
  let byte := (← get).alloc.frameMap + (frameNo >>> 1)
  let old ← loadByte .flags byte
  let cleared := old &&& ~~~(0xF#8 <<< nibbleShift frameNo)
  storeByte .flags byte (cleared ||| (flags <<< nibbleShift frameNo))

/-- `get_frame_flags` -/
def getFrameFlags (frameNo : U64) : Kern Pmem U8 := do
  let byte ← loadByte .flags ((← get).alloc.frameMap + (frameNo >>> 1))
  return (byte &&& (0xF#8 <<< nibbleShift frameNo)) >>> nibbleShift frameNo

/-! ## Start-up -/

/-- One round of the loop of `initialize_memmap`.  The other cases of its `switch` only choose the
text that is logged. -/
def addRegion (regionIdx : U8) (e : MemmapEntry) : Kern Pmem U8 := do
  if e.type = memmapUsable then
    modifyPmem fun p => { p with
      initFreeSpace := p.initFreeSpace + e.length
      regionInfo := p.regionInfo.set regionIdx.toNat
        ⟨e.base, e.base + e.length, e.length / frameAllocationSize⟩ }
    return regionIdx + 1
  else
    return regionIdx

/-- The region once `bytes` bytes at its front are given to the bitmap. -/
def Region.carve (r : Region) (bytes : U64) : Region :=
  let start := pgRoundUp (r.start + bytes)
  { r with start, pages := (r.end_ - start) / frameAllocationSize }

/-- One round of the loop of `locate_for_bitmap`. -/
def fitBitmap (usableIdx : U8) (e : MemmapEntry) : Kern Pmem U8 := do
  if e.type = memmapUsable then
    if (← get).alloc.bitmapLength ≤ e.length then
      modifyPmem fun p => { p with
        frameMap := e.base
        regionInfo := p.regionInfo.set usableIdx.toNat
          ((p.regionInfo.getD usableIdx.toNat default).carve p.bitmapLength) }
    return usableIdx + 1
  else
    return usableIdx

/-- `locate_for_bitmap` -/
def locateForBitmap : Kern Pmem Unit := do
  chassert (← get).alloc.map.isSome
  modifyPmem fun p => { p with bitmapLength := p.maxFrames >>> 1 }
  let _ ← ((← get).alloc.map.getD []).foldlM fitBitmap 0
  chassert ((← get).alloc.frameMap ≠ 0)
  let offset := (← get).hhdmoff
  modifyPmem fun p => { p with frameMap := p.frameMap + offset }

/-- The loop of `initialize_bitmap` from its counter `i` on.  The counter has 32 bits and the bound
64, so the loop need not end; it gives up after `fuel` rounds. -/
def initializeBitmapLoop : ℕ → U32 → Kern Pmem Unit
  | 0, _ => throw .outOfFuel
  | fuel + 1, i => do
    if i.setWidth 64 < (← get).alloc.bitmapLength then
      storeByte .flags ((← get).alloc.frameMap + i.setWidth 64)
        ((makeFlags avail <<< 4) + makeFlags avail)
      initializeBitmapLoop fuel (i + 1)
    else
      return ()

/-- `initialize_bitmap` -/
def initializeBitmap (fuel : ℕ) : Kern Pmem Unit := do
  chassert ((← get).alloc.frameMap ≠ 0)
  initializeBitmapLoop fuel 0

/-- `initialize_memmap` -/
def initializeMemmap (fuel : ℕ) (r : List MemmapEntry) (offset : U64) : Kern Pmem Unit := do
  modify fun s => { s with hhdmoff := offset }
  modifyPmem fun p => { p with map := some r }
  chassert (r.length ≤ maxRegions)
  let regionIdx ← r.foldlM addRegion 0
  modifyPmem fun p => { p with maxFrames := p.initFreeSpace / frameAllocationSize }
  modifyPmem fun p => { p with numRegions := regionIdx }
  locateForBitmap
  initializeBitmap fuel

/-! ## Allocation -/

/-- The skip loop of `frame_alloc`.  It runs at most `max_frames - index` rounds before its assertion
fails, so the budget its caller gives it is never used up. -/
def skipUnavail : ℕ → U8 → Kern Pmem U8
  | 0, _ => throw .outOfFuel
  | fuel + 1, flag => do
    if flag &&& avail = 0 then
      modifyPmem fun p => { p with index := p.index + 1 }
      let flag ← getFrameFlags (← get).alloc.index
      chassert ((← get).alloc.index < (← get).alloc.maxFrames)
      skipUnavail fuel flag
    else
      return flag

/-- The region walk of `frame_alloc`: the start of the region the index falls on and what is left of
`copy` there.  `(signed)copy` keeps 32 bits and is sign-extended again for the comparison with the
unsigned page count. -/
def regionWalk : ℕ → U8 → U64 → Kern Pmem (U64 × U64)
  | 0, _, _ => throw .outOfFuel
  | fuel + 1, mapIdx, copy => do
    let region := (← get).alloc.regionInfo.getD mapIdx.toNat default
    if region.pages ≤ (copy.setWidth 32).signExtend 64 then
      chassert (mapIdx + 1 < (← get).alloc.numRegions)
      regionWalk fuel (mapIdx + 1) (copy - region.pages)
    else
      return (region.start, copy)

/-- `frame_alloc`; the offset `(unsigned)copy * FRAME_ALLOCATION_SIZE` is computed in 32 bits. -/
def frameAlloc (zeroed : Bool) : Kern Pmem U64 := do
  if (← get).alloc.maxFrames ≤ (← get).alloc.index then
    return -1
  let flag ← getFrameFlags (← get).alloc.index
  let flag ← skipUnavail (((← get).alloc.maxFrames - (← get).alloc.index).toNat + 1) flag
  setFrameFlags (← get).alloc.index (flag &&& 0b0111)
  let (start, copy) ← regionWalk 256 0 (← get).alloc.index
  let addr := start + (copy.setWidth 32 * frameAllocationSize.setWidth 32).setWidth 64
  modifyPmem fun p => { p with index := p.index + 1 }
  if zeroed then
    memset (addr + (← get).hhdmoff) 0 frameAllocationSize
  return addr

end Bintos
