import Bintos.Pmem.Source
import Bintos.Vm.Entries

/-!
# The page tables of `memory/vm.c`

`mapPage` and `initializePaging`, over any frame allocator.  The four `..._INDEX` values of a virtual
address index tables of 512 entries of eight bytes; every access to a member of an entry reads, and
every assignment writes, the word of the entry.
-/

namespace Bintos

/-- `KERNEL_VMA` -/
def kernelVma : U64 := 0xffffffff80000000#64

/-- `PML4_INDEX` -/
def pml4Index (vaddr : U64) : U64 := (vaddr >>> 39) &&& 0x1FF
/-- `PDPT_INDEX` -/
def pdptIndex (vaddr : U64) : U64 := (vaddr >>> 30) &&& 0x1FF
/-- `PD_INDEX` -/
def pdIndex (vaddr : U64) : U64 := (vaddr >>> 21) &&& 0x1FF
/-- `PT_INDEX` -/
def ptIndex (vaddr : U64) : U64 := (vaddr >>> 12) &&& 0x1FF

section Vm

variable {α F : Type} [DecidableEq F] [Packed F]

/-- Read the member `f` of the entry at a direct-map address. -/
def loadField (entry : U64) (f : F) : Kern α U64 := do
  return Packed.get f (← loadWord .table entry)

/-- Assign `v` to the member `f` of the entry at a direct-map address. -/
def storeField (entry : U64) (f : F) (v : U64) : Kern α Unit := do
  storeWord .table entry (Packed.set f v (← loadWord .table entry))

/-- A `bool` as the value of a one-bit member. -/
def flagBit (b : Bool) : U64 := (BitVec.ofBool b).setWidth 64

/-- The direct-map address of the table that an entry of `map_page` points to.  For an absent entry a
new table is allocated and the members are assigned as `link` says.  `ptr` is a bit-field of 40 bits,
so `ptr << 12` is computed in 40 bits. -/
def nextTable (frameAlloc : Bool → Kern α U64) (present ptr : F) (link : U64 → List (F × U64))
    (entry : U64) : Kern α U64 := do
  if (← loadField entry present) = 0 then
    let table ← frameAlloc true
    (link (table >>> 12)).forM fun a => storeField entry a.1 a.2
    return table + (← get).hhdmoff
  else
    let frame := (← loadField entry ptr).setWidth 40
    return (frame <<< 12).setWidth 64 + (← get).hhdmoff

/-- The first level of `map_page`. -/
def pdptFor (frameAlloc : Bool → Kern α U64) : U64 → Kern α U64 :=
  nextTable frameAlloc Pml4e.present .pdpePtr fun frame =>
    [(.present, 1), (.rw, 1), (.pdpePtr, frame)]

/-- The second level of `map_page`. -/
def pdFor (frameAlloc : Bool → Kern α U64) : U64 → Kern α U64 :=
  nextTable frameAlloc Pdpe.present .pdePtr fun frame =>
    [(.present, 1), (.rw, 1), (.pdePtr, frame)]

/-- The third level of `map_page`. -/
def ptFor (frameAlloc : Bool → Kern α U64) : U64 → Kern α U64 :=
  nextTable frameAlloc Pde.present .ptePtr fun frame =>
    [(.present, 1), (.ptePtr, frame), (.rw, 1)]

/-- The arguments of a call of `map_page`. -/
structure MapCall where
  vaddr : U64
  paddr : U64
  isSupervisor : Bool
  writable : Bool
  noExecute : Bool
  writethru : Bool
  deriving DecidableEq, Repr

/-- The assignments to the page-table entry. -/
def pteAssignments (c : MapCall) : List (Pte × U64) :=
  [(.present, 1), (.rw, flagBit c.writable), (.us, flagBit c.isSupervisor),
    (.pwt, flagBit c.writethru), (.nx, flagBit c.noExecute), (.frame, c.paddr >>> 12)]

/-- `map_page` -/
def mapPage (frameAlloc : Bool → Kern α U64) (c : MapCall) : Kern α Unit := do
  let pml4table := (← get).pml4Addr + (← get).hhdmoff
  let pdpt ← pdptFor frameAlloc (pml4table + 8 * pml4Index c.vaddr)
  let pd ← pdFor frameAlloc (pdpt + 8 * pdptIndex c.vaddr)
  let pt ← ptFor frameAlloc (pd + 8 * pdIndex c.vaddr)
  (pteAssignments c).forM fun a => storeField (pt + 8 * ptIndex c.vaddr) a.1 a.2

/-! ## Boot -/

/-- `for (; more(bytes); bytes += FRAME_ALLOCATION_SIZE) body(bytes);` -/
def pageLoop (more : U64 → Bool) (body : U64 → Kern α Unit) : ℕ → U64 → Kern α Unit
  | 0, _ => throw .outOfFuel
  | fuel + 1, bytes => do
    if more bytes then
      body bytes
      pageLoop more body fuel (bytes + frameAllocationSize)
    else
      return ()

/-- The call for the page of the stack that is `bytes` below the stack pointer. -/
def stackCall (rsp hhdmoff bytes : U64) : MapCall :=
  ⟨pgRoundDown (rsp - bytes), pgRoundDown (rsp - hhdmoff - bytes), true, true, true, false⟩

/-- The call for the page of a framebuffer that is `bytes` behind its base. -/
def framebufferCall (e : MemmapEntry) (hhdmoff bytes : U64) : MapCall :=
  ⟨e.base + hhdmoff + bytes, e.base + bytes, false, true, true, true⟩

/-- The call for the kernel page at `addr`. -/
def kernelCall (physicalBase addr bytes : U64) : MapCall :=
  ⟨addr, physicalBase + bytes, true, true, false, false⟩

/-- The loop over the memory map; its counter has 8 bits. -/
def mapFramebuffers (frameAlloc : Bool → Kern α U64) (r : List MemmapEntry) (loopFuel : ℕ) :
    ℕ → U8 → Kern α Unit
  | 0, _ => throw .outOfFuel
  | fuel + 1, i => do
    match r[i.toNat]? with
    | some e =>
      if e.type = memmapFramebuffer then
        let offset := (← get).hhdmoff
        pageLoop (· < e.length) (fun bytes => mapPage frameAlloc (framebufferCall e offset bytes))
          loopFuel 0
      mapFramebuffers frameAlloc r loopFuel fuel (i + 1)
    | none => return ()

/-- The loop over the kernel's pages. -/
def mapKernel (frameAlloc : Bool → Kern α U64) (physicalBase kernelEnd : U64) :
    ℕ → U64 → U64 → Kern α Unit
  | 0, _, _ => throw .outOfFuel
  | fuel + 1, addr, bytes => do
    if addr ≤ kernelEnd then
      mapPage frameAlloc (kernelCall physicalBase addr bytes)
      mapKernel frameAlloc physicalBase kernelEnd fuel (addr + frameAllocationSize)
        (bytes + frameAllocationSize)
    else
      return ()

/-- `initialize_paging`; `kernelEnd` is the address of the linker symbol `KERNEL_END`, and `fuel` a
bound for the rounds of each loop. -/
def initializePaging (frameAlloc : Bool → Kern α U64) (fuel : ℕ) (r : List MemmapEntry)
    (physicalBase kernelEnd rsp : U64) : Kern α Unit := do
  let pml4Addr ← frameAlloc true
  modify fun s => { s with pml4Addr }
  let offset := (← get).hhdmoff
  mapPage frameAlloc ⟨pml4Addr + offset, pml4Addr, true, true, true, false⟩
  pageLoop (· < 16 * frameAllocationSize)
    (fun bytes => mapPage frameAlloc (stackCall rsp offset bytes)) fuel 0
  mapFramebuffers frameAlloc r fuel fuel 0
  mapKernel frameAlloc physicalBase kernelEnd fuel kernelVma 0
  modify fun s => { s with cr3 := some s.pml4Addr }

end Vm

end Bintos
