import Bintos.Font.Memory
import Bintos.Int.Descriptors
import Bintos.Int.Handler
import Bintos.Lib.Channel

/-!
# The start of the kernel (`boot/kernel.c`)

`kmain` with everything it calls: the memory, the ports, the interrupt table and the screen.  The
functions of `memory/pmem.c` and `memory/vm.c` that log come again here, with the calls of `logf` where the
source has them.
-/

namespace Bintos

open Channel

/-- Why the kernel stops. -/
inductive BootStop where
  /-- `hcf` -/
  | halted
  /-- The budget of a loop was used up. -/
  | outOfFuel
  /-- The budget of a loop that polls was used up. -/
  | waiting
  /-- An access past the end of an array. -/
  | outside
  /-- The use of a variable that was not assigned. -/
  | undefined
  /-- An access to an address that is not mapped. -/
  | fault
  deriving DecidableEq, Repr

def Stop.boot : Stop → BootStop
  | .halted => .halted
  | .outOfFuel => .outOfFuel

def PortStop.boot : PortStop → BootStop
  | .halted => .halted
  | .waiting => .waiting
  | .outside => .outside

section Logging

variable {σ : Type}

/-- `logf` -/
def say (o : Outside) (c : LogCall) : EStateM BootStop (σ × List Io) Unit :=
  onChannel PortStop.boot (logfPorts o c)

/-- `CHASSERT` -/
def require (o : Outside) (b : Bool) (expr : CString) (file : List U8) (line : U64) :
    EStateM BootStop (σ × List Io) Unit :=
  onChannel PortStop.boot (chassertPorts o b expr file line)

end Logging

/-! ## `memory/pmem.c` and `memory/vm.c` -/

/-- A function on memory and the ports. -/
abbrev LogKern (β : Type) := EStateM BootStop (Kernel × List Io) β

/-- A function that does not log. -/
def quietly {β : Type} (x : Kern Pmem β) : LogKern β := onState Stop.boot x

/-- `type` in `initialize_memmap`; the types that the `switch` has no case for leave it unassigned. -/
def memmapTypeName (type : U64) : Option (List U8) :=
  match type.toNat with
  | 0 => some (ascii "Usable")
  | 1 => some (ascii "Reserved")
  | 2 => some (ascii "ACPI Reclaimable")
  | 4 => some (ascii "Bad Memory")
  | 5 => some (ascii "Bootloader Reclaimable")
  | 6 => some (ascii "Kernel/Module")
  | 7 => some (ascii "Framebuffer")
  | _ => none

/-- The line for an entry.  The word 1 stands for the address of the name. -/
def memmapLine (e : MemmapEntry) (name : List U8) : LogCall where
  level := .info
  format := ⟨ascii "Memory Map: 0x%lx -> 0x%lx\t\t\t%s\n", by decide⟩
  args := ⟨fun i => [e.base, e.base + e.length, 1].getD i 0, fun _ => name⟩

def usableLine (p : Pmem) : LogCall where
  level := .info
  format := ⟨ascii "%ld B\t/\t%d.%d GB\t/\t%ld frames of physical memory usable\n", by decide⟩
  args := .ofWords [p.initFreeSpace, p.initFreeSpace * 100 / 1073741824 / 100,
    p.initFreeSpace * 100 / 1073741824 % 100, p.maxFrames]

def frameMapLine (p : Pmem) : LogCall where
  level := .info
  format := ⟨ascii "Frame map beginning at 0x%lx, occupying %lx (%ld) bytes\n", by decide⟩
  args := .ofWords [p.frameMap, p.bitmapLength, p.bitmapLength]

def bitmapLine : LogCall where
  level := .info
  format := ⟨ascii "Initialized physical frame bitmap!\n", by decide⟩
  args := .ofWords []

def pagingLine (pml4Addr : U64) : LogCall where
  level := .info
  format := ⟨ascii "Initialized kernel and framebuffer page tables. PML4 beginning at 0x%lx\n",
    by decide⟩
  args := .ofWords [pml4Addr]

/-- The name of the file of `pmem.c`. -/
def pmemFile : List U8 := ascii "memory/pmem.c"

def regionsExpr : CString :=
  ⟨ascii "r->entry_count <= MAX_REGIONS && \"Memory map has more regions than we can track!\"",
    by decide⟩

def roomExpr : CString :=
  ⟨ascii "frame_map && \"Couldn't find a memmap region that had enough space for the frame bitmap!\"",
    by decide⟩

def frameMapExpr : CString :=
  ⟨ascii "frame_map && \"Frame map wasn't initialized! Make sure locate_for_bitmap() is called!\"",
    by decide⟩

/-- One round of the loop of `initialize_memmap`. -/
def addRegionLogged (o : Outside) (regionIdx : U8) (e : MemmapEntry) : LogKern U8 := do
  let regionIdx ← quietly (addRegion regionIdx e)
  match memmapTypeName e.type with
  | some name => say o (memmapLine e name)
  | none => throw .undefined
  return regionIdx

/-- `locate_for_bitmap` -/
def locateForBitmapLogged (o : Outside) : LogKern Unit := do
  require o (← quietly get).alloc.map.isSome ⟨ascii "map && \"Memory map read failed!\"", by decide⟩
    pmemFile 128
  quietly (modifyPmem fun p => { p with bitmapLength := p.maxFrames >>> 1 })
  let _ ← quietly (((← quietly get).alloc.map.getD []).foldlM fitBitmap 0)
  require o ((← quietly get).alloc.frameMap ≠ 0) roomExpr pmemFile 162
  let offset := (← quietly get).hhdmoff
  quietly (modifyPmem fun p => { p with frameMap := p.frameMap + offset })
  say o (frameMapLine (← quietly get).alloc)

/-- `initialize_bitmap` -/
def initializeBitmapLogged (o : Outside) : LogKern Unit := do
  require o ((← quietly get).alloc.frameMap ≠ 0) frameMapExpr pmemFile 168
  quietly (initializeBitmapLoop o.fuel 0)
  say o bitmapLine

/-- `initialize_memmap` -/
def initializeMemmapLogged (o : Outside) (r : List MemmapEntry) (offset : U64) : LogKern Unit := do
  quietly (modify fun s => { s with hhdmoff := offset })
  quietly (modifyPmem fun p => { p with map := some r })
  require o (r.length ≤ maxRegions) regionsExpr pmemFile 79
  let regionIdx ← r.foldlM (addRegionLogged o) 0
  quietly (modifyPmem fun p => { p with maxFrames := p.initFreeSpace / frameAllocationSize })
  say o (usableLine (← quietly get).alloc)
  quietly (modifyPmem fun p => { p with numRegions := regionIdx })
  locateForBitmapLogged o
  initializeBitmapLogged o

/-- `initialize_paging` -/
def initializePagingLogged (o : Outside) (r : List MemmapEntry) (physicalBase kernelEnd rsp : U64) :
    LogKern Unit := do
  quietly (initializePaging frameAlloc o.fuel r physicalBase kernelEnd rsp)
  say o (pagingLine (← quietly get).pml4Addr)

/-! ## `kmain` -/

/-- `limine_framebuffer` -/
structure LimineFramebuffer where
  address : U64
  width : U64
  height : U64
  pitch : U64
  deriving DecidableEq, Repr

/-- `limine_file` -/
structure LimineFile where
  address : U64
  size : U64
  path : List U8
  deriving DecidableEq, Repr

/-- What the bootloader answers. -/
structure Limine where
  /-- `LIMINE_BASE_REVISION_SUPPORTED` -/
  supported : Bool
  /-- the framebuffers, if there is an answer to the request -/
  framebuffers : Option (List LimineFramebuffer)
  kernelFile : LimineFile
  /-- the offset of the direct map -/
  offset : U64
  memmap : List MemmapEntry
  physicalBase : U64

/-- What the linker has put where. -/
structure Image where
  /-- the address of `KERNEL_END` -/
  kernelEnd : U64
  /-- the address of `idt` -/
  idt : U64
  /-- `exception_stub_table` -/
  stubs : ℕ → U64
  /-- the glyphs -/
  font : U16 → U8

/-- The machine while `kmain` runs, without the ports. -/
structure Boot where
  kernel : Kernel
  /-- what `lidt` has loaded -/
  idtr : Option Idtr
  handlers : Handlers
  /-- `framebuffer_ptr` and the other statics of `font.c` -/
  screen : Option (U64 × Screen)
  /-- Interrupts are enabled. -/
  interrupts : Bool

/-- The machine as the bootloader hands it over. -/
def handedOver (mem : Mem) (interrupts : Bool) : Boot where
  kernel := atBoot mem
  idtr := none
  handlers := noHandlers
  screen := none
  interrupts := interrupts

abbrev BootM (β : Type) := EStateM BootStop (Boot × List Io) β

/-- A function on memory and the ports. -/
def onKernel {β : Type} (x : LogKern β) : BootM β := fun p =>
  match x.run (p.1.kernel, p.2) with
  | .ok b s => .ok b ({ p.1 with kernel := s.1 }, s.2)
  | .error e s => .error e ({ p.1 with kernel := s.1 }, s.2)

theorem run_onKernel {β : Type} (x : LogKern β) (p : Boot × List Io) :
    (onKernel x).run p = match x.run (p.1.kernel, p.2) with
      | .ok b s => .ok b ({ p.1 with kernel := s.1 }, s.2)
      | .error e s => .error e ({ p.1 with kernel := s.1 }, s.2) := rfl

def serialLine : LogCall where
  level := .info
  format := ⟨ascii "Serial enabled on COM1\n", by decide⟩
  args := .ofWords []

def exceptionsLine : LogCall where
  level := .info
  format := ⟨ascii "Registered exception handlers and loaded IDT!\n", by decide⟩
  args := .ofWords []

def framebufferLine (f : LimineFramebuffer) : LogCall where
  level := .info
  format := ⟨ascii "Framebuffer identified at 0x%lx. Screen dimensions are %d x %d\n", by decide⟩
  args := .ofWords [f.address, f.width, f.height]

/-- The line for the kernel's file.  The word 1 stands for the address of the path. -/
def kernelLine (f : LimineFile) : LogCall where
  level := .info
  format := ⟨ascii "Kernel '%s' from 0x%lx and 0x%lx\n", by decide⟩
  args := ⟨fun i => [1, f.address, f.address + f.size].getD i 0, fun _ => f.path⟩

def offsetLine (offset : U64) : LogCall where
  level := .info
  format := ⟨ascii "HHDM offset is 0x%lx\n", by decide⟩
  args := .ofWords [offset]

def endLine : LogCall where
  level := .warn
  format := ⟨ascii "Reached end of kernel code. Hanging.\n", by decide⟩
  args := .ofWords []

/-- `init_serial` -/
def initSerialBoot (o : Outside) (port : U16) : BootM Bool := fun p =>
  let (ok, h) := initSerial o.uart port p.2
  .ok ok (p.1, h)

/-- Memory as the kernel's image is seen, which is at `physicalBase`. -/
def imageView (physicalBase : U64) (mem : Mem) : Mem := fun v => mem (physicalBase + (v - kernelVma))

/-- The memory that is seen so. -/
def ofImageView (physicalBase : U64) (view : Mem) : Mem := fun x => view (x - physicalBase + kernelVma)

/-- `idtr` and `idt` are set, and `lidt` is executed. -/
def setGates (image : Image) (physicalBase : U64) (b : Boot) : Boot :=
  let table := initializeExceptions image.idt image.stubs (imageView physicalBase b.kernel.mem)
  { b with
    idtr := some table.1
    kernel := { b.kernel with mem := ofImageView physicalBase table.2 } }

/-- `initialize_exceptions` -/
def initializeExceptionsBoot (o : Outside) (image : Image) (physicalBase : U64) : BootM Unit := do
  modify fun p => (setGates image physicalBase p.1, p.2)
  say o exceptionsLine
  modify fun p => ({ p.1 with handlers := registerHandlers p.1.handlers }, p.2)

/-- The statics that `init_font` sets for the framebuffer. -/
def LimineFramebuffer.screen (f : LimineFramebuffer) (font : U16 → U8) : Screen :=
  initFont font (f.pitch.setWidth 32) (f.width.setWidth 32) (f.height.setWidth 32) 0x00FFFFFF 0

/-- `init_font` -/
def initFontBoot (image : Image) (f : LimineFramebuffer) : BootM Unit :=
  modify fun p => ({ p.1 with screen := some (f.address, f.screen image.font) }, p.2)

/-- The stores of `puts`, as bytes at addresses. -/
def putsWrites (address : U64) (s : Screen) (str : List U8) : List (U64 × U8) :=
  (Screen.puts { s with writes := [] } str).byteWrites address

/-- `puts`, through the page tables that CR3 points to. -/
def putsBoot (str : List U8) : BootM Unit := do
  match (← get).1.screen, (← get).1.kernel.cr3 with
  | some (address, s), some root =>
    match (pageSpace root).writeAll (← get).1.kernel.mem (putsWrites address s str) with
    | some mem =>
      modify fun p => ({ p.1 with
        kernel := { p.1.kernel with mem }
        screen := some (address, s.puts str) }, p.2)
    | none => throw .fault
  | _, _ => throw .fault

/-- `cli` -/
def cli : BootM Unit := modify fun p => ({ p.1 with interrupts := false }, p.2)

/-- `kmain` from `initialize_memmap` on. -/
def kmainMemory (o : Outside) (image : Image) (limine : Limine) (rsp : U64) : BootM Unit := do
  onKernel (initializeMemmapLogged o limine.memmap limine.offset)
  onKernel (initializePagingLogged o limine.memmap limine.physicalBase image.kernelEnd rsp)
  putsBoot (ascii "Please work")
  say o endLine
  cli
  throw .halted

/-- `kmain` from `init_serial` on. -/
def kmainReady (o : Outside) (image : Image) (limine : Limine) (rsp : U64)
    (framebuffer : LimineFramebuffer) : BootM Unit := do
  if ← initSerialBoot o COM1 then
    say o serialLine
  initializeExceptionsBoot o image limine.physicalBase
  say o (framebufferLine framebuffer)
  say o (kernelLine limine.kernelFile)
  say o (offsetLine limine.offset)
  initFontBoot image framebuffer
  kmainMemory o image limine rsp

/-- `kmain`; `rsp` is what it finds in the stack pointer. -/
def kmain (o : Outside) (image : Image) (limine : Limine) (rsp : U64) : BootM Unit := do
  if limine.supported = false then
    throw .halted
  match limine.framebuffers with
  | none => throw .halted
  | some [] => throw .halted
  | some (framebuffer :: _) => kmainReady o image limine rsp framebuffer

end Bintos
