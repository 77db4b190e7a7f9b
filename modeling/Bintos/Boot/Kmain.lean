import Bintos.Boot.Budget
import Bintos.Boot.Logged
import Bintos.Int.AfterBoot

/-!
# The steps of `kmain`

What each step of `kmain` does to the machine and what it logs, one after the other.  How `kmain` goes on
from the memory map decides how it ends (`run_kmainReady`): with the machine that memory management and
the text on the screen leave (`emits_kmainMemory`), or at the first type without a name
(`emits_kmainMemory_unnamed`).
-/

namespace Bintos

open Channel

/-! ### The steps -/

section Steps

variable {o : Outside} {image : Image} {limine : Limine} {rsp physicalBase : U64} {b : Boot}
  {β : Type} {x : LogKern β} {out : List LogCall} {k : Kernel}

theorem emits_onKernel {v : β} (emits : Emits (logfPorts o) x b.kernel out (.ok v k)) :
    Emits (logfPorts o) (onKernel x) b out (.ok v { b with kernel := k }) := by
  intro t t' sent
  rw [run_onKernel, emits t t' sent]
  rfl

theorem emits_onKernel_error {e : BootStop} (emits : Emits (logfPorts o) x b.kernel out (.error e k)) :
    Emits (logfPorts o) (onKernel x) b out (.error e { b with kernel := k }) := by
  intro t t' sent
  rw [run_onKernel, emits t t' sent]
  rfl

/-- A change of the machine that does not touch the ports. -/
theorem emits_modify (g : Boot → Boot) (b : Boot) :
    Emits (logfPorts o) (modify fun p => (g p.1, p.2) : BootM Unit) b [] (.ok () (g b)) := by
  intro t t' sent
  cases sent
  rfl

theorem emits_initializeExceptions (o : Outside) (image : Image) (physicalBase : U64) (b : Boot) :
    Emits (logfPorts o) (initializeExceptionsBoot o image physicalBase) b [exceptionsLine]
      (.ok () { setGates image physicalBase b with
        handlers := registerHandlers (setGates image physicalBase b).handlers }) :=
  (emits_modify _ b).bind_nil ((emits_say o _ _).bind
    (emits_modify (fun b => { b with handlers := registerHandlers b.handlers }) _))

theorem emits_initializePaging {r : List MemmapEntry} {kernelEnd : U64} {k' : Kernel}
    (returns : (initializePaging frameAlloc o.fuel r physicalBase kernelEnd rsp).run k = .ok () k') :
    Emits (logfPorts o) (initializePagingLogged o r physicalBase kernelEnd rsp) k
      [pagingLine k'.pml4Addr] (.ok () k') :=
  (emits_quietly returns).bind_nil (emits_look (emits_say o _ k'))

/-- Text is drawn through the page tables. -/
theorem emits_puts {address root : U64} {s : Screen} {str : List U8} {mem : Mem}
    (screen : b.screen = some (address, s)) (loaded : b.kernel.cr3 = some root)
    (drawn : (pageSpace root).writeAll b.kernel.mem (putsWrites address s str) = some mem) :
    Emits (logfPorts o) (putsBoot str) b [] (.ok () { b with
      kernel := { b.kernel with mem }
      screen := some (address, s.puts str) }) := by
  intro t t' sent
  cases sent
  rw [putsBoot, EStateM.run_bind, EStateM.run_get]
  simp only [screen]
  rw [EStateM.run_bind, EStateM.run_get]
  simp only [loaded]
  rw [EStateM.run_bind, EStateM.run_get]
  simp only [drawn]
  rw [← loaded]
  rfl

end Steps

/-! ### The whole run -/

/-- What `kmain` logs first, if the port works. -/
def serialLines (works : Bool) : List LogCall := if works then [serialLine] else []

/-- What `kmain` logs before it looks at the memory map. -/
def startLines (limine : Limine) (f : LimineFramebuffer) : List LogCall :=
  [exceptionsLine, framebufferLine f, kernelLine limine.kernelFile, offsetLine limine.offset]

/-- What `kmain` logs once the port is set up. -/
def kmainLines (limine : Limine) (f : LimineFramebuffer) (p : Pmem) (pml4Addr : U64) : List LogCall :=
  startLines limine f ++ (initLines limine.memmap p ++ [pagingLine pml4Addr, endLine])

/-- The machine `b` with the gates when `kmain` looks at the memory map. -/
def prepared (image : Image) (f : LimineFramebuffer) (b : Boot) : Boot :=
  { b with
    handlers := registerHandlers b.handlers
    screen := some (f.address, f.screen image.font) }

section Run

variable {o : Outside} {image : Image} {limine : Limine} {rsp root : U64} {f : LimineFramebuffer}
  {b w : Boot} {s₀ s₁ : Kernel} {mem : Mem} {h h' : List Io} {lines : List LogCall} {e : BootStop}

/-- How `kmain` goes on from the memory map decides how it ends. -/
theorem run_kmainReady
    (emits : Emits (logfPorts o) (kmainMemory o image limine rsp)
      (prepared image f (setGates image limine.physicalBase b)) lines (.error e w))
    (sent : (logAll o (serialLines (initSerial o.uart COM1 h).1 ++ (startLines limine f ++ lines))).run
      (initSerial o.uart COM1 h).2 = .ok () h') :
    (kmainReady o image limine rsp f).run (b, h) = .error e (w, h') := by
  have first : (initSerialBoot o COM1).run (b, h) =
      .ok (initSerial o.uart COM1 h).1 (b, (initSerial o.uart COM1 h).2) := rfl
  rw [kmainReady, EStateM.run_bind, first]
  generalize (initSerial o.uart COM1 h).1 = works at sent ⊢
  suffices ends : Emits (logfPorts o) _ b _ (.error e w) from ends _ _ sent
  extract_lets rest
  have gates := emits_initializeExceptions o image limine.physicalBase b
  generalize setGates image limine.physicalBase b = b₁ at emits gates
  have ends : Emits (logfPorts o) (rest ()) b (startLines limine f ++ lines) (.error e w) := by
    refine gates.bind ?_
    refine (emits_say o _ _).bind ((emits_say o _ _).bind ((emits_say o _ _).bind ?_))
    exact (emits_modify (fun b => { b with
      screen := some (f.address, f.screen image.font) }) _).bind_nil emits
  cases works with
  | true => exact (emits_say o serialLine b).bind ends
  | false => exact ends

/-- From the memory map on, when the memory management returns and the text can be drawn. -/
theorem emits_kmainMemory {address : U64} {s : Screen}
    (named : ∀ e ∈ limine.memmap, memmapTypeName e.type ≠ none)
    (started : (initializeMemmap o.fuel limine.memmap limine.offset).run b.kernel = .ok () s₀)
    (paged : (initializePaging frameAlloc o.fuel limine.memmap limine.physicalBase image.kernelEnd
      rsp).run s₀ = .ok () s₁)
    (screen : b.screen = some (address, s)) (loaded : s₁.cr3 = some root)
    (drawn : (pageSpace root).writeAll s₁.mem (putsWrites address s (ascii "Please work")) = some mem) :
    Emits (logfPorts o) (kmainMemory o image limine rsp) b
      (initLines limine.memmap s₀.alloc ++ [pagingLine s₁.pml4Addr, endLine])
      (.error .halted { b with
        kernel := { s₁ with mem }
        screen := some (address, s.puts (ascii "Please work"))
        interrupts := false }) := by
  refine Emits.bind (emits_onKernel (emits_initializeMemmap named started)) ?_
  show Emits _ _ _ ([pagingLine s₁.pml4Addr] ++ [endLine]) _
  refine Emits.bind (emits_onKernel (emits_initializePaging paged)) ?_
  refine Emits.bind_nil (emits_puts screen loaded drawn) ?_
  refine (emits_say o endLine _).bind ?_
  refine (emits_modify (fun b => { b with interrupts := false }) _).bind_nil ?_
  exact Emits.throw _ _

/-- From the memory map on, when a type has no name. -/
theorem emits_kmainMemory_unnamed (few : limine.memmap.length ≤ maxRegions)
    (unnamed : ∃ e ∈ limine.memmap, memmapTypeName e.type = none) (image : Image) (rsp : U64)
    (b : Boot) : ∃ out w, ∀ o,
      Emits (logfPorts o) (kmainMemory o image limine rsp) b out (.error .undefined w) := by
  obtain ⟨out, k', stops⟩ := emits_initializeMemmap_unnamed few unnamed limine.offset b.kernel
  exact ⟨out, _, fun o => (emits_onKernel_error (stops o)).bind_error⟩

/-- Where `kmain` stops from the memory map on, it stops after all of its log is delivered. -/
theorem kmain_stops {rest : List LimineFramebuffer}
    (stops : ∀ fuel, Emits (logfPorts { o with fuel }) (kmainMemory { o with fuel } image limine rsp)
      (prepared image f (setGates image limine.physicalBase b)) lines (.error e w))
    (supported : limine.supported = true) (first : limine.framebuffers = some (f :: rest))
    (drains : Drains o.uart COM1) (h : List Io) :
    ∃ n d, Delivered COM1 ((serialLines (initSerial o.uart COM1 h).1 ++
        (startLines limine f ++ lines)).flatMap LogCall.text) d ∧
      ∀ fuel, n < fuel → (kmain { o with fuel } image limine rsp).run (b, h) =
        .error e (w, d ++ (initSerial o.uart COM1 h).2) := by
  obtain ⟨n, d, delivered, sent⟩ := drains.exists_logAll
    (serialLines (initSerial o.uart COM1 h).1 ++ (startLines limine f ++ lines))
    (initSerial o.uart COM1 h).2
  refine ⟨n, d, delivered, fun fuel enough => ?_⟩
  have ready := run_kmainReady (o := { o with fuel }) (stops fuel) (sent fuel enough)
  rw [kmain, supported, first]
  exact ready

end Run

end Bintos
