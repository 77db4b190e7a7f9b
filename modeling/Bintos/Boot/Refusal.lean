import Bintos.Boot.Run
import Bintos.Pmem.Home

/-!
# Where `kmain` halts at an assertion

`initialize_memmap` has an assertion before it reads the memory map, one when it has searched for room for
the bitmap, and one before it fills the bitmap.  The memory map decides which of them fails (`refusal`).
`kmain` then halts with the assertion as the last line of its log, and in memory only the gates are
changed (`kmain_refuses`).
-/

namespace Bintos

open Channel

/-- A failed assertion of `pmem.c`, after some lines of the log. -/
structure Refusal where
  lines : List LogCall
  expr : CString
  line : U64

/-- What is logged for a failed assertion, the assertion last. -/
def Refusal.log (o : Outside) (a : Refusal) : List LogCall :=
  a.lines ++ [assertionLine o a.expr pmemFile a.line]

/-- The assertion at which `initialize_memmap` halts, if there is one. -/
def refusal (r : List MemmapEntry) (offset : U64) : Option Refusal :=
  if r.length ≤ maxRegions then
    let lines := memmapLines r ++ [usableLine (readPmem r)]
    match lastFit (BitVec.ofNat 64 (bitmapBytes r)) r with
    | none => some ⟨lines, roomExpr, 162⟩
    | some e =>
      if e.base = 0 then some ⟨lines, roomExpr, 162⟩
      else if e.base + offset = 0 then
        some ⟨lines ++ [frameMapLine (searched r offset e)], frameMapExpr, 168⟩
      else none
  else some ⟨[], regionsExpr, 79⟩

section Refusal

variable {o : Outside} {r : List MemmapEntry} {offset : U64} {k : Kernel} {mem : Mem} {a : Refusal}

theorem emits_require_false {σ : Type} {s : σ} {b : Bool} (fails : b = false) (expr : CString)
    (file : List U8) (line : U64) :
    Emits (logfPorts o) (require o b expr file line) s [assertionLine o expr file line]
      (.error .halted s) := by
  rw [fails, require_false]
  exact (emits_say o _ s).bind (Emits.throw _ s)

/-- The search fails when the last entry with room is at the address 0, or there is none. -/
theorem emits_locateForBitmap_error (tail : List Region) (known : k.alloc.map = some r)
    (unset : k.alloc.frameMap = 0) (small : (usable r).length < 256)
    (table : k.alloc.regionInfo = (usable r).map wholeRegion ++ tail)
    (nowhere : ∀ e, lastFit (k.alloc.maxFrames >>> 1) r = some e → e.base = 0) :
    ∃ k', k'.mem = k.mem ∧ k'.cr3 = k.cr3 ∧ ∀ o, Emits (logfPorts o) (locateForBitmapLogged o) k
      [assertionLine o roomExpr pmemFile 162] (.error .halted k') := by
  have zero : (((usable r).filter (k.alloc.maxFrames >>> 1 ≤ ·.length)).getLast?.map
      (·.base)).getD k.alloc.frameMap = 0 := by
    unfold lastFit at nowhere
    cases found : ((usable r).filter (k.alloc.maxFrames >>> 1 ≤ ·.length)).getLast? with
    | none => exact unset
    | some e => exact nowhere e found
  have search : ∃ i t, ((k.alloc.map.getD []).foldlM fitBitmap 0).run
      { k with alloc := { k.alloc with bitmapLength := k.alloc.maxFrames >>> 1 } } = .ok i t ∧
      t.mem = k.mem ∧ t.cr3 = k.cr3 ∧ t.alloc.frameMap = 0 := by
    have entries : k.alloc.map.getD [] = r := by
      rw [known]
      rfl
    rw [entries]
    exact ⟨_, _, run_fitBitmap_loop r [] tail _ (by simpa using small) table, rfl, rfl, zero⟩
  obtain ⟨i, t, search, memory, root, nowhere⟩ := search
  refine ⟨t, memory, root, fun o => ?_⟩
  rw [locateForBitmapLogged]
  refine emits_look ((emits_require (by rw [known]; rfl) _ _ _).bind_nil ?_)
  refine emits_change _ (emits_look ((emits_quietly search).bind_nil ?_))
  exact emits_look (emits_require_false (by simp [nowhere]) _ _ _).bind_error

/-- A bitmap at the address 0 is not filled. -/
theorem emits_initializeBitmap_error (unset : k.alloc.frameMap = 0) :
    Emits (logfPorts o) (initializeBitmapLogged o) k [assertionLine o frameMapExpr pmemFile 168]
      (.error .halted k) := by
  rw [initializeBitmapLogged]
  exact emits_look (emits_require_false (by simp [unset]) _ _ _).bind_error

theorem emits_initializeMemmap_long (long : ¬ r.length ≤ maxRegions) (offset : U64) (k : Kernel) :
    ∃ k', k'.mem = k.mem ∧ k'.cr3 = k.cr3 ∧ ∀ o, Emits (logfPorts o)
      (initializeMemmapLogged o r offset) k [assertionLine o regionsExpr pmemFile 79]
      (.error .halted k') := by
  refine ⟨{ { k with hhdmoff := offset } with alloc := { k.alloc with map := some r } }, rfl, rfl,
    fun o => ?_⟩
  rw [initializeMemmapLogged]
  exact emits_change _ (emits_change _ (emits_require_false (decide_eq_false long) _ _ _).bind_error)

theorem emits_initializeMemmap_nowhere (few : r.length ≤ maxRegions) (space : freeSpace r < 2 ^ 64)
    (named : ∀ e ∈ r, memmapTypeName e.type ≠ none)
    (nowhere : ∀ e, lastFit (BitVec.ofNat 64 (bitmapBytes r)) r = some e → e.base = 0) (offset : U64)
    (mem : Mem) :
    ∃ k', k'.mem = mem ∧ k'.cr3 = none ∧ ∀ o, Emits (logfPorts o) (initializeMemmapLogged o r offset)
      (atBoot mem)
      (memmapLines r ++ [usableLine (readPmem r), assertionLine o roomExpr pmemFile 162])
      (.error .halted k') := by
  have small : (usable r).length ≤ 32 := (List.length_filter_le _ _).trans few
  have half : (readPmem r).maxFrames >>> 1 = BitVec.ofNat 64 (bitmapBytes r) := half_frames space
  rw [← half] at nowhere
  obtain ⟨k', memory, root, stops⟩ := emits_locateForBitmap_error (r := r)
    (k := { atBoot mem with hhdmoff := offset, alloc := readPmem r }) _ rfl rfl (by omega) rfl nowhere
  refine ⟨k', memory, root, fun o => ?_⟩
  exact emits_readMemmap named (run_readMemmap few space offset mem) (stops o).bind_error

/-- The address of the bitmap in the direct map is null. -/
theorem emits_initializeMemmap_null {e : MemmapEntry} (few : r.length ≤ maxRegions)
    (space : freeSpace r < 2 ^ 64) (named : ∀ e ∈ r, memmapTypeName e.type ≠ none)
    (found : lastFit (BitVec.ofNat 64 (bitmapBytes r)) r = some e) (nonzero : e.base ≠ 0)
    (null : e.base + offset = 0) (mem : Mem) :
    Emits (logfPorts o) (initializeMemmapLogged o r offset) (atBoot mem)
      (memmapLines r ++ [usableLine (readPmem r), frameMapLine (searched r offset e),
        assertionLine o frameMapExpr pmemFile 168])
      (.error .halted { atBoot mem with hhdmoff := offset, alloc := searched r offset e }) := by
  have small : (usable r).length ≤ 32 := (List.length_filter_le _ _).trans few
  have half : (readPmem r).maxFrames >>> 1 = BitVec.ofNat 64 (bitmapBytes r) := half_frames space
  rw [← half] at found
  have located : locateForBitmap.run { atBoot mem with hhdmoff := offset, alloc := readPmem r } =
      .ok () { atBoot mem with hhdmoff := offset, alloc := searched r offset e } :=
    (run_locateForBitmap (m := r) _ rfl rfl (by omega) rfl).1 e found nonzero
  obtain ⟨logged, -⟩ := emits_locateForBitmap (o := o) located
  exact emits_readMemmap named (run_readMemmap few space offset mem)
    (logged.bind (emits_initializeBitmap_error null))

/-- Where an assertion fails, `initialize_memmap` halts. -/
theorem emits_refusal (refused : refusal r offset = some a)
    (named : r.length ≤ maxRegions → ∀ e ∈ r, memmapTypeName e.type ≠ none)
    (space : freeSpace r < 2 ^ 64) (mem : Mem) :
    ∃ k', k'.mem = mem ∧ k'.cr3 = none ∧ ∀ o, Emits (logfPorts o) (initializeMemmapLogged o r offset)
      (atBoot mem) (a.log o) (.error .halted k') := by
  unfold refusal at refused
  by_cases few : r.length ≤ maxRegions
  · rw [if_pos few] at refused
    cases found : lastFit (BitVec.ofNat 64 (bitmapBytes r)) r with
    | none =>
      simp only [found, Option.some_inj] at refused
      simp only [← refused, Refusal.log, List.append_assoc]
      exact emits_initializeMemmap_nowhere few space (named few)
        (fun e home => by rw [found] at home; cases home) offset mem
    | some e =>
      simp only [found] at refused
      split_ifs at refused with zero null
      · rw [Option.some_inj] at refused
        simp only [← refused, Refusal.log, List.append_assoc]
        exact emits_initializeMemmap_nowhere few space (named few)
          (fun e' home => by rw [found, Option.some_inj] at home; rwa [← home]) offset mem
      · rw [Option.some_inj] at refused
        simp only [← refused, Refusal.log, List.append_assoc]
        exact ⟨_, rfl, rfl, fun o =>
          emits_initializeMemmap_null few space (named few) found zero null mem⟩
  · rw [if_neg few, Option.some_inj] at refused
    rw [← refused]
    exact emits_initializeMemmap_long few offset (atBoot mem)

end Refusal

section Run

variable {limine : Limine} {f : LimineFramebuffer} {rest : List LimineFramebuffer} {a : Refusal}

/-- **`kmain` at a failed assertion.**  When an assertion of `initialize_memmap` fails, `kmain` halts with it
as the last line of its log.  In memory only the gates are changed, and the page tables are those of the
boot loader. -/
theorem kmain_refuses (refused : refusal limine.memmap limine.offset = some a)
    (named : limine.memmap.length ≤ maxRegions → ∀ e ∈ limine.memmap, memmapTypeName e.type ≠ none)
    (space : freeSpace limine.memmap < 2 ^ 64) (supported : limine.supported = true)
    (first : limine.framebuffers = some (f :: rest)) {o : Outside} (drains : Drains o.uart COM1)
    (image : Image) (rsp : U64) (mem : Mem) (interrupts : Bool) :
    ∃ n w d, w.kernel.mem = withGates image limine.physicalBase mem ∧ w.kernel.cr3 = none ∧
      Delivered COM1 ((serialLines (initSerial o.uart COM1 []).1 ++
        (startLines limine f ++ a.log o)).flatMap LogCall.text) d ∧
      ∀ fuel, n < fuel →
        (kmain { o with fuel } image limine rsp).run (handedOver mem interrupts, []) =
          .error .halted (w, d ++ (initSerial o.uart COM1 []).2) := by
  obtain ⟨k', memory, root, stops⟩ := emits_refusal refused named space
    (withGates image limine.physicalBase mem)
  let b : Boot := prepared image f (setGates image limine.physicalBase (handedOver mem interrupts))
  have ready : b.kernel = atBoot (withGates image limine.physicalBase mem) := rfl
  rw [← ready] at stops
  have ends (fuel : ℕ) : Emits (logfPorts { o with fuel })
      (kmainMemory { o with fuel } image limine rsp) b (a.log o)
      (.error .halted { b with kernel := k' }) := by
    have log : a.log { o with fuel } = a.log o := rfl
    rw [← log]
    exact (emits_onKernel_error (stops _)).bind_error
  obtain ⟨n, d, delivered, halts⟩ := kmain_stops ends supported first drains []
  exact ⟨n, _, d, memory, root, delivered, halts⟩

/-- The only usable memory begins at the address 0. -/
theorem screenLimine_refuses : ∃ n w d,
    w.kernel.mem = withGates screenImage 0x1000000 (fun _ => 0) ∧ w.kernel.cr3 = none ∧
    Delivered COM1 ((serialLines false ++ (startLines screenLimine screenBuffer ++
      (memmapLines [⟨0, 0x100000, memmapUsable⟩] ++
        [usableLine (readPmem [⟨0, 0x100000, memmapUsable⟩])] ++
        [assertionLine ⟨fun _ _ => 0x20, 0, fun _ => 0, []⟩ roomExpr pmemFile 162]))).flatMap
          LogCall.text) d ∧
    ∀ fuel, n < fuel →
      (kmain ⟨fun _ _ => 0x20, fuel, fun _ => 0, []⟩ screenImage
        { screenLimine with memmap := [⟨0, 0x100000, memmapUsable⟩] } 0xffff800000080000).run
          (handedOver (fun _ => 0) true, []) =
            .error .halted (w, d ++ (initSerial (fun _ _ => 0x20) COM1 []).2) :=
  @kmain_refuses { screenLimine with memmap := [⟨0, 0x100000, memmapUsable⟩] } screenBuffer []
    ⟨memmapLines [⟨0, 0x100000, memmapUsable⟩] ++
      [usableLine (readPmem [⟨0, 0x100000, memmapUsable⟩])], roomExpr, 162⟩
    rfl (by decide) (by decide) rfl rfl ⟨fun _ _ => 0x20, 0, fun _ => 0, []⟩ drains_ready _ _ _ _

end Run

end Bintos
