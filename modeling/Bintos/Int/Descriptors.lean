import Bintos.Lib.Records
import Bintos.Lib.Stores
import Bintos.Lib.Words
import Bintos.Machine

/-!
# The interrupt descriptor table (`int/interrupts.c`)

`idt_set_descriptor` assigns the members of an `idt_entry_t` in memory, and the processor decodes the
bytes of the table.  What it finds for a vector is what the last call for that vector was given
(`idt_decodes`).  The table of handlers, which the processor does not read, is left out.
-/

namespace Bintos

open Packed

/-- `idt_entry_t` -/
inductive IdtEntry where
  | isrLow | kernelCs | ist | attributes | isrMid | isrHigh | reserved
  deriving DecidableEq, Repr

instance : Packed IdtEntry where
  order := [.isrLow, .kernelCs, .ist, .attributes, .isrMid, .isrHigh, .reserved]
  width
    | .isrLow | .kernelCs | .isrMid => 16
    | .ist | .attributes => 8
    | .isrHigh | .reserved => 32
  nodup := by decide
  complete := by rintro (_ | _) <;> decide

instance : WholeBytes IdtEntry where
  whole := by rintro (_ | _) <;> decide
  fits := by decide

/-- `KERNEL_CS` -/
def kernelCs : U16 := 0x28
/-- `INTR_CNT` -/
def intrCnt : U16 := 256

/-- `&idt[vector]`, for the table at the address `idt` -/
def idtEntry (idt : U64) (vector : U8) : U64 :=
  idt + vector.setWidth 64 * BitVec.ofNat 64 (byteSize IdtEntry)

/-- `idt_set_descriptor` -/
def idtSetDescriptor (idt : U64) (vector : U8) (isr : U64) (flags : U8) (m : Mem) : Mem :=
  let descriptor := idtEntry idt vector
  let m := assign descriptor IdtEntry.isrLow (isr &&& 0xFFFF) m
  let m := assign descriptor IdtEntry.kernelCs (kernelCs.setWidth 64) m
  let m := assign descriptor IdtEntry.ist 0 m
  let m := assign descriptor IdtEntry.attributes (flags.setWidth 64) m
  let m := assign descriptor IdtEntry.isrMid ((isr >>> 16) &&& 0xFFFF) m
  let m := assign descriptor IdtEntry.isrHigh ((isr >>> 32) &&& 0xFFFFFFFF) m
  assign descriptor IdtEntry.reserved 0 m

/-- `idtr_t` -/
structure Idtr where
  limit : U16
  base : U64
  deriving DecidableEq, Repr

/-- `initialize_exceptions`, with the value loaded into IDTR; `stubs` is `exception_stub_table`. -/
def initializeExceptions (idt : U64) (stubs : ℕ → U64) (m : Mem) : Idtr × Mem :=
  (⟨BitVec.ofNat 16 (byteSize IdtEntry) * intrCnt - 1, idt⟩,
    (List.range 32).foldl (fun m i => idtSetDescriptor idt (BitVec.ofNat 8 i) (stubs i) 0x8E m) m)

/-! ## The processor -/

/-- What the processor reads in a gate descriptor. -/
@[ext] structure Gate where
  /-- where the handler begins -/
  offset : U64
  selector : U16
  ist : U8
  /-- the type and the attributes -/
  attributes : U8
  reserved : U32
  deriving DecidableEq, Repr

namespace Gate

/-- A gate descriptor of 16 bytes. -/
def decode (m : Mem) (p : U64) : Gate where
  offset := m.readLE (p + 8) 4 ++ m.readLE (p + 6) 2 ++ m.readLE (p + 0) 2
  selector := m.readLE (p + 2) 2
  ist := m.readLE (p + 4) 1
  attributes := m.readLE (p + 5) 1
  reserved := m.readLE (p + 12) 4

/-- The bit for a gate that is in use. -/
def present (g : Gate) : Bool := g.attributes.getLsbD 7

/-- A descriptor of zeros. -/
def zero : Gate := ⟨0, 0, 0, 0, 0⟩

end Gate

/-- The descriptor that the processor reads for a vector, if it is in the table. -/
def Idtr.gate (r : Idtr) (m : Mem) (vector : U8) : Option Gate :=
  if 16 * vector.toNat + 15 ≤ r.limit.toNat then
    some (Gate.decode m (r.base + vector.setWidth 64 * 16))
  else
    none

/-! ## One call -/

section Call

variable {idt : U64} {vector other : U8} {isr : U64} {flags : U8} {m : Mem}

/-- The members of an `idt_entry_t` are where the processor looks for them. -/
theorem decode_eq (m : Mem) (p : U64) :
    Gate.decode m p =
      { offset := (member p IdtEntry.isrHigh).get m ++ (member p IdtEntry.isrMid).get m ++
          (member p IdtEntry.isrLow).get m
        selector := (member p IdtEntry.kernelCs).get m
        ist := (member p IdtEntry.ist).get m
        attributes := (member p IdtEntry.attributes).get m
        reserved := (member p IdtEntry.reserved).get m } :=
  rfl

/-- What `idt_set_descriptor` assigns to the members. -/
def idtValue (isr : U64) (flags : U8) : IdtEntry → U64
  | .isrLow => isr &&& 0xFFFF
  | .kernelCs => kernelCs.setWidth 64
  | .ist => 0
  | .attributes => flags.setWidth 64
  | .isrMid => (isr >>> 16) &&& 0xFFFF
  | .isrHigh => (isr >>> 32) &&& 0xFFFFFFFF
  | .reserved => 0

theorem get_idtSetDescriptor (f : IdtEntry) :
    (member (idtEntry idt vector) f).get (idtSetDescriptor idt vector isr flags m) =
      (idtValue isr flags f).setWidth _ := by
  cases f <;> simp (disch := decide) only [idtSetDescriptor, get_assign_self, get_assign_of_ne] <;> rfl

/-- Two entries of the table do not meet. -/
theorem idtEntry_apart (idt : U64) (h : vector ≠ other) :
    byteSize IdtEntry ≤ (idtEntry idt vector - idtEntry idt other).toNat := by
  show 16 ≤ ((idt + vector.setWidth 64 * 16#64) - (idt + other.setWidth 64 * 16#64)).toNat
  bv_omega

theorem get_idtSetDescriptor_of_ne (h : other ≠ vector) (f : IdtEntry) :
    (member (idtEntry idt other) f).get (idtSetDescriptor idt vector isr flags m) =
      (member (idtEntry idt other) f).get m := by
  have apart (g : IdtEntry) (v : U64) (m : Mem) :=
    get_assign_of_apart (f := g) (g := f) (idtEntry_apart idt h.symm) (idtEntry_apart idt h) v m
  simp only [idtSetDescriptor, apart]

/-- The three parts of an address. -/
theorem isr_parts (isr : U64) :
    ((isr >>> 32) &&& 0xFFFFFFFF).setWidth 32 ++ ((isr >>> 16) &&& 0xFFFF).setWidth 16 ++
      (isr &&& 0xFFFF).setWidth 16 = isr := by
  have half (x : U64) : (x &&& 0xFFFFFFFF).setWidth 32 = x.setWidth 32 :=
    BitVec.setWidth_and.trans BitVec.and_allOnes
  have quarter (x : U64) : (x &&& 0xFFFF).setWidth 16 = x.setWidth 16 :=
    BitVec.setWidth_and.trans BitVec.and_allOnes
  have upper : isr >>> 32 = (isr >>> 16) >>> 16 := BitVec.shiftRight_add isr 16 16
  rw [half, quarter, quarter, upper, Words.setWidth_ushiftRight_append]
  exact (Words.setWidth_ushiftRight_append isr 48 16).trans (BitVec.setWidth_eq isr)

/-- The gate for a handler. -/
def gateFor (isr : U64) (flags : U8) : Gate := ⟨isr, kernelCs, 0, flags, 0⟩

theorem decode_idtSetDescriptor_self :
    Gate.decode (idtSetDescriptor idt vector isr flags m) (idtEntry idt vector) =
      gateFor isr flags := by
  have attributes : (flags.setWidth 64).setWidth 8 = flags :=
    BitVec.setWidth_setWidth_of_le flags (by decide)
  simp only [decode_eq, get_idtSetDescriptor]
  exact Gate.ext (isr_parts isr) rfl rfl attributes rfl

end Call

/-! ## The table -/

/-- The gates of the table at `idt`. -/
def idtGates (idt : U64) (m : Mem) : U8 → Gate := fun vector => Gate.decode m (idtEntry idt vector)

/-- A call stores one gate to the table. -/
theorem idtGates_set (idt : U64) (vector : U8) (isr : U64) (flags : U8) (m : Mem) :
    idtGates idt (idtSetDescriptor idt vector isr flags m) =
      Function.update (idtGates idt m) vector (gateFor isr flags) := by
  funext other
  by_cases same : other = vector
  · subst same
    rw [Function.update_self]
    exact decode_idtSetDescriptor_self
  · rw [Function.update_of_ne same, idtGates, idtGates, decode_eq, decode_eq]
    simp only [get_idtSetDescriptor_of_ne same]

/-- The table as it is at first. -/
theorem idtGates_zeroed {idt : U64} {m : Mem} (zeroed : ∀ x, Mem.InRange idt 4096 x → m x = 0)
    (vector : U8) : idtGates idt m vector = Gate.zero := by
  have entry (f : IdtEntry) : (member (idtEntry idt vector) f).get m = 0 := by
    refine get_eq_zero (fun x inside => zeroed x ?_) f
    have inside : (x - (idt + vector.setWidth 64 * 16#64)).toNat < 16 := inside
    rw [Mem.InRange]
    bv_omega
  rw [idtGates, decode_eq]
  simp only [entry]
  rfl

/-- A call writes to the table only. -/
theorem idtSetDescriptor_of_not_inRange {idt x : U64} (outside : ¬ Mem.InRange idt 4096 x) (vector : U8)
    (isr : U64) (flags : U8) (m : Mem) : idtSetDescriptor idt vector isr flags m x = m x := by
  have entry : ¬ Mem.InRange (idtEntry idt vector) (byteSize IdtEntry) x := by
    intro inside
    have inside : (x - (idt + vector.setWidth 64 * 16#64)).toNat < 16 := inside
    rw [Mem.InRange] at outside
    bv_omega
  simp only [idtSetDescriptor, assign_of_not_inRange entry]

/-- The arguments of a call of `idt_set_descriptor`. -/
structure IdtCall where
  vector : U8
  isr : U64
  flags : U8
  deriving DecidableEq, Repr

/-- **The table in memory.**  On a zeroed table, after any calls of `idt_set_descriptor`, the processor
decodes for every vector the gate that the last call for it was given, and a gate of zeros, which is not
present, when there was none. -/
theorem idt_decodes (idt : U64) {m : Mem} (zeroed : ∀ x, Mem.InRange idt 4096 x → m x = 0)
    (calls : List IdtCall) (vector : U8) :
    Gate.decode (calls.foldl (fun m c => idtSetDescriptor idt c.vector c.isr c.flags m) m)
        (idt + vector.setWidth 64 * 16) =
      ((calls.filter (·.vector = vector)).getLast?.map fun c =>
        { offset := c.isr, selector := kernelCs, ist := 0, attributes := c.flags,
          reserved := 0 }).getD Gate.zero ∧
    Gate.zero.present = false := by
  refine ⟨?_, rfl⟩
  have table := Stores.foldl_update (idtGates idt) IdtCall.vector (fun c => gateFor c.isr c.flags)
    (fun m c => idtGates_set idt c.vector c.isr c.flags m) m calls vector
  rw [idtGates_zeroed zeroed] at table
  exact table

/-- Two calls for one vector, with one for the next vector between them. -/
theorem page_fault_decodes :
    (Gate.decode (([⟨14, 0xFFFFFFFF80001000, 0x8F⟩, ⟨15, 0x1234, 0x8E⟩,
      ⟨14, 0xFFFFFFFF80002345, 0x8E⟩] : List IdtCall).foldl
        (fun m c => idtSetDescriptor 0xFFFFFFFF80010000 c.vector c.isr c.flags m) fun _ => 0)
      (0xFFFFFFFF80010000 + (14 : U8).setWidth 64 * 16)).offset = 0xFFFFFFFF80002345 :=
  congrArg Gate.offset (idt_decodes 0xFFFFFFFF80010000 (fun _ _ => rfl) _ 14).1

/-- After `initialize_exceptions` the processor finds the stub of every exception, and no other gate that
is present. -/
theorem initializeExceptions_gate (idt : U64) (stubs : ℕ → U64) {m : Mem}
    (zeroed : ∀ x, Mem.InRange idt 4096 x → m x = 0) (vector : U8) :
    (initializeExceptions idt stubs m).1.gate (initializeExceptions idt stubs m).2 vector =
      some (if vector.toNat < 32 then gateFor (stubs vector.toNat) 0x8E else Gate.zero) := by
  have inside : 16 * vector.toNat + 15 ≤ (4095#16).toNat := by bv_omega
  have calls : (List.range 32).filter (BitVec.ofNat 8 · = vector) =
      if vector.toNat < 32 then [vector.toNat] else [] := by
    have same : ∀ i ∈ List.range 32, decide (BitVec.ofNat 8 i = vector) = (i == vector.toNat) := by
      intro i hi
      have small := List.mem_range.1 hi
      rw [Bool.eq_iff_iff, decide_eq_true_iff, beq_iff_eq]
      bv_omega
    rw [List.filter_congr same, List.filter_beq, List.nodup_range.count]
    simp only [List.mem_range]
    split_ifs <;> rfl
  have table := Stores.foldl_update (idtGates idt) (BitVec.ofNat 8) (fun i => gateFor (stubs i) 0x8E)
    (fun m i => idtGates_set idt _ (stubs i) 0x8E m) m (List.range 32) vector
  rw [calls, idtGates_zeroed zeroed] at table
  refine (if_pos inside).trans (congrArg some (table.trans ?_))
  split_ifs <;> rfl

theorem initializeExceptions_of_not_inRange {idt x : U64} (outside : ¬ Mem.InRange idt 4096 x)
    (stubs : ℕ → U64) (m : Mem) : (initializeExceptions idt stubs m).2 x = m x := by
  rw [initializeExceptions]
  induction List.range 32 generalizing m with
  | nil => rfl
  | cons i l ih =>
    rw [List.foldl_cons, ih]
    exact idtSetDescriptor_of_not_inRange outside _ _ _ m

end Bintos
