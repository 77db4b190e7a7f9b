import Bintos.Int.Source
import Bintos.Log.Ports

/-!
# The exception handler (`int/interrupts.c`, `int/page_fault.c`)

`exception_handler` invokes the handler of the vector or reports that there is none, acknowledges an
external interrupt, and halts.  It never returns to its stub (`run_exceptionHandler`).
-/

namespace Bintos

/-- `PIC0_CTRL` -/
def pic0Ctrl : U16 := 0x20
/-- `PIC1_CTRL` -/
def pic1Ctrl : U16 := 0xA0
/-- `PAGEFAULT` -/
def pagefault : ℕ := 0xE

/-- A callback for an interrupt; it is given what is in CR2. -/
abbrev Handler := Outside → U64 → IntrFrame → PortM Unit

/-- `handlers` -/
abbrev Handlers := List (Option Handler)

/-- `handlers` as it is at first -/
def noHandlers : Handlers := List.replicate 256 none

def pageFaultLine (cr2 : U64) : LogCall where
  level := .debug
  format := ⟨ascii "Page fault on 0x%lx\n", by decide⟩
  args := .ofWords [cr2]

/-- `page_fault` -/
def pageFaultHandler : Handler := fun o cr2 _ => logfPorts o (pageFaultLine cr2)

/-- What `initialize_exceptions` assigns to `handlers`. -/
def registerHandlers (handlers : Handlers) : Handlers :=
  handlers.set pagefault (some pageFaultHandler)

/-- `pic_eoi_ack` -/
def picEoiAck (o : Outside) (irq : U32) : PortM Unit := do
  chassertPorts o (!irq.slt 0x20 && irq.slt 0x30) ⟨ascii "irq >= 0x20 && irq < 0x30", by decide⟩
    (ascii "int/interrupts.c") 88
  outb pic0Ctrl 0x20
  if !irq.slt 0x28 then outb pic1Ctrl 0x20

/-- The report of an interrupt without handler. -/
def unhandled (vecNo : U64) : LogCall where
  level := .error
  format := ⟨ascii "Received an interrupt/exception for something we have no handler for. Code = %x\n",
    by decide⟩
  args := .ofWords [vecNo]

/-- What `exception_handler` does before it acknowledges an external interrupt. -/
def invokeHandler (o : Outside) (handlers : Handlers) (cr2 : U64) (fr : IntrFrame) : PortM Unit := do
  match handlers[fr.vecNo.toNat]? with
  | none => throw .outside
  | some (some handler) => handler o cr2 fr
  | some none =>
    if fr.vecNo = 0x27 ∨ fr.vecNo = 0x2f then
      -- it can trigger spuriously
      pure ()
    else
      logfPorts o (unhandled fr.vecNo)

/-- `exception_handler`, with the frame that `r15` points to. -/
def exceptionHandler (o : Outside) (handlers : Handlers) (cr2 : U64) (fr : IntrFrame) :
    PortM Unit := do
  let external := decide (0x20 ≤ fr.vecNo ∧ fr.vecNo < 0x30)
  invokeHandler o handlers cr2 fr
  if external then
    picEoiAck o (fr.vecNo.setWidth 32)
  hcf

/-- The accesses that acknowledge the interrupt of a vector, the last one first. -/
def acknowledgement (vecNo : U64) : List Io :=
  if 0x28 ≤ vecNo ∧ vecNo < 0x30 then [.outb pic1Ctrl 0x20, .outb pic0Ctrl 0x20]
  else if 0x20 ≤ vecNo ∧ vecNo < 0x30 then [.outb pic0Ctrl 0x20]
  else []

section Run

variable {o : Outside} {handlers : Handlers} {cr2 : U64} {fr : IntrFrame} {h h' : List Io}

/-- Numbers that are not negative compare as they do without sign. -/
theorem slt_eq_decide {a b : U32} (ha : 2 * a.toNat < 2 ^ 32) (hb : 2 * b.toNat < 2 ^ 32) :
    a.slt b = decide (a.toNat < b.toNat) := by
  rw [BitVec.slt, BitVec.toInt_eq_toNat_of_lt ha, BitVec.toInt_eq_toNat_of_lt hb]
  exact decide_eq_decide.2 Int.ofNat_lt

/-- For the vector of an external interrupt the assertion holds. -/
theorem run_picEoiAck (o : Outside) {vecNo : U64} (external : 0x20 ≤ vecNo ∧ vecNo < 0x30)
    (h : List Io) :
    (picEoiAck o (vecNo.setWidth 32)).run h = .ok () (acknowledgement vecNo ++ h) := by
  have small : (vecNo.setWidth 32).toNat = vecNo.toNat := by bv_omega
  have bound : 2 * (vecNo.setWidth 32).toNat < 2 ^ 32 := by bv_omega
  have low : (vecNo.setWidth 32).slt 0x20 = false := by
    rw [slt_eq_decide bound (by decide), small]
    exact decide_eq_false (by bv_omega)
  have high : (vecNo.setWidth 32).slt 0x30 = true := by
    rw [slt_eq_decide bound (by decide), small]
    exact decide_eq_true (by bv_omega)
  rw [picEoiAck, low, high, slt_eq_decide bound (by decide), small, acknowledgement]
  show (if (!decide (vecNo.toNat < 0x28)) = true then outb pic1Ctrl 0x20 else pure ()).run
    (.outb pic0Ctrl 0x20 :: h) = _
  by_cases slave : 0x28 ≤ vecNo
  · rw [decide_eq_false (by bv_omega), if_pos (And.intro slave external.2)]
    rfl
  · have master : ¬ (0x28 ≤ vecNo ∧ vecNo < 0x30) := fun both => slave both.1
    rw [decide_eq_true (by bv_omega), if_neg master, if_pos external]
    rfl

/-- **The handler.**  When the handler of the vector returns, `exception_handler` makes the accesses that
acknowledge the interrupt, if it is an external one, and halts. -/
theorem run_exceptionHandler (o : Outside) (handlers : Handlers) (cr2 : U64) (fr : IntrFrame)
    (h : List Io) :
    (exceptionHandler o handlers cr2 fr).run h =
      match (invokeHandler o handlers cr2 fr).run h with
      | .ok _ h' => .error .halted (acknowledgement fr.vecNo ++ h')
      | .error e h' => .error e h' := by
  rw [exceptionHandler, EStateM.run_bind]
  cases (invokeHandler o handlers cr2 fr).run h with
  | error e h' => rfl
  | ok _ h' =>
    by_cases external : 0x20 ≤ fr.vecNo ∧ fr.vecNo < 0x30
    · simp only [decide_eq_true external, if_true]
      rw [EStateM.run_bind, run_picEoiAck o external]
      rfl
    · have nothing : acknowledgement fr.vecNo = [] := by
        rw [acknowledgement, if_neg, if_neg external]
        rintro ⟨low, high⟩
        exact external ⟨by bv_omega, high⟩
      simp only [decide_eq_false external, nothing]
      rfl

end Run

end Bintos
