import Bintos.Machine

/-!
# The interrupt stubs of `int/istubs.asm`

The stubs as lists of instructions of a processor with sixteen general registers and a memory, and the
frame of `int/interrupts.h` that `exception_handler` reads through `r15`.  The stubs are straight-line
code, so the instruction pointer, like the flags and the segment selectors, only matters at `iretq`.
-/

namespace Bintos

/-- The general registers. -/
inductive Reg where
  | rax | rbx | rcx | rdx | rbp | rsi | rdi | rsp
  | r8 | r9 | r10 | r11 | r12 | r13 | r14 | r15
  deriving DecidableEq, Repr

/-- A processor.  The memory is the one that the stub sees, at virtual addresses. -/
structure Cpu where
  reg : Reg → U64
  mem : Mem
  rip : U64
  cs : BitVec 16
  rflags : U64
  ss : BitVec 16

/-- The instructions of the stubs. -/
inductive Instr where
  | push (r : Reg)
  /-- `push` of a constant of one byte, which is sign-extended to a word -/
  | pushByte (imm : U8)
  | pop (r : Reg)
  | mov (dst src : Reg)
  | add (dst : Reg) (imm : U8)
  /-- `call exception_handler` -/
  | call
  | iretq
  deriving DecidableEq, Repr

namespace Cpu

def setReg (c : Cpu) (r : Reg) (w : U64) : Cpu := { c with reg := Function.update c.reg r w }

def push (c : Cpu) (w : U64) : Cpu :=
  { c.setReg .rsp (c.reg .rsp - 8) with mem := c.mem.writeWord (c.reg .rsp - 8) w }

def pop (c : Cpu) (r : Reg) : Cpu :=
  (c.setReg .rsp (c.reg .rsp + 8)).setReg r (c.mem.readWord (c.reg .rsp))

/-- Return from an interrupt: five words are popped. -/
def iretq (c : Cpu) : Cpu :=
  { c.setReg .rsp (c.mem.readWord (c.reg .rsp + 24)) with
    rip := c.mem.readWord (c.reg .rsp)
    cs := (c.mem.readWord (c.reg .rsp + 8)).setWidth 16
    rflags := c.mem.readWord (c.reg .rsp + 16)
    ss := (c.mem.readWord (c.reg .rsp + 32)).setWidth 16 }

@[simp] theorem setReg_self (c : Cpu) (r : Reg) (w : U64) : (c.setReg r w).reg r = w :=
  Function.update_self ..

theorem setReg_of_ne (c : Cpu) {r q : Reg} (w : U64) (h : q ≠ r) : (c.setReg r w).reg q = c.reg q :=
  Function.update_of_ne h ..

@[simp] theorem setReg_mem (c : Cpu) (r : Reg) (w : U64) : (c.setReg r w).mem = c.mem := rfl

@[simp] theorem push_rsp (c : Cpu) (w : U64) : (c.push w).reg .rsp = c.reg .rsp - 8 := by
  simp [push, setReg]

theorem push_of_ne (c : Cpu) (w : U64) {r : Reg} (h : r ≠ .rsp) : (c.push w).reg r = c.reg r :=
  setReg_of_ne c _ h

@[simp] theorem push_mem (c : Cpu) (w : U64) :
    (c.push w).mem = c.mem.writeWord (c.reg .rsp - 8) w := rfl

@[simp] theorem pop_self (c : Cpu) (r : Reg) : (c.pop r).reg r = c.mem.readWord (c.reg .rsp) :=
  setReg_self ..

theorem pop_rsp (c : Cpu) {r : Reg} (h : .rsp ≠ r) : (c.pop r).reg .rsp = c.reg .rsp + 8 := by
  rw [pop, setReg_of_ne _ _ h, setReg_self]

theorem pop_of_ne (c : Cpu) {r q : Reg} (h : q ≠ r) (general : q ≠ .rsp) :
    (c.pop r).reg q = c.reg q := by
  rw [pop, setReg_of_ne _ _ h, setReg_of_ne _ _ general]

@[simp] theorem pop_mem (c : Cpu) (r : Reg) : (c.pop r).mem = c.mem := rfl

end Cpu

/-- One instruction.  `handler` is what happens from the call of `exception_handler` to the instruction
after it, and `none` when the handler does not return. -/
def Instr.exec (handler : Cpu → Option Cpu) : Instr → Cpu → Option Cpu
  | .push r, c => some (c.push (c.reg r))
  | .pushByte imm, c => some (c.push (imm.signExtend 64))
  | .pop r, c => some (c.pop r)
  | .mov dst src, c => some (c.setReg dst (c.reg src))
  | .add dst imm, c => some (c.setReg dst (c.reg dst + imm.signExtend 64))
  | .call, c => handler c
  | .iretq, c => some c.iretq

/-- A sequence of instructions. -/
def exec (handler : Cpu → Option Cpu) : List Instr → Cpu → Option Cpu
  | [], c => some c
  | i :: code, c => (i.exec handler c).bind (exec handler code)

/-! ## The stubs -/

/-- The registers in the order in which the stubs push them. -/
def savedRegs : List Reg :=
  [.rax, .rbx, .rcx, .rdx, .rbp, .rsi, .rdi, .r8, .r9, .r10, .r11, .r12, .r13, .r14, .r15]

/-- The registers in the order in which the stubs pop them. -/
def restoredRegs : List Reg :=
  [.r15, .r14, .r13, .r12, .r11, .r10, .r9, .r8, .rdi, .rsi, .rbp, .rdx, .rcx, .rbx, .rax]

/-- `exception_err_stub n`, for the vectors where the processor pushes an error code -/
def exceptionErrStub (n : U8) : List Instr :=
  [.pushByte n] ++
  savedRegs.map .push ++
  [.mov .r15 .rsp, .call] ++
  restoredRegs.map .pop ++
  [.add .rsp 8, .iretq]

/-- `exception_no_err_stub n`; the 0 stands in for the error code -/
def exceptionNoErrStub (n : U8) : List Instr :=
  [.pushByte 0, .pushByte n] ++
  savedRegs.map .push ++
  [.mov .r15 .rsp, .call] ++
  restoredRegs.map .pop ++
  [.add .rsp 8, .iretq]

/-- `exception_stub_table` -/
def exceptionStubTable : List (List Instr) :=
  [exceptionNoErrStub 0, exceptionNoErrStub 1, exceptionNoErrStub 2, exceptionNoErrStub 3,
    exceptionNoErrStub 4, exceptionNoErrStub 5, exceptionNoErrStub 6, exceptionNoErrStub 7,
    exceptionErrStub 8, exceptionNoErrStub 9, exceptionErrStub 10, exceptionErrStub 11,
    exceptionErrStub 12, exceptionErrStub 13, exceptionErrStub 14, exceptionNoErrStub 15,
    exceptionNoErrStub 16, exceptionErrStub 17, exceptionNoErrStub 18, exceptionNoErrStub 19,
    exceptionNoErrStub 20, exceptionNoErrStub 21, exceptionNoErrStub 22, exceptionNoErrStub 23,
    exceptionNoErrStub 24, exceptionNoErrStub 25, exceptionNoErrStub 26, exceptionNoErrStub 27,
    exceptionNoErrStub 28, exceptionNoErrStub 29, exceptionErrStub 30, exceptionNoErrStub 31]

/-! ## The frame -/

/-- `intr_frame` -/
structure IntrFrame where
  r15 : U64
  r14 : U64
  r13 : U64
  r12 : U64
  r11 : U64
  r10 : U64
  r9 : U64
  r8 : U64
  rdi : U64
  rsi : U64
  rbp : U64
  rdx : U64
  rcx : U64
  rbx : U64
  rax : U64
  vecNo : U64
  errCode : U64
  rip : U64
  cs : U64
  eflags : U64
  rsp : U64
  ss : U64
  deriving DecidableEq, Repr

/-- The members of an `intr_frame` at the address `p`, each at its offset. -/
def IntrFrame.load (m : Mem) (p : U64) : IntrFrame where
  r15 := m.readWord p
  r14 := m.readWord (p + 8)
  r13 := m.readWord (p + 16)
  r12 := m.readWord (p + 24)
  r11 := m.readWord (p + 32)
  r10 := m.readWord (p + 40)
  r9 := m.readWord (p + 48)
  r8 := m.readWord (p + 56)
  rdi := m.readWord (p + 64)
  rsi := m.readWord (p + 72)
  rbp := m.readWord (p + 80)
  rdx := m.readWord (p + 88)
  rcx := m.readWord (p + 96)
  rbx := m.readWord (p + 104)
  rax := m.readWord (p + 112)
  vecNo := m.readWord (p + 120)
  errCode := m.readWord (p + 128)
  rip := m.readWord (p + 136)
  cs := m.readWord (p + 144)
  eflags := m.readWord (p + 152)
  rsp := m.readWord (p + 160)
  ss := m.readWord (p + 168)

end Bintos
