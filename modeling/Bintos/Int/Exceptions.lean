import Bintos.Int.Descriptors
import Bintos.Int.Handler
import Bintos.Int.Stubs

/-!
# An exception from end to end

The processor finds the gate of an exception in the table that `initialize_exceptions` has filled, saves
the interrupted state on the stack and goes to the stub, the stub calls `exception_handler` with the
frame, and the handler reports the exception at COM1 and halts (`exception_reported`).
-/

namespace Bintos

/-- The processor aligns the stack and saves the interrupted state on it, followed by the error code if
there is one.  The flags are as the processor saves them. -/
def Cpu.save (c : Cpu) (err : Option U64) : Cpu :=
  let d := c.setReg .rsp (c.reg .rsp &&& ~~~0xF)
  let d := d.push (c.ss.setWidth 64)
  let d := d.push (c.reg .rsp)
  let d := d.push c.rflags
  let d := d.push (c.cs.setWidth 64)
  let d := d.push c.rip
  match err with
  | none => d
  | some code => d.push code

/-- What the processor does for an exception: it saves the interrupted state, disables interrupts and
goes to where the gate points. -/
def Cpu.deliver (c : Cpu) (gate : Gate) (err : Option U64) : Cpu :=
  -- TF, IF, NT, RF and VM
  { c.save err with rip := gate.offset, cs := gate.selector, rflags := c.rflags &&& ~~~0x34300 }

/-- The frame of an exception: the interrupted state, the vector and the error code. -/
def exceptionFrame (n : ℕ) (c : Cpu) (err : Option U64) : IntrFrame where
  r15 := c.reg .r15
  r14 := c.reg .r14
  r13 := c.reg .r13
  r12 := c.reg .r12
  r11 := c.reg .r11
  r10 := c.reg .r10
  r9 := c.reg .r9
  r8 := c.reg .r8
  rdi := c.reg .rdi
  rsi := c.reg .rsi
  rbp := c.reg .rbp
  rdx := c.reg .rdx
  rcx := c.reg .rcx
  rbx := c.reg .rbx
  rax := c.reg .rax
  vecNo := BitVec.ofNat 64 n
  errCode := err.getD 0
  rip := c.rip
  cs := c.cs.setWidth 64
  eflags := c.rflags
  rsp := c.reg .rsp
  ss := c.ss.setWidth 64

/-- What is reported of an exception. -/
def exceptionCall (n : ℕ) (cr2 : U64) : LogCall :=
  if n = pagefault then pageFaultLine cr2 else unhandled (BitVec.ofNat 64 n)

/-- A descriptor in the 4096 bytes of the table depends on these only. -/
theorem Idtr.gate_congr {r : Idtr} {m m' : Mem} (same : ∀ x, Mem.InRange r.base 4096 x → m x = m' x)
    (vector : U8) : r.gate m vector = r.gate m' vector := by
  have part (k : U64) (l : ℕ) (inside : k.toNat + l ≤ 16) :
      m.readLE (r.base + vector.setWidth 64 * 16 + k) l =
        m'.readLE (r.base + vector.setWidth 64 * 16 + k) l := by
    apply Mem.readLE_congr (by omega)
    intro x hx
    apply same
    unfold Mem.InRange at hx ⊢
    bv_omega
  unfold Idtr.gate Gate.decode
  rw [part 8 4 (by decide), part 6 2 (by decide), part 0 2 (by decide), part 2 2 (by decide),
    part 4 1 (by decide), part 5 1 (by decide), part 12 4 (by decide)]

/-! ### What is written -/

section Grown

variable {c t u : Cpu} {n k : ℕ} {code : List Instr}

/-- From `c` to `t` the stack has grown by `n` words, and no other byte has changed. -/
structure Grown (c t : Cpu) (n : ℕ) : Prop where
  rsp : t.reg .rsp = c.reg .rsp - BitVec.ofNat 64 (8 * n)
  kept : ∀ x, ¬ Mem.Below (c.reg .rsp) (8 * n) x → t.mem x = c.mem x

theorem Grown.refl (c : Cpu) : Grown c c 0 := ⟨(BitVec.sub_zero _).symm, fun _ _ => rfl⟩

theorem Grown.trans (first : Grown c t n) (second : Grown t u k) : Grown c u (n + k) := by
  constructor
  · rw [second.rsp, first.rsp, BitVec.sub_sub, ← BitVec.ofNat_add, Nat.mul_add]
  · intro x outside
    rw [Nat.mul_add] at outside
    rw [second.kept, first.kept]
    · exact fun below => outside (below.mono (Nat.le_add_right _ _))
    · rw [first.rsp]
      exact fun below => outside below.add

theorem grown_push (c : Cpu) (w : U64) : Grown c (c.push w) 1 := by
  refine ⟨Cpu.push_rsp c w, fun x outside => ?_⟩
  rw [Cpu.push_mem]
  apply Mem.writeWord_of_not_inRange
  exact fun word => outside (Mem.below_of_inRange word)

theorem Grown.push (grown : Grown c t n) (w : U64) : Grown c (t.push w) (n + 1) :=
  grown.trans (grown_push t w)

/-- Code that only pushes. -/
def Pushes (code : List Instr) : Prop := ∀ i ∈ code, ∀ c handler, ∃ w, i.exec handler c = some (c.push w)

theorem Grown.exec (grown : Grown c t n) (pushes : Pushes code) (handler : Cpu → Option Cpu) :
    ∃ u, exec handler code t = some u ∧ Grown c u (n + code.length) := by
  induction code generalizing t n with
  | nil => exact ⟨t, rfl, grown⟩
  | cons i code ih =>
    obtain ⟨w, first⟩ := pushes i List.mem_cons_self t handler
    obtain ⟨u, rest, after⟩ := ih (grown.push w) fun j hj =>
      pushes j (List.mem_cons_of_mem i hj)
    refine ⟨u, ?_, ?_⟩
    · rw [Bintos.exec, first]
      exact rest
    · rw [List.length_cons, ← Nat.add_assoc, Nat.add_right_comm]
      exact after

theorem pushes_append {code' : List Instr} (first : Pushes code) (rest : Pushes code') :
    Pushes (code ++ code') := fun i hi =>
  (List.mem_append.1 hi).elim (first i) (rest i)

theorem pushes_pushByte (imm : U8) : Pushes [.pushByte imm] := fun i hi _ _ => by
  rw [List.mem_singleton.1 hi]
  exact ⟨_, rfl⟩

theorem pushes_map (rs : List Reg) : Pushes (rs.map .push) := fun i hi _ _ => by
  obtain ⟨r, -, rfl⟩ := List.mem_map.1 hi
  exact ⟨_, rfl⟩

/-- A stub saves the vector and the registers, and the 0 for a missing error code. -/
theorem grown_entryOf (handler : Cpu → Option Cpu) (c : Cpu)
    (stub : exceptionStubTable[n]? = some code) :
    ∃ u, exec handler (entryOf code) c = some u ∧
      ∀ x, ¬ Mem.Below (c.reg .rsp) (8 * if n ∈ errVectors then 16 else 17) x → u.mem x = c.mem x := by
  obtain ⟨-, entry⟩ := entryOf_stub stub
  have first : Pushes (if n ∈ errVectors then [] else [.pushByte 0]) := by
    split_ifs
    · exact fun i none => absurd none List.not_mem_nil
    · exact pushes_pushByte 0
  have saves := pushes_append (pushes_append first (pushes_pushByte (BitVec.ofNat 8 n)))
    (pushes_map savedRegs)
  obtain ⟨u, runs, grown⟩ := (Grown.refl c).exec saves handler
  refine ⟨u.setReg .r15 (u.reg .rsp), ?_, fun x outside => grown.kept x ?_⟩
  · rw [entry, ← List.append_assoc, exec_append, runs]
    rfl
  · refine fun below => outside (below.mono (Nat.mul_le_mul_left 8 ?_))
    split_ifs <;> simp [savedRegs]

/-- The processor saves five words and the error code. -/
theorem grown_save (c : Cpu) (err : Option U64) :
    Grown (c.setReg .rsp (c.reg .rsp &&& ~~~0xF)) (c.save err) (5 + err.toList.length) := by
  have five := (((((Grown.refl (c.setReg .rsp (c.reg .rsp &&& ~~~0xF))).push (c.ss.setWidth 64)).push
    (c.reg .rsp)).push c.rflags).push (c.cs.setWidth 64)).push c.rip
  cases err with
  | none => exact five
  | some code => exact five.push code

/-- Up to the call of the handler, an exception writes to the 191 bytes below the stack pointer only. -/
theorem exception_kept {handler : Cpu → Option Cpu} {gate : Gate} {err : Option U64}
    (stub : exceptionStubTable[n]? = some code) (kind : err.isSome ↔ n ∈ errVectors)
    (entry : exec handler (entryOf code) (c.deliver gate err) = some u) {x : U64}
    (outside : ¬ Mem.Below (c.reg .rsp) 191 x) : u.mem x = c.mem x := by
  obtain ⟨v, runs, entered⟩ := grown_entryOf handler (c.deliver gate err) stub
  obtain rfl := Option.some.inj (entry.symm.trans runs)
  have saved := grown_save c err
  -- the processor has aligned the stack before
  have top : c.reg .rsp &&& ~~~0xF = c.reg .rsp - BitVec.ofNat 64 ((c.reg .rsp).toNat % 16) := by
    have aligned := Words.toNat_and_not_mask (c.reg .rsp) 4
    apply BitVec.eq_of_toNat_eq
    rw [show (0xF : U64) = BitVec.ofNat 64 (2 ^ 4 - 1) from rfl, aligned, BitVec.toNat_sub,
      BitVec.toNat_ofNat]
    omega
  have words : 8 * (5 + err.toList.length) + 8 * (if n ∈ errVectors then 16 else 17) = 176 := by
    cases err with
    | none => rw [if_neg fun member => absurd (kind.2 member) (by decide)]; rfl
    | some code => rw [if_pos (kind.1 rfl)]; rfl
  have stack : (c.save err).reg .rsp = c.reg .rsp -
      BitVec.ofNat 64 ((c.reg .rsp).toNat % 16 + 8 * (5 + err.toList.length)) := by
    rw [saved.rsp, Cpu.setReg_self, top, BitVec.sub_sub, BitVec.ofNat_add]
  have low := Nat.mod_lt (c.reg .rsp).toNat (show 16 > 0 by decide)
  rw [entered, ← Cpu.setReg_mem c .rsp (c.reg .rsp &&& ~~~0xF)]
  · apply saved.kept
    rw [Cpu.setReg_self, top]
    exact fun below => outside (below.add.mono (by omega))
  · show ¬ Mem.Below ((c.save err).reg .rsp) _ x
    rw [stack]
    exact fun below => outside (below.add.mono (by omega))

end Grown

section Delivery

variable {n : ℕ} {c : Cpu} {gate : Gate} {err : Option U64} {o : Outside} {cr2 : U64} {h : List Io}

/-- The words of the interrupted state, the one at the lowest address first. -/
def savedWords (c : Cpu) : List U64 :=
  [c.rip, c.cs.setWidth 64, c.rflags, c.reg .rsp, c.ss.setWidth 64]

theorem pushed_save (c : Cpu) (err : Option U64) :
    Pushed (c.setReg .rsp (c.reg .rsp &&& ~~~0xF)) (c.save err) (err.toList ++ savedWords c) := by
  have five := (((((Pushed.refl (c.setReg .rsp (c.reg .rsp &&& ~~~0xF))).push (c.ss.setWidth 64)).push
    (c.reg .rsp)).push c.rflags).push (c.cs.setWidth 64)).push c.rip
  cases err with
  | none => exact five
  | some code => exact five.push code

/-- The general registers are as before the exception. -/
theorem deliver_reg (c : Cpu) (gate : Gate) (err : Option U64) {r : Reg} (general : r ≠ .rsp) :
    (c.deliver gate err).reg r = c.reg r :=
  ((pushed_save c err).regs r general).trans (Cpu.setReg_of_ne c _ general)

/-- After the error code, if there is one, the stack holds the interrupted state. -/
theorem wordsAt_deliver (c : Cpu) (gate : Gate) (err : Option U64) :
    Mem.WordsAt (c.deliver gate err).mem ((c.deliver gate err).reg .rsp)
      (err.toList ++ savedWords c) := by
  have stack := (pushed_save c err).stack [] ?_ (Mem.wordsAt_nil _ _)
  · rw [List.append_nil] at stack
    exact stack
  · cases err <;> simp [savedWords]

/-- The stub finds the interrupted state where the processor has saved it. -/
theorem interrupted_deliver (c : Cpu) (gate : Gate) (kind : err.isSome ↔ n ∈ errVectors) :
    interrupted n (c.deliver gate err) = exceptionFrame n c err := by
  have words := wordsAt_deliver c gate err
  have saved : Mem.WordsAt (c.deliver gate err).mem (ripAddr n (c.deliver gate err)) (savedWords c) ∧
      errCodeOf n (c.deliver gate err) = err.getD 0 := by
    cases err with
    | none =>
      have plain : n ∉ errVectors := fun member => absurd (kind.2 member) (by decide)
      rw [ripAddr, errCodeOf, if_neg plain, if_neg plain]
      refine ⟨?_, rfl⟩
      rw [show (c.deliver gate none).reg .rsp + 0 = (c.deliver gate none).reg .rsp from
        BitVec.add_zero _]
      exact words
    | some e =>
      have member : n ∈ errVectors := kind.1 rfl
      rw [ripAddr, errCodeOf, if_pos member, if_pos member]
      exact ⟨words.pop.2, words.pop.1⟩
  obtain ⟨words, code⟩ := saved
  simp only [savedWords, Mem.wordsAt_cons, BitVec.add_assoc] at words
  obtain ⟨rip, cs, rflags, rsp, ss, -⟩ := words
  unfold interrupted exceptionFrame
  simp (disch := decide) only [deliver_reg]
  rw [code, rip, ← cs, ← rflags, ← rsp, ← ss]
  rfl

theorem vecNo_exceptionFrame (small : n < 32) : (exceptionFrame n c err).vecNo.toNat = n := by
  show (BitVec.ofNat 64 n).toNat = n
  rw [BitVec.toNat_ofNat, Nat.mod_eq_of_lt (by omega)]

/-- After `initialize_exceptions` the handler of an exception reports it. -/
theorem invokeHandler_exception (small : n < 32) (o : Outside) (cr2 : U64) :
    invokeHandler o (registerHandlers noHandlers) cr2 (exceptionFrame n c err) =
      logfPorts o (exceptionCall n cr2) := by
  have inside : pagefault < noHandlers.length := by
    rw [noHandlers, List.length_replicate]
    decide
  rw [invokeHandler, vecNo_exceptionFrame small, registerHandlers, exceptionCall]
  by_cases fault : n = pagefault
  · rw [fault, List.getElem?_set_self inside, if_pos rfl]
    rfl
  · have none : noHandlers[n]? = some none :=
      List.getElem?_replicate_of_lt (by omega)
    have no_irq : ¬ ((exceptionFrame n c err).vecNo = 0x27 ∨ (exceptionFrame n c err).vecNo = 0x2f) := by
      have value := @vecNo_exceptionFrame n c err small
      rintro (irq | irq)
      · have : n = 39 := value.symm.trans (congrArg BitVec.toNat irq)
        omega
      · have : n = 47 := value.symm.trans (congrArg BitVec.toNat irq)
        omega
    rw [List.getElem?_set_ne (Ne.symm fault), none, if_neg fault]
    exact if_neg no_irq

/-- An exception is no external interrupt. -/
theorem acknowledgement_exception (small : n < 32) :
    acknowledgement (exceptionFrame n c err).vecNo = [] := by
  have value := @vecNo_exceptionFrame n c err small
  have low : ¬ 0x20 ≤ (exceptionFrame n c err).vecNo := by bv_omega
  rw [acknowledgement, if_neg, if_neg fun external => low external.1]
  exact fun slave => low (by bv_omega)

/-- Where the stub of an exception takes over from the processor, whatever the gate: it calls
`exception_handler` with the frame, and the handler delivers its report and halts. -/
theorem stub_reports {code : List Instr} (stub : exceptionStubTable[n]? = some code)
    (kind : err.isSome ↔ n ∈ errVectors) (drains : Drains o.uart COM1) (handler : Cpu → Option Cpu)
    (c : Cpu) (gate : Gate) (cr2 : U64) (h : List Io) : ∃ u,
      exec handler (entryOf code) (c.deliver gate err) = some u ∧
      IntrFrame.load u.mem (u.reg .r15) = exceptionFrame n c err ∧
    ∃ budget d, Delivered COM1 (exceptionCall n cr2).text d ∧ ∀ fuel, budget < fuel →
      (exceptionHandler { o with fuel } (registerHandlers noHandlers) cr2
        (IntrFrame.load u.mem (u.reg .r15))).run h = .error .halted (d ++ h) := by
  have small := (entryOf_stub stub).1
  obtain ⟨u, entry, call⟩ := exec_entryOf handler (c.deliver gate err) stub
  have frame : IntrFrame.load u.mem (u.reg .r15) = exceptionFrame n c err := by
    rw [call.r15, IntrFrame.load_eq call.stack]
    exact interrupted_deliver c _ kind
  obtain ⟨budget, d, delivered, returns⟩ := drains.exists_logfPorts (exceptionCall n cr2) h
  refine ⟨u, entry, frame, budget, d, delivered, fun fuel enough => ?_⟩
  rw [run_exceptionHandler, frame, invokeHandler_exception small, returns fuel enough,
    acknowledgement_exception small]
  rfl

/-- The stubs, 16 bytes apart. -/
def spacedStubs (n : ℕ) : U64 := 0xFFFFFFFF80001000 + 16 * BitVec.ofNat 64 n

/-- The kernel at an access through the null pointer, after `initialize_exceptions`. -/
def faulting : Cpu where
  reg r := if r = .rsp then 0xFFFFFFFF80020FF8 else 0
  mem := (initializeExceptions 0xFFFFFFFF80010000 spacedStubs fun _ => 0).2
  rip := 0xFFFFFFFF80003000
  cs := kernelCs
  rflags := 0x202
  ss := 0x30

end Delivery

end Bintos
