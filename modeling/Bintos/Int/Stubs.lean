import Bintos.Int.Source
import Bintos.Lib.Stack

/-!
# What the interrupt stubs do

Up to its call of the handler a stub only pushes, so at the call the stack holds the saved registers,
the vector, the error code and what the processor has pushed, which is the `intr_frame` that the handler
reads through `r15` (`handler_reads_frame`).  After the call the stubs pop the registers again, but of
the two words below the processor's own they only drop one, so `iretq` takes the error code for the
instruction pointer (`stub_never_resumes`).
-/

namespace Bintos

/-- The part of a stub up to its call. -/
def entryOf (code : List Instr) : List Instr := code.takeWhile (· ≠ .call)

/-- The part of a stub from its call to its `iretq`. -/
def exitOf (code : List Instr) : List Instr :=
  ((code.dropWhile (· ≠ .call)).drop 1).takeWhile (· ≠ .iretq)

/-- The vectors whose stub is an `exception_err_stub`. -/
def errVectors : List ℕ := [8, 10, 11, 12, 13, 14, 17, 30]

/-- Where the processor has pushed the interrupted `rip`, when the stub of vector `n` starts. -/
def ripAddr (n : ℕ) (c : Cpu) : U64 := c.reg .rsp + if n ∈ errVectors then 8 else 0

/-- The error code of the processor, or the 0 in its place. -/
def errCodeOf (n : ℕ) (c : Cpu) : U64 :=
  if n ∈ errVectors then c.mem.readWord (c.reg .rsp) else 0

/-- The frame of an interrupt: the registers as they are when the stub starts, the vector, and what the
processor has pushed. -/
def interrupted (n : ℕ) (c : Cpu) : IntrFrame where
  r15 := c.reg .r15
  r14 := c.reg .r14
  r13 := c.reg .r13
  r12 := c.reg .r12
  r11 := c.reg .r11
  r10 := c.reg .r10
  r9 := c.reg .r9
  r8 := c.reg .r8
  rdi := c.reg .rdi
  rsi := c.reg .rsi
  rbp := c.reg .rbp
  rdx := c.reg .rdx
  rcx := c.reg .rcx
  rbx := c.reg .rbx
  rax := c.reg .rax
  vecNo := BitVec.ofNat 64 n
  errCode := errCodeOf n c
  rip := c.mem.readWord (ripAddr n c)
  cs := c.mem.readWord (ripAddr n c + 8)
  eflags := c.mem.readWord (ripAddr n c + 16)
  rsp := c.mem.readWord (ripAddr n c + 24)
  ss := c.mem.readWord (ripAddr n c + 32)

/-- Every vector has the stub of its kind. -/
theorem stub_of_vector : ∀ n < 32, exceptionStubTable[n]? =
    some (if n ∈ errVectors then exceptionErrStub (BitVec.ofNat 8 n)
      else exceptionNoErrStub (BitVec.ofNat 8 n)) := by decide

section Exec

variable {handler : Cpu → Option Cpu} {c t : Cpu} {ws : List U64}

theorem exec_append (code code' : List Instr) (c : Cpu) :
    exec handler (code ++ code') c = (exec handler code c).bind (exec handler code') := by
  induction code generalizing c with
  | nil => rfl
  | cons i code ih =>
    rw [List.cons_append, exec, exec, Option.bind_assoc]
    congr 1
    funext d
    exact ih d

/-! ### Pushes -/

/-- `t` is `c` after the words `ws` are pushed, the last one first. -/
structure Pushed (c t : Cpu) (ws : List U64) : Prop where
  regs : ∀ r ≠ .rsp, t.reg r = c.reg r
  rsp : t.reg .rsp = c.reg .rsp - BitVec.ofNat 64 (8 * ws.length)
  stack : ∀ below, ws.length + below.length < 2 ^ 61 → Mem.WordsAt c.mem (c.reg .rsp) below →
    Mem.WordsAt t.mem (t.reg .rsp) (ws ++ below)

theorem Pushed.refl (c : Cpu) : Pushed c c [] :=
  ⟨fun _ _ => rfl, (BitVec.sub_zero _).symm, fun _ _ words => words⟩

theorem Pushed.push (pushed : Pushed c t ws) (w : U64) : Pushed c (t.push w) (w :: ws) := by
  refine ⟨fun r hr => ?_, ?_, fun below room words => ?_⟩
  · rw [Cpu.push_of_ne t w hr, pushed.regs r hr]
  · rw [Cpu.push_rsp, pushed.rsp, List.length_cons]
    bv_omega
  · rw [List.length_cons] at room
    have before := pushed.stack below (by omega) words
    rw [Cpu.push_rsp, Cpu.push_mem]
    exact before.push w (by rw [List.length_append]; omega)

/-- A block of pushes. -/
theorem Pushed.exec_pushes (handler : Cpu → Option Cpu) (pushed : Pushed c t ws) {rs : List Reg} (general : .rsp ∉ rs) :
    ∃ u, exec handler (rs.map .push) t = some u ∧
      Pushed c u ((rs.map c.reg).reverse ++ ws) := by
  induction rs generalizing t ws with
  | nil => exact ⟨t, rfl, pushed⟩
  | cons r rs ih =>
    rw [List.mem_cons, not_or] at general
    have next := pushed.push (c.reg r)
    rw [← pushed.regs r (Ne.symm general.1)] at next
    obtain ⟨u, runs, after⟩ := ih next general.2
    refine ⟨u, runs, ?_⟩
    rw [pushed.regs r (Ne.symm general.1)] at after
    rw [List.map_cons, List.reverse_cons, List.append_assoc]
    exact after

/-! ### Pops -/

/-- `t` is `c` after the registers `rs` have got the values `f` from the stack, with `ws` left on it. -/
structure Popped (c t : Cpu) (rs : List Reg) (f : Reg → U64) (ws : List U64) : Prop where
  rsp : t.reg .rsp = c.reg .rsp + BitVec.ofNat 64 (8 * rs.length)
  restored : ∀ r ∈ rs, t.reg r = f r
  kept : ∀ r ∉ rs, r ≠ .rsp → t.reg r = c.reg r
  stack : Mem.WordsAt t.mem (t.reg .rsp) ws

/-- A block of pops into different registers. -/
theorem exec_pops (handler : Cpu → Option Cpu) {rs : List Reg} (distinct : rs.Nodup) (general : .rsp ∉ rs) (f : Reg → U64)
    (stack : Mem.WordsAt c.mem (c.reg .rsp) (rs.map f ++ ws)) :
    ∃ t, exec handler (rs.map .pop) c = some t ∧ Popped c t rs f ws := by
  induction rs generalizing c with
  | nil => exact ⟨c, rfl, (BitVec.add_zero _).symm, by simp, fun _ _ _ => rfl, stack⟩
  | cons r rs ih =>
    rw [List.mem_cons, not_or] at general
    rw [List.nodup_cons] at distinct
    rw [List.map_cons, List.cons_append] at stack
    have top := stack.pop
    have rsp := Cpu.pop_rsp c general.1
    obtain ⟨t, runs, rest⟩ := ih distinct.2 general.2 (c := c.pop r) (by rw [rsp]; exact top.2)
    refine ⟨t, runs, ?_, fun q hq => ?_, fun q hq hr => ?_, rest.stack⟩
    · rw [rest.rsp, rsp, List.length_cons]
      bv_omega
    · rcases List.mem_cons.1 hq with rfl | later
      · rw [rest.kept q distinct.1 (Ne.symm general.1), Cpu.pop_self, top.1]
      · exact rest.restored q later
    · rw [List.mem_cons, not_or] at hq
      rw [rest.kept q hq.2 hr, Cpu.pop_of_ne c hq.1 hr]

end Exec

/-! ### Up to the call -/

section Frame

variable {handler : Cpu → Option Cpu} {n : ℕ} {code : List Instr} {c : Cpu} {top : U64}

/-- The members of a frame in the order of the struct. -/
def IntrFrame.words (f : IntrFrame) : List U64 :=
  [f.r15, f.r14, f.r13, f.r12, f.r11, f.r10, f.r9, f.r8, f.rdi, f.rsi, f.rbp, f.rdx, f.rcx, f.rbx,
    f.rax, f.vecNo, f.errCode, f.rip, f.cs, f.eflags, f.rsp, f.ss]

/-- Words in the order of the struct are read as the frame. -/
theorem IntrFrame.load_eq {f : IntrFrame} {m : Mem} {p : U64} (words : Mem.WordsAt m p f.words) :
    IntrFrame.load m p = f := by
  cases f
  simpa [IntrFrame.load, IntrFrame.words, Mem.wordsAt_cons, BitVec.add_assoc] using words

theorem words_interrupted (n : ℕ) (c : Cpu) : (interrupted n c).words =
    restoredRegs.map c.reg ++
      (BitVec.ofNat 64 n :: errCodeOf n c :: c.mem.readWords (ripAddr n c) 5) := by
  simp [IntrFrame.words, interrupted, restoredRegs, Mem.readWords, List.range_succ]

/-- At the call the stack holds the frame, and `r15` is its top. -/
structure AtCall (n : ℕ) (c u : Cpu) : Prop where
  r15 : u.reg .r15 = u.reg .rsp
  rsp : u.reg .rsp = ripAddr n c - 136
  stack : Mem.WordsAt u.mem (u.reg .rsp) (interrupted n c).words

theorem signExtend_vector :
    ∀ n < 32, (BitVec.ofNat 8 n).signExtend 64 = BitVec.ofNat 64 n := by decide

/-- Before the registers are saved, both stubs have the vector and the error code on the stack. -/
theorem exec_vector (handler : Cpu → Option Cpu) (c : Cpu) (hn : n < 32) :
    ∃ t, exec handler ((if n ∈ errVectors then [] else [.pushByte 0]) ++
        [.pushByte (BitVec.ofNat 8 n)]) c = some t ∧
      (∀ r ≠ .rsp, t.reg r = c.reg r) ∧ t.reg .rsp = ripAddr n c - 16 ∧
      Mem.WordsAt t.mem (t.reg .rsp)
        (BitVec.ofNat 64 n :: errCodeOf n c :: c.mem.readWords (ripAddr n c) 5) := by
  have words := Mem.wordsAt_readWords c.mem (ripAddr n c) 5
  by_cases err : n ∈ errVectors
  · -- the error code of the processor is on the stack
    have rip : ripAddr n c = c.reg .rsp + 8 := by rw [ripAddr, if_pos err]
    have pushed := (Pushed.refl c).push (BitVec.ofNat 64 n)
    rw [if_pos err, errCodeOf, if_pos err]
    refine ⟨c.push (BitVec.ofNat 64 n), ?_, pushed.regs, ?_, ?_⟩
    · rw [← signExtend_vector n hn]
      rfl
    · rw [Cpu.push_rsp, rip]
      bv_omega
    · rw [rip] at words ⊢
      exact pushed.stack _ (by simp [Mem.readWords]) (words.cons (by simp [Mem.readWords]))
  · have rip : ripAddr n c = c.reg .rsp := by
      rw [ripAddr, if_neg err]
      exact BitVec.add_zero _
    have pushed := ((Pushed.refl c).push 0).push (BitVec.ofNat 64 n)
    rw [if_neg err, errCodeOf, if_neg err]
    refine ⟨(c.push 0).push (BitVec.ofNat 64 n), ?_, pushed.regs, ?_, ?_⟩
    · rw [← signExtend_vector n hn]
      rfl
    · rw [Cpu.push_rsp, Cpu.push_rsp, rip]
      bv_omega
    · rw [rip] at words ⊢
      exact pushed.stack _ (by simp) words

theorem entryOf_stub (stub : exceptionStubTable[n]? = some code) :
    n < 32 ∧ entryOf code = ((if n ∈ errVectors then [] else [.pushByte 0]) ++
      [.pushByte (BitVec.ofNat 8 n)]) ++ (savedRegs.map .push ++ [.mov .r15 .rsp]) := by
  have hn : n < 32 := (List.getElem?_eq_some_iff.1 stub).1
  rw [stub_of_vector n hn, Option.some_inj] at stub
  refine ⟨hn, ?_⟩
  rw [← stub]
  split_ifs <;> rfl

theorem exitOf_stub (stub : exceptionStubTable[n]? = some code) :
    exitOf code = restoredRegs.map .pop ++ [.add .rsp 8] := by
  have hn : n < 32 := (List.getElem?_eq_some_iff.1 stub).1
  rw [stub_of_vector n hn, Option.some_inj] at stub
  rw [← stub]
  split_ifs <;> rfl

/-- The stub of a vector reaches its call. -/
theorem exec_entryOf (handler : Cpu → Option Cpu) (c : Cpu)
    (stub : exceptionStubTable[n]? = some code) :
    ∃ u, exec handler (entryOf code) c = some u ∧ AtCall n c u := by
  obtain ⟨hn, entry⟩ := entryOf_stub stub
  obtain ⟨t, vector, regs, rsp, stack⟩ := exec_vector handler c hn
  obtain ⟨s, saves, pushed⟩ := (Pushed.refl t).exec_pushes handler
    (show .rsp ∉ savedRegs by decide)
  have values : (savedRegs.map t.reg).reverse = restoredRegs.map c.reg := by
    rw [← List.map_reverse]
    refine List.map_congr_left fun r hr => regs r ?_
    rintro rfl
    exact absurd hr (by decide)
  rw [List.append_nil, values] at pushed
  refine ⟨s.setReg .r15 (s.reg .rsp), ?_, ?_, ?_, ?_⟩
  · rw [entry, exec_append, vector, Option.bind_some, exec_append, saves]
    rfl
  · rw [Cpu.setReg_self, Cpu.setReg_of_ne _ _ (by decide)]
  · rw [Cpu.setReg_of_ne _ _ (by decide), pushed.rsp, rsp]
    show ripAddr n c - 16 - BitVec.ofNat 64 (8 * 15) = _
    bv_omega
  · rw [Cpu.setReg_of_ne _ _ (by decide), Cpu.setReg_mem, words_interrupted]
    exact pushed.stack _ (by simp [Mem.readWords, restoredRegs]) stack

/-- **The frame.**  When the stub of a vector calls the handler, the `intr_frame` at the address in
`r15` holds the vector, the interrupted registers, the error code and the words of the processor, and
the stack pointer is aligned. -/
theorem handler_reads_frame (stub : exceptionStubTable[n]? = some code)
    (aligned : top.toNat % 16 = 0) (placed : ripAddr n c = top - 40) :
    ∃ u, exec handler (entryOf code) c = some u ∧
      IntrFrame.load u.mem (u.reg .r15) = interrupted n c ∧ (u.reg .rsp).toNat % 16 = 0 := by
  obtain ⟨u, entry, r15, rsp, stack⟩ := exec_entryOf handler c stub
  refine ⟨u, entry, ?_, ?_⟩
  · rw [r15]
    exact IntrFrame.load_eq stack
  · rw [rsp, placed]
    bv_omega

/-- A page fault at 0xffffffff80001234 with the error code 2, on a stack whose top is 0x8000. -/
def pageFault : Cpu where
  reg r := if r = .rsp then 0x7fd0 else 0
  mem := (Mem.writeWord (fun _ => 0) 0x7fd8 0xffffffff80001234).writeWord 0x7fd0 2
  rip := 0
  cs := 0
  rflags := 0
  ss := 0

theorem pageFault_reads_frame : ∃ u,
    exec (fun _ => none) (entryOf (exceptionErrStub 14)) pageFault = some u ∧
      IntrFrame.load u.mem (u.reg .r15) = interrupted 14 pageFault ∧
      (u.reg .rsp).toNat % 16 = 0 :=
  handler_reads_frame (show exceptionStubTable[14]? = _ by decide) (show (0x8000#64).toNat % 16 = 0 by
    decide) (by decide)

/-! ### After the call -/

/-- The handler has returned from `u` to `v` with the stack pointer as at the call and the saved frame
unmodified. -/
structure Returned (u v : Cpu) : Prop where
  rsp : v.reg .rsp = u.reg .rsp
  frame : ∀ x, Mem.InRange (u.reg .rsp) 176 x → v.mem x = u.mem x

/-- At the `iretq` in `t` the stub has undone what it did to `c`, and the interrupted code goes on. -/
structure Resumes (n : ℕ) (c t : Cpu) : Prop where
  registers : ∀ r ∈ savedRegs, t.reg r = c.reg r
  rsp : t.reg .rsp = ripAddr n c
  rip : t.iretq.rip = (interrupted n c).rip
  cs : t.iretq.cs = (interrupted n c).cs.setWidth 16
  rflags : t.iretq.rflags = (interrupted n c).eflags
  stack : t.iretq.reg .rsp = (interrupted n c).rsp
  ss : t.iretq.ss = (interrupted n c).ss.setWidth 16

/-- What the stubs have done to `c` when they are at their `iretq` in `t`. -/
structure AtReturn (n : ℕ) (c t : Cpu) : Prop where
  registers : ∀ r ∈ savedRegs, t.reg r = c.reg r
  rsp : t.reg .rsp = ripAddr n c - 8
  stack : Mem.WordsAt t.mem (t.reg .rsp) (errCodeOf n c :: c.mem.readWords (ripAddr n c) 5)

/-- The stub of a vector comes from its call to its `iretq`. -/
theorem exec_exitOf (handler : Cpu → Option Cpu) (stub : exceptionStubTable[n]? = some code)
    {u v : Cpu} (called : AtCall n c u) (kept : Returned u v) :
    ∃ t, exec handler (exitOf code) v = some t ∧ AtReturn n c t := by
  have stack : Mem.WordsAt v.mem (v.reg .rsp) (interrupted n c).words := by
    rw [kept.rsp]
    exact called.stack.congr (by simp [IntrFrame.words]) kept.frame
  rw [words_interrupted] at stack
  obtain ⟨t, pops, popped⟩ := exec_pops handler (by decide) (by decide) c.reg stack
  have same : ∀ r ∈ savedRegs, r ∈ restoredRegs := by decide
  have rsp : t.reg .rsp + 8 = ripAddr n c - 8 := by
    rw [popped.rsp, kept.rsp, called.rsp]
    show ripAddr n c - 136 + BitVec.ofNat 64 (8 * 15) + 8 = _
    bv_omega
  refine ⟨t.setReg .rsp (t.reg .rsp + 8), ?_, fun r hr => ?_, ?_, ?_⟩
  · rw [exitOf_stub stub, exec_append, pops]
    rfl
  · rw [Cpu.setReg_of_ne _ _ (ne_of_mem_of_not_mem hr (by decide)),
      popped.restored r (same r hr)]
  · rw [Cpu.setReg_self, rsp]
  · rw [Cpu.setReg_self, Cpu.setReg_mem]
    exact popped.stack.pop.2

theorem stub_split (stub : exceptionStubTable[n]? = some code) :
    code = entryOf code ++ .call :: (exitOf code ++ [.iretq]) := by
  have hn : n < 32 := (List.getElem?_eq_some_iff.1 stub).1
  rw [stub_of_vector n hn, Option.some_inj] at stub
  rw [← stub]
  split_ifs <;> rfl

/-- A run of a stub whose handler returns. -/
theorem exec_stub (stub : exceptionStubTable[n]? = some code) {u v t : Cpu}
    (call : exec handler (entryOf code) c = some u) (returns : handler u = some v)
    (exit : exec handler (exitOf code) v = some t) : exec handler code c = some t.iretq := by
  rw [stub_split stub, exec_append, call, Option.bind_some]
  show (handler u).bind (exec handler (exitOf code ++ [.iretq])) = _
  rw [returns, Option.bind_some, exec_append, exit]
  rfl

/-- **The return.**  When the handler returns, a stub restores the registers, but at its `iretq` the
stack pointer is at the word below the interrupted `rip`, so the interrupted code does not go on. -/
theorem stub_never_resumes (stub : exceptionStubTable[n]? = some code) {u v : Cpu}
    (call : exec handler (entryOf code) c = some u) (returns : handler u = some v)
    (kept : Returned u v) :
    ∃ t, exec handler (exitOf code) v = some t ∧ exec handler code c = some t.iretq ∧
      (∀ r ∈ savedRegs, t.reg r = c.reg r) ∧ ¬ Resumes n c t := by
  obtain ⟨w, entry, called⟩ := exec_entryOf handler c stub
  cases call.symm.trans entry
  obtain ⟨t, exit, back⟩ := exec_exitOf handler stub called kept
  refine ⟨t, exit, exec_stub stub call returns exit, back.registers, fun resumes => ?_⟩
  have rsp := resumes.rsp
  rw [back.rsp] at rsp
  bv_omega

theorem pageFault_never_resumes : ∃ u v t,
    exec some (entryOf (exceptionErrStub 14)) pageFault = some u ∧ Returned u v ∧
      exec some (exitOf (exceptionErrStub 14)) v = some t ∧ ¬ Resumes 14 pageFault t := by
  have stub : exceptionStubTable[14]? = some (exceptionErrStub 14) := by decide
  obtain ⟨u, entry, -⟩ := exec_entryOf some pageFault stub
  obtain ⟨t, exit, -, -, never⟩ := stub_never_resumes stub entry rfl ⟨rfl, fun _ _ => rfl⟩
  exact ⟨u, u, t, entry, ⟨rfl, fun _ _ => rfl⟩, exit, never⟩

/-- With a handler that returns at once, the page fault resumes at its error code. -/
theorem pageFault_resumes_at_error_code : ∃ t, exec some (exceptionErrStub 14) pageFault = some t ∧
    (interrupted 14 pageFault).rip = 0xffffffff80001234 ∧ t.rip = 2 := by
  have stub : exceptionStubTable[14]? = some (exceptionErrStub 14) := by decide
  obtain ⟨u, entry, called⟩ := exec_entryOf some pageFault stub
  obtain ⟨t, exit, back⟩ := exec_exitOf some stub called ⟨rfl, fun _ _ => rfl⟩
  refine ⟨t.iretq, exec_stub stub entry rfl exit, ?_, ?_⟩
  · show Mem.readWord (Mem.writeWord (Mem.writeWord _ 0x7fd8 _) 0x7fd0 2) 0x7fd8 = _
    rw [Mem.readWord_writeWord_of_apart _ _ (by decide) (by decide), Mem.readWord_writeWord]
  · show t.mem.readWord (t.reg .rsp) = 2
    rw [back.stack.pop.1]
    exact Mem.readWord_writeWord _ _ _

end Frame

end Bintos
