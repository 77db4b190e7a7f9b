import Bintos.Log.Conversions
import Bintos.Serial.Line

/-!
# Logging through the ports

The functions of the kernel that log or access ports, with the accesses they make as the state.  When
the status of COM1 becomes ready again and again, every call of `logf` returns and delivers its text.  On a
chip that goes on sending, the texts of all calls come to the line in order (`log_on_line`).
-/

namespace Bintos

/-- Why a computation with ports does not return. -/
inductive PortStop where
  /-- `hcf` -/
  | halted
  /-- The budget of a loop that polls was used up. -/
  | waiting
  /-- An access past the end of an array. -/
  | outside
  deriving DecidableEq, Repr

/-- A computation that accesses ports.  The state lists the accesses, the last one first. -/
abbrev PortM (β : Type) := EStateM PortStop (List Io) β

/-- What the kernel finds outside of its own state. -/
structure Outside where
  uart : Uart
  /-- a bound for the tests of a loop that polls -/
  fuel : ℕ
  /-- what `buffer` of `logf` holds at first -/
  buffer : ℕ → U8
  /-- what the names of the source files begin with, as the compiler is given them -/
  directory : List U8

/-- `outb` -/
def outb (port : U16) (val : U8) : PortM Unit := modify (.outb port val :: ·)

/-- `hcf` -/
def hcf {β : Type} : PortM β := throw .halted

/-- A call of `logf`. -/
structure LogCall where
  level : LogLevel
  format : CString
  args : VaList

/-- The text that a call prints. -/
def LogCall.text (c : LogCall) : List U8 :=
  levelText c.level ++ textFrom c.args 0 (pieces c.format.bytes)

/-- The arguments `ws`, none of which is a string. -/
def VaList.ofWords (ws : List U64) : VaList := ⟨fun i => ws.getD i 0, fun _ => []⟩

/-- `logf`, with its accesses. -/
def logfPorts (o : Outside) (c : LogCall) : PortM Unit := fun h =>
  match (logf c.level (fun i => c.format.bytes.getD i 0) c.args (c.format.bytes.length + 1)).run
      (Log.start o.buffer) with
  | .ok _ s =>
    match writeAll o.uart o.fuel COM1 s.out h with
    | some h' => .ok () h'
    | none => .error .waiting h
  | .error _ _ => .error .outside h

/-- What a failed assertion logs.  The word 1 stands for the address of the name of the file. -/
def assertionLine (o : Outside) (expr : CString) (file : List U8) (line : U64) : LogCall where
  level := .error
  format := ⟨ascii "Assertion '", by decide⟩ ++ expr ++
    ⟨ascii "' failed %s:%d, halting processor", by decide⟩
  args := ⟨fun i => [1, line].getD i 0, fun _ => o.directory ++ file⟩

/-- `CHASSERT(expr)` in a line of a file; `expr` is the text of the expression and `b` its value. -/
def chassertPorts (o : Outside) (b : Bool) (expr : CString) (file : List U8) (line : U64) :
    PortM Unit :=
  if b then pure () else do
    logfPorts o (assertionLine o expr file line)
    hcf

/-- Calls of `logf` one after the other. -/
def logAll (o : Outside) (calls : List LogCall) : PortM Unit := calls.forM (logfPorts o)

/-- After any accesses the status that is read again and again becomes ready. -/
def Drains (uart : Uart) (port : U16) : Prop :=
  ∀ h, ∃ n, isTransmitEmpty uart port ((readStatus uart port)^[n] h) = true

section Delivery

variable {uart : Uart} {fuel n : ℕ} {port : U16} {a : U8} {s t text : List U8} {d e h h' : List Io}

/-! ### Deliveries one after the other -/

theorem Polled.append (first : Polled port d) (second : Polled port e) : Polled port (e ++ d) := by
  induction e with
  | nil => exact first
  | cons x e ih =>
    cases x with
    | inb p val => exact ih second
    | outb p val =>
      obtain ⟨⟨status, ready, read⟩, rest⟩ := second
      refine ⟨⟨status, ready, ?_⟩, ih rest⟩
      show _ ∈ (e ++ d).takeWhile Io.isRead
      rw [List.takeWhile_append]
      split_ifs
      · exact List.mem_append_left _ ((List.takeWhile_prefix _).subset read)
      · exact read

theorem Delivered.append (first : Delivered port s d) (second : Delivered port t e) :
    Delivered port (s ++ t) (e ++ d) := by
  refine ⟨?_, first.polled.append second.polled, fun x hx => ?_⟩
  · rw [List.filterMap_append, first.writes, second.writes, List.map_append, List.reverse_append]
  · rcases List.mem_append.1 hx with later | earlier
    · exact second.access x later
    · exact first.access x earlier

theorem exists_iterate_readStatus (uart : Uart) (port : U16) (n : ℕ) (h : List Io) :
    ∃ d, (readStatus uart port)^[n] h = d ++ h ∧ Delivered port [] d := by
  induction n with
  | zero => exact ⟨[], rfl, delivered_nil port⟩
  | succ n ih =>
    obtain ⟨d, polled, delivered⟩ := ih
    rw [Function.iterate_succ_apply', polled]
    exact ⟨.inb (port + 5) _ :: d, rfl, delivered.writes, delivered.polled,
      List.forall_mem_cons.2 ⟨Or.inl ⟨_, rfl⟩, delivered.access⟩⟩

theorem writeSerial_delivers (returns : writeSerial uart fuel port a h = some h') :
    ∃ d, h' = d ++ h ∧ Delivered port [a] d := by
  obtain ⟨u, loop, rfl⟩ := Option.map_eq_some_iff.1 returns
  obtain ⟨n, -, rfl, full, -⟩ := whileLoop_eq_some_iff.1 loop
  rw [Bool.not_eq_false'] at full
  have ready := of_decide_eq_true full
  obtain ⟨d, polled, delivered⟩ := exists_iterate_readStatus uart port n h
  rw [polled] at ready ⊢
  refine ⟨.outb port a :: .inb (port + 5) (uart (d ++ h) (port + 5)) :: d, rfl, ?_,
    ⟨⟨_, ready, List.mem_cons_self⟩, delivered.polled⟩, ?_⟩
  · show (port, a) :: d.filterMap Io.written = _
    rw [delivered.writes]
    rfl
  · exact List.forall_mem_cons.2 ⟨Or.inr ⟨a, rfl⟩,
      List.forall_mem_cons.2 ⟨Or.inl ⟨_, rfl⟩, delivered.access⟩⟩

/-- Bytes that are written are delivered, whatever was accessed before. -/
theorem writeAll_delivered (returns : writeAll uart fuel port text h = some h') :
    ∃ d, h' = d ++ h ∧ Delivered port text d := by
  induction text generalizing h with
  | nil =>
    cases returns
    exact ⟨[], rfl, delivered_nil port⟩
  | cons a text ih =>
    obtain ⟨u, first, rest⟩ := Option.bind_eq_some_iff.1 returns
    obtain ⟨d, rfl, delivered⟩ := writeSerial_delivers first
    obtain ⟨e, rfl, later⟩ := ih rest
    exact ⟨e ++ d, (List.append_assoc e d h).symm, delivered.append later⟩

theorem Drains.exists_writeAll (drains : Drains uart port) (text : List U8) (h : List Io) :
    ∃ n h', ∀ fuel, n < fuel → writeAll uart fuel port text h = some h' := by
  induction text generalizing h with
  | nil => exact ⟨0, h, fun _ _ => rfl⟩
  | cons a text ih =>
    obtain ⟨n, ready⟩ := drains h
    have ends : ∃ n, (!isTransmitEmpty uart port ((readStatus uart port)^[n] h)) = false :=
      ⟨n, by rw [ready]; rfl⟩
    obtain ⟨k, -, -, loop⟩ := @exists_whileLoop _ (fun h => !isTransmitEmpty uart port h) _ h ends
    obtain ⟨m, h', rest⟩ := ih (.outb port a :: readStatus uart port ((readStatus uart port)^[k] h))
    refine ⟨max k m, h', fun fuel enough => ?_⟩
    rw [writeAll, writeSerial, loop fuel (by omega)]
    exact rest fuel (by omega)

end Delivery

/-! ### Calls of `logf` -/

section Log

variable {o : Outside} {c : LogCall} {calls : List LogCall} {h h' : List Io}

theorem run_logfPorts (o : Outside) (c : LogCall) (h : List Io) :
    (logfPorts o c).run h =
      match writeAll o.uart o.fuel COM1 c.text h with
      | some h' => .ok () h'
      | none => .error .waiting h := by
  have stored := stringAt_getD c.format.noNul []
  obtain ⟨s, run, out, -⟩ := @run_logf c.level c.args c.format _ o.buffer _ stored
    (Nat.lt_succ_self _)
  show (match (logf c.level (fun i => c.format.bytes.getD i 0) c.args
    (c.format.bytes.length + 1)).run (Log.start o.buffer) with | .ok _ s => _ | .error _ _ => _) = _
  rw [List.nil_append] at run
  rw [run]
  show (match writeAll o.uart o.fuel COM1 s.out h with | some h' => _ | none => _) = _
  rw [out]
  rfl

theorem Drains.exists_logfPorts (drains : Drains o.uart COM1) (c : LogCall) (h : List Io) :
    ∃ n d, Delivered COM1 c.text d ∧
      ∀ fuel, n < fuel → (logfPorts { o with fuel } c).run h = .ok () (d ++ h) := by
  obtain ⟨n, h', written⟩ := drains.exists_writeAll c.text h
  obtain ⟨d, rfl, delivered⟩ := writeAll_delivered (written (n + 1) (Nat.lt_succ_self n))
  refine ⟨n, d, delivered, fun fuel enough => ?_⟩
  rw [run_logfPorts, written fuel enough]

/-- All calls of a list return, and their texts are delivered in order. -/
theorem Drains.exists_logAll (drains : Drains o.uart COM1) (calls : List LogCall) (h : List Io) :
    ∃ n d, Delivered COM1 (calls.flatMap LogCall.text) d ∧
      ∀ fuel, n < fuel → (logAll { o with fuel } calls).run h = .ok () (d ++ h) := by
  induction calls generalizing h with
  | nil => exact ⟨0, [], delivered_nil COM1, fun _ _ => rfl⟩
  | cons c calls ih =>
    obtain ⟨n, d, first, returns⟩ := drains.exists_logfPorts c h
    obtain ⟨k, e, later, rest⟩ := ih (d ++ h)
    refine ⟨max n k, e ++ d, first.append later, fun fuel enough => ?_⟩
    show (logfPorts { o with fuel } c >>= fun _ => logAll { o with fuel } calls).run h = _
    rw [EStateM.run_bind, returns fuel (by omega), List.append_assoc]
    exact rest fuel (by omega)

/-! ### The chip -/

open Chip

variable {port : U16} {env : List Io → List ChipEvent} {chip t : Chip} {sent got : List U8}

theorem Chip.Fair.drains (fair : Fair port env chip) : Drains (uart port env chip) port := fun h => by
  obtain ⟨n, empty⟩ := fair.exists_empty h
  exact ⟨n, isTransmitEmpty_iff.2 empty⟩

theorem Chip.Carried.writeAll {fuel : ℕ} {text : List U8}
    (carried : Carried t (chip.now port env h) sent got) (connected : t.setting.Connected)
    (returns : writeAll (uart port env chip) fuel port text h = some h') :
    Carried t (chip.now port env h') (sent ++ text) got := by
  induction text generalizing h sent with
  | nil =>
    cases returns
    rw [List.append_nil]
    exact carried
  | cons a text ih =>
    obtain ⟨u, first, rest⟩ := Option.bind_eq_some_iff.1 returns
    rw [List.append_cons]
    exact ih (carried.writeSerial connected first) rest

/-- From any state on the line, calls of `logf` return and give their texts to the line. -/
theorem Chip.Fair.exists_logAll (fair : Fair COM1 env chip) (connected : t.setting.Connected)
    (buffer : ℕ → U8) (directory : List U8) (calls : List LogCall)
    (carried : Carried t (chip.now COM1 env h) sent got) :
    ∃ n, ∀ fuel, n < fuel → ∃ h',
      (logAll ⟨uart COM1 env chip, fuel, buffer, directory⟩ calls).run h = .ok () h' ∧
      Carried t (chip.now COM1 env h') (sent ++ calls.flatMap LogCall.text) got := by
  induction calls generalizing h sent with
  | nil =>
    refine ⟨0, fun fuel _ => ⟨h, rfl, ?_⟩⟩
    rwa [List.flatMap_nil, List.append_nil]
  | cons c calls ih =>
    obtain ⟨n, u, written⟩ := fair.drains.exists_writeAll c.text h
    obtain ⟨m, rest⟩ := ih (carried.writeAll connected (written (n + 1) (Nat.lt_succ_self n)))
    refine ⟨max n m, fun fuel enough => ?_⟩
    obtain ⟨h', returns, after⟩ := rest fuel (by omega)
    refine ⟨h', ?_, ?_⟩
    · show (logfPorts _ c >>= fun _ => logAll _ calls).run h = _
      rw [EStateM.run_bind, run_logfPorts, written fuel (by omega)]
      exact returns
    · rwa [List.flatMap_cons, ← List.append_assoc]

/-- **The log.**  On a chip that is on the line and goes on sending, any calls of `logf` return, and
their texts come to the line one after the other, after the bytes that waited before. -/
theorem log_on_line (fair : Fair COM1 env chip) (connected : (chip.now COM1 env h).setting.Connected)
    (buffer : ℕ → U8) (directory : List U8) (calls : List LogCall) :
    ∃ n, ∀ fuel, n < fuel → ∃ h',
      (logAll ⟨uart COM1 env chip, fuel, buffer, directory⟩ calls).run h = .ok () h' ∧
      (chip.now COM1 env h').line ++ (chip.now COM1 env h').sending =
        (chip.now COM1 env h).line ++ (chip.now COM1 env h).sending ++ calls.flatMap LogCall.text := by
  obtain ⟨n, returns⟩ := fair.exists_logAll connected buffer directory calls (Carried.refl _)
  refine ⟨n, fun fuel enough => ?_⟩
  obtain ⟨h', ok, carried⟩ := returns fuel enough
  exact ⟨h', ok, carried.line⟩

/-- Two calls on a chip that sends a byte between any two accesses. -/
theorem idleChip_logged : ∃ n, ∀ fuel, n < fuel → ∃ h',
    (logAll ⟨uart COM1 (fun _ => [.shift]) idleChip, fuel, fun _ => 0, []⟩
      [⟨.info, percentX, .ofWords [0xbeef]⟩, ⟨.debug, percentLd, .ofWords [42]⟩]).run [] = .ok () h' ∧
    (idleChip.now COM1 (fun _ => [.shift]) h').line ++ (idleChip.now COM1 (fun _ => [.shift]) h').sending =
      (idleChip.now COM1 (fun _ => [.shift]) []).line ++
        (idleChip.now COM1 (fun _ => [.shift]) []).sending ++
        List.flatMap LogCall.text
          [⟨.info, percentX, .ofWords [0xbeef]⟩, ⟨.debug, percentLd, .ofWords [42]⟩] :=
  log_on_line (fun _ => ⟨0, List.mem_cons_self⟩) ⟨by decide, by decide⟩ _ _ _

end Log

end Bintos
