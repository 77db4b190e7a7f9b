import Bintos.Serial.Chip
import Bintos.Serial.Delivery
import Mathlib.Tactic.Ring

/-!
# The driver and the chip

`write_serial` gives a byte to a transmitter that is empty and `read_serial` takes one from a receiver
that is not, so whenever the chip sends and whatever arrives, no byte is lost, repeated or out of order
(`serial_lossless`).  With a chip that goes on sending, `write_serial` always returns
(`Chip.responsive`).
-/

namespace Bintos

open Peripheral

/-- The chip is on the line, with the data register at the first port. -/
def ChipSetting.Connected (r : ChipSetting) : Prop := r.dlab = false ∧ r.loopback = false

/-- A call of the driver. -/
inductive SerialCall where
  | write (a : U8)
  | read
  deriving DecidableEq, Repr

/-- The byte that a call writes. -/
def SerialCall.written : SerialCall → Option U8
  | .write a => some a
  | .read => none

/-- Calls one after the other: the bytes that are read and the accesses. -/
def runCalls (uart : Uart) (fuel : ℕ) (port : U16) :
    List SerialCall → List Io → Option (List U8 × List Io)
  | [], h => some ([], h)
  | .write a :: calls, h => (writeSerial uart fuel port a h).bind (runCalls uart fuel port calls)
  | .read :: calls, h =>
    (readSerial uart fuel port h).bind fun (a, h) =>
      (runCalls uart fuel port calls h).map fun (got, h) => (a :: got, h)

namespace Chip

/-- From `c` on, the bytes `sent` were given to the chip and the bytes `got` taken from it, and it is
`c'` now. -/
structure Carried (c c' : Chip) (sent got : List U8) : Prop where
  setting : c'.setting = c.setting
  /-- what was given goes to the line in order, and the rest of it waits -/
  line : c'.line ++ c'.sending = c.line ++ c.sending ++ sent
  /-- what came in was taken in order, and the rest of it waits -/
  received : ∃ new, c'.accepted = c.accepted ++ new ∧ got ++ c'.received = c.received ++ new

/-- The transmitter sends again and again, however long the driver polls. -/
def Fair (port : U16) (env : List Io → List ChipEvent) (c : Chip) : Prop :=
  ∀ h, ∃ n, .shift ∈ env ((readStatus (uart port env c) port)^[n] h)

section Carried

variable {c c' : Chip} {sent got : List U8} {a : U8}

theorem Carried.refl (c : Chip) : Carried c c [] [] :=
  ⟨rfl, (List.append_nil _).symm, [], (List.append_nil _).symm, (List.append_nil _).symm⟩

theorem Carried.receive (carried : Carried c c' sent got) (a : U8) :
    Carried c (c'.receive a) sent got := by
  refine ⟨(receive_setting c' a).trans carried.setting, ?_, ?_⟩
  · rw [receive_line, receive_sending]
    exact carried.line
  · obtain ⟨new, accepted, received⟩ := carried.received
    unfold Chip.receive
    split_ifs with room
    · refine ⟨new ++ [a], ?_, ?_⟩
      · rw [accepted, List.append_assoc]
      · rw [← List.append_assoc, received, List.append_assoc]
    · exact ⟨new, accepted, received⟩

/-- Whatever happens on the line, nothing is lost. -/
theorem Carried.event (carried : Carried c c' sent got) (on_line : c.setting.loopback = false)
    (e : ChipEvent) : Carried c (c'.event e) sent got := by
  have mode : c'.setting.loopback = false := by rw [carried.setting, on_line]
  cases e with
  | shift =>
    cases next : c'.sending with
    | nil =>
      rw [shift_nil next]
      exact carried
    | cons a rest =>
      rw [shift_line next mode]
      refine ⟨carried.setting, ?_, carried.received⟩
      have before := carried.line
      rw [next] at before
      rw [← before]
      exact (List.append_cons _ _ _).symm
  | arrive a =>
    rw [Chip.event, mode]
    exact carried.receive a

theorem Carried.settle (carried : Carried c c' sent got) (on_line : c.setting.loopback = false)
    (port : U16) (events : List ChipEvent) :
    Carried c ((at_ port).settle c' events) sent got :=
  settle_induction (I := fun t => Carried c t sent got) carried fun _ e _ here =>
    here.event on_line e

/-- A byte is given to an empty transmitter. -/
theorem Carried.write (carried : Carried c c' sent got) (connected : c.setting.Connected)
    (empty : c'.sending = []) (a : U8) : Carried c (c'.write 0 a) (sent ++ [a]) got := by
  have data : c'.setting.dlab = false := by rw [carried.setting, connected.1]
  have room : c'.sending.length < c'.setting.room := by
    rw [empty, ChipSetting.room]
    split_ifs <;> decide
  have same : c'.setting.write 0 a = c'.setting := ChipSetting.write_data data a
  have taken : c'.write 0 a = { c' with sending := c'.sending ++ [a] } := by
    rw [Chip.write, if_pos ⟨rfl, data⟩, if_pos room, same]
  rw [taken]
  refine ⟨carried.setting, ?_, carried.received⟩
  show c'.line ++ (c'.sending ++ [a]) = _
  rw [← List.append_assoc, carried.line, List.append_assoc]

/-- A byte is taken from a receiver that has one. -/
theorem Carried.read (carried : Carried c c' sent got) (connected : c.setting.Connected)
    (some : c'.received ≠ []) : Carried c (c'.read 0).2 sent (got ++ [(c'.read 0).1]) := by
  have data : c'.setting.dlab = false := by rw [carried.setting, connected.1]
  obtain ⟨a, rest, next⟩ := List.exists_cons_of_ne_nil some
  have read : c'.read 0 = (a, { c' with received := rest, last := a }) := by
    simp only [Chip.read, data, next]
    rfl
  rw [read]
  refine ⟨carried.setting, carried.line, ?_⟩
  obtain ⟨new, accepted, received⟩ := carried.received
  rw [next] at received
  exact ⟨new, accepted, (List.append_cons _ _ _).symm.trans received⟩

end Carried

/-- A byte that waits in the receiver goes on waiting. -/
theorem settle_received {c : Chip} (port : U16) (waits : c.received ≠ []) (events : List ChipEvent) :
    ((at_ port).settle c events).received ≠ [] :=
  settle_induction (I := fun t : Chip => t.received ≠ []) waits fun _ e _ waits =>
    event_received waits e

/-! ### Polling -/

section Polling

variable {port : U16} {env : List Io → List ChipEvent} {c t : Chip} {sent got : List U8}
  {h h' : List Io} {fuel : ℕ}

theorem register_eq (port k : U16) : port + k - port = k := by ring

theorem now_readStatus (port : U16) (env : List Io → List ChipEvent) (c : Chip) (h : List Io) :
    c.now port env (readStatus (uart port env c) port h) =
      (at_ port).settle (c.now port env h)
        (env (readStatus (uart port env c) port h)) := by
  show (at_ port).settle ((c.now port env h).read (port + 5 - port)).2 _ = _
  rw [register_eq]
  rfl

theorem now_outb (port : U16) (env : List Io → List ChipEvent) (c : Chip) (k : U16) (val : U8)
    (h : List Io) :
    c.now port env (.outb (port + k) val :: h) =
      (at_ port).settle ((c.now port env h).write k val) (env (.outb (port + k) val :: h)) := by
  show (at_ port).settle ((c.now port env h).write (port + k - port) val) _ = _
  rw [register_eq]

theorem now_inb (port : U16) (env : List Io → List ChipEvent) (c : Chip) (val : U8) (h : List Io) :
    c.now port env (.inb port val :: h) =
      (at_ port).settle ((c.now port env h).read 0).2 (env (.inb port val :: h)) := by
  show (at_ port).settle ((c.now port env h).read (port - port)).2 _ = _
  rw [BitVec.sub_self]
  rfl

theorem uart_status (port : U16) (env : List Io → List ChipEvent) (c : Chip) (h : List Io) :
    uart port env c h (port + 5) = (c.now port env h).status := by
  rw [uart, register_eq]
  rfl

theorem isTransmitEmpty_iff :
    isTransmitEmpty (uart port env c) port h = true ↔ (c.now port env h).sending = [] := by
  rw [isTransmitEmpty, uart_status, decide_eq_true_iff, status]
  generalize c.now port env h = t
  by_cases empty : t.sending = []
  · rw [if_pos empty]
    refine iff_of_true ?_ empty
    split_ifs <;> decide
  · rw [if_neg empty]
    refine iff_of_false ?_ empty
    split_ifs <;> decide

theorem serialReceived_iff :
    serialReceived (uart port env c) port h = true ↔ (c.now port env h).received ≠ [] := by
  rw [serialReceived, uart_status, decide_eq_true_iff, status]
  generalize c.now port env h = t
  by_cases empty : t.received = []
  · rw [if_pos empty]
    refine iff_of_false ?_ (not_not.2 empty)
    split_ifs <;> decide
  · rw [if_neg empty]
    refine iff_of_true ?_ empty
    split_ifs <;> decide

/-- While the driver polls, what was given to the chip and taken from it stays. -/
theorem Carried.iterate (carried : Carried t (c.now port env h) sent got)
    (on_line : t.setting.loopback = false) (n : ℕ) :
    Carried t (c.now port env ((readStatus (uart port env c) port)^[n] h)) sent got := by
  induction n with
  | zero => exact carried
  | succ n ih =>
    rw [Function.iterate_succ_apply', now_readStatus]
    exact ih.settle on_line port _

/-- `write_serial` gives its byte to the chip. -/
theorem Carried.writeSerial (carried : Carried t (c.now port env h) sent got)
    (connected : t.setting.Connected) {a : U8}
    (returns : writeSerial (uart port env c) fuel port a h = some h') :
    Carried t (c.now port env h') (sent ++ [a]) got := by
  obtain ⟨u, loop, rfl⟩ := Option.map_eq_some_iff.1 returns
  obtain ⟨n, -, rfl, full, -⟩ := whileLoop_eq_some_iff.1 loop
  rw [Bool.not_eq_false'] at full
  have polled := carried.iterate connected.2 n
  have empty := isTransmitEmpty_iff.1 full
  -- what happens after the last test makes no byte wait
  have still := settle_sending port empty (env (readStatus (uart port env c) port
    ((readStatus (uart port env c) port)^[n] h)))
  have ready := polled.settle connected.2 port (env (readStatus (uart port env c) port
    ((readStatus (uart port env c) port)^[n] h)))
  have access := now_outb port env c 0 a (readStatus (uart port env c) port
    ((readStatus (uart port env c) port)^[n] h))
  rw [add_zero, now_readStatus] at access
  rw [access]
  exact (ready.write connected still a).settle connected.2 port _

/-- `read_serial` takes its byte from the chip. -/
theorem Carried.readSerial (carried : Carried t (c.now port env h) sent got)
    (connected : t.setting.Connected) {a : U8}
    (returns : readSerial (uart port env c) fuel port h = some (a, h')) :
    Carried t (c.now port env h') sent (got ++ [a]) := by
  obtain ⟨u, loop, last⟩ := Option.map_eq_some_iff.1 returns
  obtain ⟨n, -, rfl, some, -⟩ := whileLoop_eq_some_iff.1 loop
  rw [Bool.not_eq_false'] at some
  have polled := carried.iterate connected.2 n
  have waits := serialReceived_iff.1 some
  generalize (readStatus (uart port env c) port)^[n] h = u at polled waits last
  -- what arrives after the last test comes after the byte that waits
  have still := settle_received port waits (env (readStatus (uart port env c) port u))
  have ready := polled.settle connected.2 port (env (readStatus (uart port env c) port u))
  rw [← now_readStatus] at still ready
  obtain ⟨rfl, rfl⟩ := Prod.mk.inj last
  rw [now_inb]
  have value : uart port env c (readStatus (uart port env c) port u) port =
      ((c.now port env (readStatus (uart port env c) port u)).read 0).1 := by
    rw [uart, BitVec.sub_self]
    rfl
  rw [value]
  exact (ready.read connected still).settle connected.2 port _

theorem Carried.runCalls (carried : Carried t (c.now port env h) sent got)
    (connected : t.setting.Connected) {calls : List SerialCall} {more : List U8}
    (returns : runCalls (uart port env c) fuel port calls h = some (more, h')) :
    Carried t (c.now port env h') (sent ++ calls.filterMap SerialCall.written) (got ++ more) := by
  induction calls generalizing h sent got more with
  | nil =>
    obtain ⟨rfl, rfl⟩ := Prod.mk.inj (Option.some.inj returns)
    rw [List.filterMap_nil, List.append_nil, List.append_nil]
    exact carried
  | cons call calls ih =>
    cases call with
    | write a =>
      obtain ⟨u, first, rest⟩ := Option.bind_eq_some_iff.1 returns
      have later := ih (carried.writeSerial connected first) rest
      rw [List.append_assoc] at later
      exact later
    | read =>
      obtain ⟨⟨a, u⟩, first, rest⟩ := Option.bind_eq_some_iff.1 returns
      obtain ⟨⟨others, v⟩, calls_after, last⟩ := Option.map_eq_some_iff.1 rest
      obtain ⟨rfl, rfl⟩ := Prod.mk.inj last
      have later := ih (carried.readSerial connected first) calls_after
      rw [List.append_assoc] at later
      exact later

/-- **The serial line.**  From any state in which the chip is on the line, and for every order in which
bytes are sent and arrive between the accesses, calls that return have given their bytes to the line in
order, followed by those that wait, and have read the bytes that came in, in order, up to those that
wait; the registers are as before. -/
theorem serial_lossless (connected : (c.now port env h).setting.Connected) {calls : List SerialCall}
    {got : List U8} (returns : runCalls (uart port env c) fuel port calls h = some (got, h')) :
    Carried (c.now port env h) (c.now port env h') (calls.filterMap SerialCall.written) got :=
  (Carried.refl _).runCalls connected returns

/-- A chip with a byte in its receiver. -/
def idleChip : Chip where
  setting := ⟨0x00, 0x03, 0x0F, 0x03, 0x00, true⟩
  sending := []
  received := [0x41]
  last := 0
  line := []
  accepted := [0x41]

/-- Two bytes are written and one is read, and bytes arrive all the time. -/
theorem idleChip_lossless : ∃ after,
    runCalls (uart COM1 (fun _ => [.shift, .arrive 0x42]) idleChip) 1 COM1
      [.write 0x48, .read, .write 0x69] [] = some ([0x41], after) ∧
    Carried (idleChip.now COM1 (fun _ => [.shift, .arrive 0x42]) [])
      (idleChip.now COM1 (fun _ => [.shift, .arrive 0x42]) after) [0x48, 0x69] [0x41] := by
  have returns : ∃ after, runCalls (uart COM1 (fun _ => [.shift, .arrive 0x42]) idleChip) 1 COM1
      [.write 0x48, .read, .write 0x69] [] = some ([0x41], after) := ⟨_, rfl⟩
  obtain ⟨after, returns⟩ := returns
  exact ⟨after, returns, serial_lossless ⟨by decide, by decide⟩ returns⟩

/-- While the driver polls, no byte comes to those that wait. -/
theorem iterate_sending (port : U16) (env : List Io → List ChipEvent) (c : Chip) (h : List Io) (n : ℕ) :
    (c.now port env ((readStatus (uart port env c) port)^[n] h)).sending <:+
      (c.now port env h).sending := by
  induction n with
  | zero => exact List.suffix_rfl
  | succ n ih =>
    rw [Function.iterate_succ_apply', now_readStatus]
    refine settle_induction (I := fun t : Chip => t.sending <:+ (c.now port env h).sending) ih ?_
    exact fun t e _ fewer => (event_sending t e).trans fewer

/-- The transmitter of a chip that goes on sending becomes empty. -/
theorem Fair.exists_empty (fair : Fair port env c) (h : List Io) :
    ∃ n, (c.now port env ((readStatus (uart port env c) port)^[n] h)).sending = [] := by
  induction waiting : (c.now port env h).sending.length using Nat.strong_induction_on
    generalizing h with
  | _ size ih =>
    by_cases empty : (c.now port env h).sending = []
    · exact ⟨0, empty⟩
    have some := List.length_pos_iff.2 empty
    obtain ⟨n, shifted⟩ := fair (readStatus (uart port env c) port h)
    rw [← Function.iterate_succ_apply, Function.iterate_succ_apply'] at shifted
    -- the event sends a byte, if one waits still
    have fewer : (c.now port env ((readStatus (uart port env c) port)^[n + 1] h)).sending.length <
        size := by
      rw [Function.iterate_succ_apply', now_readStatus]
      refine settle_of_mem (I := fun t : Chip => t.sending.length ≤ size)
        (J := fun t : Chip => t.sending.length < size) ?_ shifted (fun t e _ le => ?_)
        (fun t le => ?_) fun t e _ lt => ?_
      · exact waiting ▸ (iterate_sending port env c h n).length_le
      · exact (event_sending t e).length_le.trans le
      · show (t.event .shift).sending.length < size
        rw [shift_sending, List.length_tail]
        omega
      · exact (event_sending t e).length_le.trans_lt lt
    obtain ⟨m, done⟩ := ih _ fewer _ rfl
    refine ⟨m + (n + 1), ?_⟩
    rw [Function.iterate_add_apply]
    exact done

/-- `write_serial` returns on such a chip. -/
theorem Fair.responsive (fair : Fair port env c) : Responsive (uart port env c) port := by
  intro h _
  obtain ⟨n, empty⟩ := fair.exists_empty h
  exact ⟨n, isTransmitEmpty_iff.2 empty⟩

end Polling

end Chip

end Bintos
