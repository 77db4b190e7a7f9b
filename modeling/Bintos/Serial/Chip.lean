import Bintos.Lib.Peripheral
import Bintos.Serial.Source

/-!
# The chip at the serial port

The registers of a UART of the 16550 family, as far as the driver uses them.  The transmitter sends the
bytes that are waiting one after the other, to the line or, in loopback mode, to the receiver of the
chip itself, and bytes arrive from the line.  When that happens is not up to the driver.
-/

namespace Bintos

/-- The registers that the driver sets. -/
@[ext] structure ChipSetting where
  /-- interrupt enable -/
  ier : U8
  /-- line control -/
  lcr : U8
  /-- modem control -/
  mcr : U8
  /-- the divisor, low byte and high byte -/
  dll : U8
  dlm : U8
  /-- the FIFOs are in use -/
  fifo : Bool
  deriving DecidableEq, Repr

namespace ChipSetting

/-- The divisor is accessed at the first two registers. -/
def dlab (r : ChipSetting) : Bool := r.lcr.getLsbD 7

def loopback (r : ChipSetting) : Bool := r.mcr.getLsbD 4

/-- What a write does to the registers. -/
def write (r : ChipSetting) (register : U16) (val : U8) : ChipSetting :=
  match register.toNat with
  | 0 => if r.dlab then { r with dll := val } else r
  | 1 => if r.dlab then { r with dlm := val } else { r with ier := val }
  | 2 => { r with fifo := val.getLsbD 0 }
  | 3 => { r with lcr := val }
  | 4 => { r with mcr := val }
  | _ => r

section Write

variable {r : ChipSetting}

/-- While the divisor is accessible, it is at the first two registers. -/
theorem write_dll (on : r.dlab = true) (val : U8) : r.write 0 val = { r with dll := val } := if_pos on

theorem write_dlm (on : r.dlab = true) (val : U8) : r.write 1 val = { r with dlm := val } := if_pos on

theorem write_data (off : r.dlab = false) (val : U8) : r.write 0 val = r :=
  if_neg (by rw [off]; exact Bool.false_ne_true)

theorem write_ier (off : r.dlab = false) (val : U8) : r.write 1 val = { r with ier := val } :=
  if_neg (by rw [off]; exact Bool.false_ne_true)

theorem write_lcr (r : ChipSetting) (val : U8) : r.write 3 val = { r with lcr := val } := rfl

end Write

/-- The bytes that wait in the transmitter or in the receiver at most. -/
def room (r : ChipSetting) : ℕ := if r.fifo then 16 else 1

end ChipSetting

/-- The chip.  `line` and `accepted` are records for specifications. -/
structure Chip where
  setting : ChipSetting
  /-- the bytes that wait for transmission, the next one first -/
  sending : List U8
  /-- the bytes that were received and not yet read, the next one first -/
  received : List U8
  /-- what a read of an empty receiver returns -/
  last : U8
  /-- the bytes that were sent to the line, in order -/
  line : List U8
  /-- the bytes that came into the receiver, in order -/
  accepted : List U8

/-- What happens between accesses. -/
inductive ChipEvent where
  /-- The next byte that waits is sent. -/
  | shift
  /-- A byte arrives from the line. -/
  | arrive (a : U8)
  deriving DecidableEq, Repr

namespace Chip

/-- A byte comes into the receiver, unless it is full. -/
def receive (c : Chip) (a : U8) : Chip :=
  if c.received.length < c.setting.room then
    { c with received := c.received ++ [a], accepted := c.accepted ++ [a] }
  else c

/-- One event.  In loopback mode the line is not connected. -/
def event (c : Chip) : ChipEvent → Chip
  | .shift =>
    match c.sending with
    | [] => c
    | a :: rest =>
      if c.setting.loopback then receive { c with sending := rest } a
      else { c with sending := rest, line := c.line ++ [a] }
  | .arrive a => if c.setting.loopback then c else c.receive a

/-- The line status: bit 0 when a byte was received, bits 5 and 6 when no byte waits. -/
def status (c : Chip) : U8 :=
  (if c.received = [] then 0 else 1) ||| (if c.sending = [] then 0x60 else 0)

/-- A read of a register, by its offset: the value and the chip after the read. -/
def read (c : Chip) (register : U16) : U8 × Chip :=
  match register.toNat with
  | 0 =>
    if c.setting.dlab then (c.setting.dll, c)
    else match c.received with
      | [] => (c.last, c)
      | a :: rest => (a, { c with received := rest, last := a })
  | 1 => (if c.setting.dlab then c.setting.dlm else c.setting.ier, c)
  | 3 => (c.setting.lcr, c)
  | 4 => (c.setting.mcr, c)
  | 5 => (c.status, c)
  | _ => (0, c)

/-- A write of a register, by its offset. -/
def write (c : Chip) (register : U16) (val : U8) : Chip :=
  let c' := { c with setting := c.setting.write register val }
  if register = 0 ∧ c.setting.dlab = false then
    if c.sending.length < c.setting.room then { c' with sending := c.sending ++ [val] } else c'
  else if register = 2 then
    { c' with
      received := if val.getLsbD 1 then [] else c.received
      sending := if val.getLsbD 2 then [] else c.sending }
  else c'

/-- The chip with its registers from the port `port` on. -/
def at_ (port : U16) : Peripheral Chip Io ChipEvent where
  access c
    | .inb p _ => (c.read (p - port)).2
    | .outb p val => c.write (p - port) val
  event := event

/-- The chip `c` after the accesses, in the surroundings `env`, as the next access finds it. -/
def now (port : U16) (env : List Io → List ChipEvent) (c : Chip) (h : List Io) : Chip :=
  (at_ port).now env c h

/-- What the driver reads from the chip. -/
def uart (port : U16) (env : List Io → List ChipEvent) (c : Chip) : Uart := fun h p =>
  ((c.now port env h).read (p - port)).1

/-! ### Events -/

section Events

variable {c : Chip} {a : U8} {e : ChipEvent}

theorem receive_setting (c : Chip) (a : U8) : (c.receive a).setting = c.setting := by
  unfold receive
  split_ifs <;> rfl

theorem receive_sending (c : Chip) (a : U8) : (c.receive a).sending = c.sending := by
  unfold receive
  split_ifs <;> rfl

theorem receive_line (c : Chip) (a : U8) : (c.receive a).line = c.line := by
  unfold receive
  split_ifs <;> rfl

theorem receive_last (c : Chip) (a : U8) : (c.receive a).last = c.last := by
  unfold receive
  split_ifs <;> rfl

theorem shift_nil (idle : c.sending = []) : c.event .shift = c := by
  rw [event, idle]

theorem shift_line {rest : List U8} (next : c.sending = a :: rest)
    (connected : c.setting.loopback = false) :
    c.event .shift = { c with sending := rest, line := c.line ++ [a] } := by
  rw [event, next]
  exact if_neg (by rw [connected]; decide)

theorem shift_loopback {rest : List U8} (next : c.sending = a :: rest)
    (loopback : c.setting.loopback = true) :
    c.event .shift = receive { c with sending := rest } a := by
  rw [event, next]
  exact if_pos loopback

/-- No event changes a register. -/
theorem event_setting (c : Chip) (e : ChipEvent) : (c.event e).setting = c.setting := by
  cases e with
  | shift =>
    cases next : c.sending with
    | nil => rw [shift_nil next]
    | cons a rest =>
      cases mode : c.setting.loopback with
      | false => rw [shift_line next mode]
      | true => rw [shift_loopback next mode, receive_setting]
  | arrive a =>
    rw [event]
    split_ifs
    · rfl
    · exact receive_setting c a

theorem shift_sending (c : Chip) : (c.event .shift).sending = c.sending.tail := by
  cases next : c.sending with
  | nil =>
    rw [shift_nil next, next]
    rfl
  | cons a rest =>
    cases mode : c.setting.loopback with
    | false =>
      rw [shift_line next mode]
      rfl
    | true =>
      rw [shift_loopback next mode, receive_sending]
      rfl

/-- No event makes a byte wait. -/
theorem event_sending (c : Chip) (e : ChipEvent) : (c.event e).sending <:+ c.sending := by
  cases e with
  | shift =>
    rw [shift_sending]
    exact List.tail_suffix _
  | arrive a =>
    rw [event]
    split_ifs
    · exact List.suffix_rfl
    · rw [receive_sending]

/-- No event takes a byte from the receiver. -/
theorem event_received (waits : c.received ≠ []) (e : ChipEvent) : (c.event e).received ≠ [] := by
  have more (t : Chip) (a : U8) (waits : t.received ≠ []) : (t.receive a).received ≠ [] := by
    unfold receive
    split_ifs
    · exact List.append_ne_nil_of_left_ne_nil waits _
    · exact waits
  cases e with
  | shift =>
    cases next : c.sending with
    | nil =>
      rw [shift_nil next]
      exact waits
    | cons a rest =>
      cases mode : c.setting.loopback with
      | false =>
        rw [shift_line next mode]
        exact waits
      | true =>
        rw [shift_loopback next mode]
        exact more _ a waits
  | arrive a =>
    rw [event]
    split_ifs
    · exact waits
    · exact more c a waits

theorem settle_sending (port : U16) (idle : c.sending = []) (events : List ChipEvent) :
    ((at_ port).settle c events).sending = [] :=
  Peripheral.settle_induction (I := fun t : Chip => t.sending = []) idle fun t e _ idle =>
    List.suffix_nil.1 (idle ▸ event_sending t e)

theorem settle_setting (port : U16) (c : Chip) (events : List ChipEvent) :
    ((at_ port).settle c events).setting = c.setting :=
  Peripheral.settle_induction (I := fun t => t.setting = c.setting) rfl fun t e _ same =>
    (event_setting t e).trans same

end Events

end Chip

end Bintos
