import Bintos.Lib.While
import Bintos.Machine

/-!
# The serial port (`serial/serial.c`)

A function of the serial driver is given by the port accesses it makes.  They are listed with the last
one first, and the UART answers a read according to the accesses made before it.
-/

namespace Bintos

def COM1 : U16 := 0x3f8

/-- A port access. -/
inductive Io where
  /-- `inb`, with the value that was read -/
  | inb (port : U16) (val : U8)
  /-- `outb` -/
  | outb (port : U16) (val : U8)
  deriving DecidableEq, Repr

/-- What a read of a port returns after the accesses made so far. -/
abbrev Uart := List Io → U16 → U8

/-- `is_transmit_empty`, after the accesses `h`; it reads the port `PORT + 5`. -/
def isTransmitEmpty (uart : Uart) (port : U16) (h : List Io) : Bool :=
  decide (uart h (port + 5) &&& 0x20 ≠ 0)

/-- The accesses after one call of `is_transmit_empty`. -/
def readStatus (uart : Uart) (port : U16) (h : List Io) : List Io :=
  .inb (port + 5) (uart h (port + 5)) :: h

/-- `write_serial`: the loop reads the status until the test succeeds, with a budget for its tests. -/
def writeSerial (uart : Uart) (fuel : ℕ) (port : U16) (a : U8) (h : List Io) : Option (List Io) :=
  (whileLoop (fun h => !isTransmitEmpty uart port h) (readStatus uart port) fuel h).map fun h =>
    .outb port a :: readStatus uart port h

/-- `serial_received`, after the accesses `h`; it reads the port `PORT + 5`. -/
def serialReceived (uart : Uart) (port : U16) (h : List Io) : Bool :=
  decide (uart h (port + 5) &&& 1 ≠ 0)

/-- `read_serial`, with a budget for its tests: the byte and the accesses. -/
def readSerial (uart : Uart) (fuel : ℕ) (port : U16) (h : List Io) : Option (U8 × List Io) :=
  (whileLoop (fun h => !serialReceived uart port h) (readStatus uart port) fuel h).map fun h =>
    let h := readStatus uart port h
    (uart h port, .inb port (uart h port) :: h)

/-- `init_serial` -/
def initSerial (uart : Uart) (port : U16) (h : List Io) : Bool × List Io :=
  let h := .outb (port + 1) 0x00 :: h
  let h := .outb (port + 3) 0x80 :: h
  let h := .outb (port + 0) 0x03 :: h
  let h := .outb (port + 1) 0x00 :: h
  let h := .outb (port + 3) 0x03 :: h
  let h := .outb (port + 2) 0xC7 :: h
  let h := .outb (port + 4) 0x0B :: h
  let h := .outb (port + 4) 0x1E :: h
  let h := .outb (port + 0) 0xAE :: h
  let answer := uart h (port + 0)
  let h := .inb (port + 0) answer :: h
  if answer ≠ 0xAE then (false, h) else (true, .outb (port + 4) 0x0F :: h)

/-- Calls of `write_serial` for the bytes of a list. -/
def writeAll (uart : Uart) (fuel : ℕ) (port : U16) : List U8 → List Io → Option (List Io)
  | [], h => some h
  | a :: str, h => (writeSerial uart fuel port a h).bind (writeAll uart fuel port str)

/-- `serial_log`.  The string ends at its first 0, or at the end of the list, where the 0 is left out.
The bytes are written to COM1, not to `port`. -/
def serialLog (uart : Uart) (fuel : ℕ) (port : U16) : List U8 → List Io → Option (List Io)
  | [], h => some h
  | a :: str, h =>
    if a = 0 then some h
    else (writeSerial uart fuel COM1 a h).bind (serialLog uart fuel port str)

end Bintos
