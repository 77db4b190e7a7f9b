import Bintos.Machine

/-!
# Logging (`logf` in `lib/stdlib.c`)

`logf` interprets a format and writes to the serial port COM1.  A byte of the format is given by its
offset.  The arguments after the format are the 64-bit words that `va_arg` fetches one after the other.
The state keeps the bytes given to `write_serial`, and for specifications the arguments fetched and the
offsets of the format read.
-/

namespace Bintos

/-- `log_level` -/
inductive LogLevel where
  | info
  | warn
  | error
  | debug
  | numLevels
  deriving DecidableEq, Repr

/-- The conversions that fetch an argument. -/
inductive Conversion where
  /-- `%s` -/
  | s
  /-- `%d` -/
  | d
  /-- `%x` -/
  | x
  /-- `%ld` -/
  | ld
  /-- `%lx` -/
  | lx
  deriving DecidableEq, Repr

/-- Why a run of `logf` ends without returning. -/
inductive LogFault where
  /-- A store past the end of `buffer`. -/
  | overrun
  /-- The step budget of the scan was used up. -/
  | outOfFuel
  deriving DecidableEq, Repr

/-- The arguments after the format. -/
structure VaList where
  /-- the words that are fetched -/
  word : ℕ → U64
  /-- the bytes of the string that a word points to, up to the NUL -/
  string : U64 → List U8

/-- The state of `logf`. -/
structure Log where
  /-- the bytes given to `write_serial` for COM1, in order -/
  out : List U8
  /-- `buffer`, by offset -/
  buffer : ℕ → U8
  /-- the word that `va_arg` fetches next -/
  next : ℕ
  /-- the words fetched, each with the conversion it was fetched for, in order -/
  fetched : List (Conversion × ℕ)
  /-- the offsets of the format that were read, the last one first -/
  reads : List ℕ

/-- The state at the call, with what `buffer` holds at first. -/
def Log.start (buffer : ℕ → U8) : Log := ⟨[], buffer, 0, [], []⟩

/-- A computation of `logf`. -/
abbrev LogM (β : Type) := EStateM LogFault Log β

/-- The byte of an ASCII character. -/
def ch (c : Char) : U8 := BitVec.ofNat 8 c.toNat

/-- The bytes of an ASCII text. -/
def ascii (text : String) : List U8 := text.toList.map ch

/-! ## Accesses -/

/-- `*str` at an offset of the format. -/
def readFormat (format : ℕ → U8) (str : ℕ) : LogM U8 := fun s =>
  .ok (format str) { s with reads := str :: s.reads }

/-- `va_arg(args, …)` for a conversion. -/
def vaArg (args : VaList) (c : Conversion) : LogM U64 := fun s =>
  .ok (args.word s.next) { s with next := s.next + 1, fetched := s.fetched ++ [(c, s.next)] }

/-- `write_serial(COM1, a)` -/
def writeCom1 (a : U8) : LogM Unit := fun s => .ok () { s with out := s.out ++ [a] }

/-- `serial_log(COM1, str)`; the string ends at its first 0, or at the end of the list, where the 0 is
left out. -/
def logCom1 : List U8 → LogM Unit
  | [] => pure ()
  | a :: str => if a = 0 then pure () else do
    writeCom1 a
    logCom1 str

/-- `buffer[i] = a` -/
def storeBuffer (i : ℕ) (a : U8) : LogM Unit := fun s =>
  if i < 32 then .ok () { s with buffer := Function.update s.buffer i a } else .error .overrun s

/-! ## Numbers -/

/-- `do { buffer[i++] = digit(arg); arg = rest(arg); } while (more(arg));`, with `room` bytes of `buffer`
from `i` on.  Returns `i`. -/
def digitLoop {w : ℕ} (digit : BitVec w → U8) (rest : BitVec w → BitVec w) (more : BitVec w → Bool) :
    ℕ → ℕ → BitVec w → LogM ℕ
  | 0, _, _ => throw .overrun
  | room + 1, i, arg => do
    storeBuffer i (digit arg)
    if more (rest arg) then digitLoop digit rest more room (i + 1) (rest arg) else pure (i + 1)

/-- `for (int j = i - 1; j >= 0; --j) write_serial(COM1, buffer[j]);` -/
def printBuffer : ℕ → LogM Unit
  | 0 => pure ()
  | j + 1 => do
    writeCom1 ((← get).buffer j)
    printBuffer j

/-- `'0' + (arg % 10)` for an `int` -/
def intDigit (arg : U32) : U8 := (48 + arg.srem 10).setWidth 8

/-- `'0' + (arg % 10)` for a `uint64_t` -/
def longDigit (arg : U64) : U8 := (48 + arg % 10).setWidth 8

/-- `nibble < 10 ? ('0' + nibble) : ('a' + (nibble - 10))` for `int nibble = arg % 16` -/
def hexDigit {w : ℕ} (arg : BitVec w) : U8 :=
  let nibble : U32 := (arg % 16).setWidth 32
  (if nibble.slt 10 then 48 + nibble else 97 + (nibble - 10)).setWidth 8

/-- The case of `%d`, from the argument on. -/
def logInt (arg : U32) : LogM Unit := do
  let isNegative := arg.slt 0
  let arg := if isNegative then -arg else arg
  if isNegative then writeCom1 (ch '-')
  let i ← digitLoop intDigit (·.sdiv 10) (fun arg => BitVec.slt 0 arg) 32 0 arg
  printBuffer i

/-- The cases of `%x` and `%lx`, from the argument on. -/
def logHex {w : ℕ} (arg : BitVec w) : LogM Unit := do
  let i ← digitLoop hexDigit (· / 16) (fun arg => decide (0 < arg)) 32 0 arg
  printBuffer i

/-- The case of `%ld`, from the argument on.  The comparison is the one of `uint64_t`. -/
def logLong (arg : U64) : LogM Unit := do
  let isNegative := decide (arg < 0)
  let arg := if isNegative then -arg else arg
  if isNegative then writeCom1 (ch '-')
  let i ← digitLoop longDigit (· / 10) (fun arg => decide (0 < arg)) 32 0 arg
  printBuffer i

/-! ## The format -/

/-- What a conversion writes for its argument. -/
def logValue (args : VaList) (c : Conversion) (arg : U64) : LogM Unit :=
  match c with
  | .s => if arg ≠ 0 then logCom1 (args.string arg) else pure ()
  | .d => logInt (arg.setWidth 32)
  | .x => logHex (arg.setWidth 32)
  | .ld => logLong arg
  | .lx => logHex arg

/-- A conversion: it fetches its argument and writes it. -/
def logArg (args : VaList) (c : Conversion) : LogM Unit := do
  logValue args c (← vaArg args c)

/-- The case of `%l`, with `str` at the `l`.  Returns `str`. -/
def logLongCase (format : ℕ → U8) (args : VaList) (str : ℕ) : LogM ℕ := do
  if (← readFormat format (str + 1)) ≠ 0 then
    let c ← readFormat format (str + 1)
    if c = ch 'd' then logArg args .ld
    else if c = ch 'x' then logArg args .lx
    else
      writeCom1 (ch '%')
      writeCom1 (ch 'l')
      writeCom1 (← readFormat format (str + 1))
    return str + 1
  else
    return str

/-- The `switch` after `%`, with `str` at the character after it.  Returns `str`. -/
def logCase (format : ℕ → U8) (args : VaList) (str : ℕ) : LogM ℕ := do
  let c ← readFormat format str
  if c = ch 's' then
    logArg args .s
    return str
  else if c = ch 'd' then
    logArg args .d
    return str
  else if c = ch 'x' then
    logArg args .x
    return str
  else if c = ch 'l' then
    logLongCase format args str
  else
    writeCom1 (ch '%')
    writeCom1 (← readFormat format str)
    return str

/-- `*str == '%' && *(str + 1)` -/
def isConversion (format : ℕ → U8) (str : ℕ) : LogM Bool := do
  if (← readFormat format str) = ch '%' then
    return decide ((← readFormat format (str + 1)) ≠ 0)
  else
    return false

/-- The loop over the format, with a budget for its rounds. -/
def logScan (format : ℕ → U8) (args : VaList) : ℕ → ℕ → LogM Unit
  | 0, _ => throw .outOfFuel
  | fuel + 1, str => do
    if (← readFormat format str) ≠ 0 then
      if ← isConversion format str then
        let str ← logCase format args (str + 1)
        logScan format args fuel (str + 1)
      else
        writeCom1 (← readFormat format str)
        logScan format args fuel (str + 1)

/-- The text for a level; there is none for `NUM_LEVELS`. -/
def levelText : LogLevel → List U8
  | .info => ascii "[INFO]\t\t"
  | .warn => ascii "[WARN]\t\t"
  | .error => ascii "[ERROR]\t\t"
  | .debug => ascii "[DEBUG]\t\t"
  | .numLevels => []

/-- `logf` -/
def logf (l : LogLevel) (format : ℕ → U8) (args : VaList) (fuel : ℕ) : LogM Unit := do
  logCom1 (levelText l)
  logScan format args fuel 0

end Bintos
