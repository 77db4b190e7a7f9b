import Bintos.Int.Timer
import Bintos.Lib.Peripheral
import Bintos.Lib.Words
import Bintos.Log.Ports

/-!
# The rate of the timer (`int/timer.c`)

`pit_timer_init` programs channel 0 of the timer chip, a count of which takes two writes.  Whatever the
chip was doing before, even between the two writes of another count, it then ticks with a period that
`pit_timer_init` has computed.  The period is the one of the frequency it was asked for exactly when that
is at least 19 Hz (`pit_ticks_iff`).
-/

namespace Bintos

open Peripheral

/-- `PIT_MCLK_FREQ` -/
def pitMclkFreq : U32 := 1193180
/-- `PIT_CMD` -/
def pitCmd : U16 := 0x43
/-- `PIT_CH0` -/
def pitCh0 : U16 := 0x40

/-- `divisor` in `pit_timer_init` -/
def pitDivisor (hertz : U16) : U16 := (pitMclkFreq / hertz.setWidth 32).setWidth 16

def pitLine (hertz : U16) : LogCall where
  level := .info
  format := ⟨ascii "Initialized PIT timer to tick @ %dHz\n", by decide⟩
  args := .ofWords [hertz.setWidth 64]

/-- `pit_timer_init`, with the value of `hz` after it; `none` when it divides by zero. -/
def pitTimerInit (o : Outside) (hertz : U16) : Option (PortM U16) :=
  if hertz = 0 then none
  else some do
    let divisor := pitDivisor hertz
    outb pitCmd 0x36
    outb pitCh0 ((divisor &&& 0xFF).setWidth 8)
    outb pitCh0 ((divisor >>> 8).setWidth 8)
    logfPorts o (pitLine hertz)
    return hertz

/-! ### The chip -/

/-- Channel 0 of the timer chip. -/
structure PitChannel where
  /-- how it counts; 3 is for a square wave -/
  mode : BitVec 3
  bcd : Bool
  /-- the bytes of a count that are written: 1 is for the low one, 2 for the high one, 3 for both -/
  bytes : BitVec 2
  /-- the low byte of a count whose high byte is not yet written -/
  low : Option U8
  /-- the count that was written last, if there is one since the last command -/
  count : Option U16
  /-- the clocks since the count was written -/
  clocks : ℕ
  deriving DecidableEq, Repr

namespace PitChannel

/-- A command.  It may be for another channel, or only latch the count for a read. -/
def command (c : PitChannel) (val : U8) : PitChannel :=
  if val.extractLsb' 6 2 ≠ 0 ∨ val.extractLsb' 4 2 = 0 then c
  else {
    mode := val.extractLsb' 1 3
    bcd := val.getLsbD 0
    bytes := val.extractLsb' 4 2
    low := none
    count := none
    clocks := 0 }

def load (c : PitChannel) (count : U16) : PitChannel :=
  { c with low := none, count := some count, clocks := 0 }

/-- A byte of a count. -/
def data (c : PitChannel) (val : U8) : PitChannel :=
  match c.bytes.toNat, c.low with
  | 1, _ => c.load (val.setWidth 16)
  | 2, _ => c.load (val ++ (0 : U8))
  | 3, none => { c with low := some val }
  | 3, some low => c.load (val ++ low)
  | _, _ => c

/-- The chip, with a clock as the only event. -/
def chip : Peripheral PitChannel Io Unit where
  access c
    | .inb _ _ => c
    | .outb port val => if port = pitCmd then c.command val else if port = pitCh0 then c.data val else c
  event c _ := if c.count.isSome then { c with clocks := c.clocks + 1 } else c

/-- The clocks of a binary count; 0 stands for 65536. -/
def period (count : U16) : ℕ := if count = 0 then 65536 else count.toNat

/-- The clocks of a count of four decimal digits; 0 stands for 10000. -/
def decimalPeriod (count : U16) : ℕ :=
  if count = 0 then 10000
  else 1000 * (count.toNat / 4096) + 100 * (count.toNat / 256 % 16) + 10 * (count.toNat / 16 % 16) +
    count.toNat % 16

/-- The ticks since the count was written.  In the modes 0 and 4 the end of the count is the only one, and
in the modes 1 and 5 the channel waits for its gate, which is not used here.  In the others the channel
counts again and again. -/
def ticks (c : PitChannel) : ℕ :=
  match c.count with
  | none => 0
  | some count =>
    let clocks := if c.bcd then decimalPeriod count else period count
    match c.mode.toNat with
    | 0 | 4 => if clocks ≤ c.clocks then 1 else 0
    | 1 | 5 => 0
    | _ => c.clocks / clocks

/-- A square wave after some clocks. -/
def squareWave (count : U16) (clocks : ℕ) : PitChannel := ⟨3, false, 3, none, some count, clocks⟩

theorem ticks_squareWave (count : U16) (clocks : ℕ) :
    (squareWave count clocks).ticks = clocks / period count := rfl

example : [0x30, 0x36, 0x37].map (fun command : U8 =>
    ({ ((squareWave 0 0).command command).load 0x10 with clocks := 40 } : PitChannel).ticks) =
      [1, 2, 4] := by
  decide

section Chip

variable {c : PitChannel} {count : U16} {clocks : ℕ} {events : List Unit}

/-- Clocks change nothing but their number. -/
theorem settle_none (waits : c.count = none) : chip.settle c events = c :=
  settle_induction (I := (· = c)) rfl fun t _ _ same => by
    rw [same]
    exact if_neg (by rw [waits]; decide)

theorem settle_squareWave (count : U16) (clocks : ℕ) (events : List Unit) :
    chip.settle (squareWave count clocks) events = squareWave count (clocks + events.length) := by
  induction events generalizing clocks with
  | nil => rfl
  | cons e events ih =>
    show chip.settle (squareWave count (clocks + 1)) events = _
    rw [ih, List.length_cons, Nat.add_assoc, Nat.add_comm 1]

/-- An access to another device. -/
def Elsewhere (x : Io) : Prop := ∀ port val, x = .outb port val → port ≠ pitCmd ∧ port ≠ pitCh0

theorem access_elsewhere {x : Io} (elsewhere : Elsewhere x) (c : PitChannel) : chip.access c x = c := by
  cases x with
  | inb port val => rfl
  | outb port val =>
    obtain ⟨command, data⟩ := elsewhere port val rfl
    show (if port = pitCmd then c.command val else if port = pitCh0 then c.data val else c) = c
    rw [if_neg command, if_neg data]

/-- The clocks from the accesses `h` on, when the accesses `later` have come after them. -/
def clocksSince (env : List Io → List Unit) (h : List Io) : List Io → ℕ
  | [] => (env h).length
  | x :: later => clocksSince env h later + (env (x :: (later ++ h))).length

variable {env : List Io → List Unit} {h later : List Io}

/-- Accesses to other devices do not disturb the wave. -/
theorem now_elsewhere (wave : chip.now env c h = squareWave count (clocksSince env h []))
    (elsewhere : ∀ x ∈ later, Elsewhere x) :
    chip.now env c (later ++ h) = squareWave count (clocksSince env h later) := by
  induction later with
  | nil => exact wave
  | cons x later ih =>
    rw [List.forall_mem_cons] at elsewhere
    rw [List.cons_append, now_cons, ih elsewhere.2, access_elsewhere elsewhere.1, settle_squareWave]
    rfl

/-- The writes of `pit_timer_init`, the last one first. -/
def pitWrites (divisor : U16) : List Io :=
  [.outb pitCh0 ((divisor >>> 8).setWidth 8), .outb pitCh0 ((divisor &&& 0xFF).setWidth 8),
    .outb pitCmd 0x36]

/-- Whatever the chip was doing, after the writes it makes a square wave. -/
theorem now_pitWrites (env : List Io → List Unit) (c : PitChannel) (divisor : U16) (h : List Io) :
    chip.now env c (pitWrites divisor ++ h) =
      squareWave divisor (clocksSince env (pitWrites divisor ++ h) []) := by
  have bytes : (divisor >>> 8).setWidth 8 ++ (divisor &&& 0xFF).setWidth 8 = divisor := by
    have low : (divisor &&& 0xFF).setWidth 8 = divisor.setWidth 8 :=
      BitVec.setWidth_and.trans BitVec.and_allOnes
    rw [low, Words.setWidth_ushiftRight_append]
    exact BitVec.setWidth_eq divisor
  let ready : PitChannel := ⟨3, false, 3, none, none, 0⟩
  have first : chip.now env c (.outb pitCmd 0x36 :: h) = ready := by
    rw [now_cons]
    exact settle_none rfl
  let half : PitChannel := { ready with low := some ((divisor &&& 0xFF).setWidth 8) }
  have second : chip.now env c (.outb pitCh0 ((divisor &&& 0xFF).setWidth 8) :: .outb pitCmd 0x36 :: h) =
      half := by
    rw [now_cons, first]
    exact settle_none rfl
  show chip.now env c (.outb pitCh0 ((divisor >>> 8).setWidth 8) ::
    .outb pitCh0 ((divisor &&& 0xFF).setWidth 8) :: .outb pitCmd 0x36 :: h) = _
  rw [now_cons, second]
  have last : chip.access half (.outb pitCh0 ((divisor >>> 8).setWidth 8)) = squareWave divisor 0 := by
    show half.load ((divisor >>> 8).setWidth 8 ++ (divisor &&& 0xFF).setWidth 8) = _
    rw [bytes]
    rfl
  rw [last, settle_squareWave, Nat.zero_add]
  rfl

end Chip

end PitChannel

/-! ### The rate -/

section Rate

open PitChannel

variable {hertz : U16}

/-- From 19 Hz on the divisor has 16 bits. -/
theorem period_pitDivisor_iff (positive : hertz ≠ 0) :
    period (pitDivisor hertz) = 1193180 / hertz.toNat ↔ 19 ≤ hertz.toNat := by
  have value : (pitDivisor hertz).toNat = 1193180 / hertz.toNat % 65536 := by
    rw [pitDivisor, BitVec.toNat_setWidth, BitVec.toNat_udiv, BitVec.toNat_setWidth_of_le (by decide)]
    rfl
  have nonzero : 0 < hertz.toNat := Nat.pos_of_ne_zero fun zero => positive (BitVec.eq_of_toNat_eq zero)
  have least : 1193180 / 65535 ≤ 1193180 / hertz.toNat :=
    Nat.div_le_div_left (Nat.le_of_lt_succ hertz.isLt) nonzero
  have short : period (pitDivisor hertz) ≤ 65536 := by
    have bound := (pitDivisor hertz).isLt
    unfold period
    split_ifs <;> omega
  constructor
  · intro same
    by_contra slow
    have long : 1193180 / 18 ≤ 1193180 / hertz.toNat := Nat.div_le_div_left (by omega) nonzero
    omega
  · intro fast
    have fits : 1193180 / hertz.toNat ≤ 1193180 / 19 := Nat.div_le_div_left fast (by decide)
    have count : (pitDivisor hertz).toNat = 1193180 / hertz.toNat := by omega
    rw [period, if_neg, count]
    intro zero
    rw [zero] at count
    have zero : (0 : U16).toNat = 0 := rfl
    omega

theorem run_pitTimerInit (o : Outside) (positive : hertz ≠ 0) (h : List Io) {h' : List Io}
    (logged : (logfPorts o (pitLine hertz)).run (pitWrites (pitDivisor hertz) ++ h) = .ok () h') :
    ∃ init, pitTimerInit o hertz = some init ∧ init.run h = .ok hertz h' := by
  have write (port : U16) (val : U8) (h : List Io) :
      (outb port val).run h = .ok () (.outb port val :: h) := rfl
  refine ⟨_, if_neg positive, ?_⟩
  generalize pitLine hertz = line at logged ⊢
  rw [pitWrites, List.cons_append, List.cons_append, List.singleton_append] at logged
  simp only [EStateM.run_bind, write, logged]
  rfl

/-- **The timer.**  `pit_timer_init` returns when COM1 becomes ready again and again.  Whatever channel 0
was doing before, until it is accessed again it ticks once in every period since the count was written.
The period is that of the frequency that was asked for exactly from 19 Hz on. -/
theorem pit_ticks_iff (positive : hertz ≠ 0) {o : Outside} (drains : Drains o.uart COM1)
    (env : List Io → List Unit) (c : PitChannel) (h : List Io) :
    (∃ n d, Delivered COM1 (pitLine hertz).text d ∧
      (∀ fuel, n < fuel → ∃ init, pitTimerInit { o with fuel } hertz = some init ∧
        init.run h = .ok hertz (d ++ (pitWrites (pitDivisor hertz) ++ h))) ∧
      ∀ later, (∀ x ∈ later, Elsewhere x) →
        (chip.now env c (later ++ (d ++ (pitWrites (pitDivisor hertz) ++ h)))).ticks =
          clocksSince env (pitWrites (pitDivisor hertz) ++ h) (later ++ d) /
            period (pitDivisor hertz)) ∧
    (period (pitDivisor hertz) = 1193180 / hertz.toNat ↔ 19 ≤ hertz.toNat) := by
  refine ⟨?_, period_pitDivisor_iff positive⟩
  obtain ⟨n, d, delivered, logged⟩ :=
    drains.exists_logfPorts (pitLine hertz) (pitWrites (pitDivisor hertz) ++ h)
  refine ⟨n, d, delivered, fun fuel enough => run_pitTimerInit _ positive h (logged fuel enough),
    fun later elsewhere => ?_⟩
  have log : ∀ x ∈ d, Elsewhere x := by
    intro x hx port val write
    rcases delivered.access x hx with ⟨status, read⟩ | ⟨a, same⟩
    · rw [read] at write
      cases write
    · rw [same] at write
      cases write
      exact ⟨by decide, by decide⟩
  have still := now_elsewhere (now_pitWrites env c (pitDivisor hertz) h) fun x hx =>
    (List.mem_append.1 hx).elim (elsewhere x) (log x)
  rw [List.append_assoc] at still
  rw [still, ticks_squareWave]

/-- 100 Hz, in the middle of the write of another count, with a clock between any two accesses. -/
theorem pit_ticks_hundred : ∃ n d, Delivered COM1 (pitLine 100).text d ∧
    (∀ fuel, n < fuel → ∃ init, pitTimerInit ⟨fun _ _ => 0x20, fuel, fun _ => 0, []⟩ 100 = some init ∧
      init.run [] = .ok 100 (d ++ (pitWrites 11931 ++ []))) ∧
    ∀ later, (∀ x ∈ later, Elsewhere x) →
      (chip.now (fun _ => [()]) ⟨2, false, 3, some 7, none, 0⟩ (later ++ (d ++ (pitWrites 11931 ++ [])))).ticks =
        clocksSince (fun _ => [()]) (pitWrites 11931 ++ []) (later ++ d) / 11931 :=
  (pit_ticks_iff (o := ⟨fun _ _ => 0x20, 0, fun _ => 0, []⟩) (by decide)
    (fun _ => ⟨0, show decide ((0x20 : U8) &&& 0x20 ≠ 0) = true by decide⟩) (fun _ => [()])
    ⟨2, false, 3, some 7, none, 0⟩ []).1

end Rate

end Bintos
