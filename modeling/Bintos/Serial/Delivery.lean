import Bintos.Log.Format
import Bintos.Serial.Source

/-!
# What arrives at the serial port

`write_serial` writes a byte after it has read a status with the bit for an empty transmit register.
`serial_log` delivers its string so, but always at COM1: it keeps what it promises for its port exactly
when that is COM1, or the string is empty (`serialLog_delivers_iff`).
-/

namespace Bintos

/-- The port and the value of a write. -/
def Io.written : Io → Option (U16 × U8)
  | .inb _ _ => none
  | .outb port val => some (port, val)

def Io.isRead : Io → Bool
  | .inb _ _ => true
  | .outb _ _ => false

/-- Every write comes after a read of the status with the bit 0x20 set, and no other write between. -/
def Polled (port : U16) : List Io → Prop
  | [] => True
  | .inb _ _ :: h => Polled port h
  | .outb _ _ :: h =>
    (∃ status, status &&& 0x20#8 ≠ 0 ∧ Io.inb (port + 5) status ∈ h.takeWhile Io.isRead) ∧
      Polled port h

/-- The accesses deliver the string at the port: the writes are those of its bytes in order, to the data
register of the port, each after the status was ready, and nothing else is accessed. -/
structure Delivered (port : U16) (str : List U8) (h : List Io) : Prop where
  writes : h.filterMap Io.written = (str.map fun a => (port, a)).reverse
  polled : Polled port h
  access : ∀ e ∈ h, (∃ status, e = .inb (port + 5) status) ∨ ∃ a, e = .outb port a

/-- At first and after each write to the port, the status that is read becomes ready after some number
of reads. -/
def Responsive (uart : Uart) (port : U16) : Prop :=
  ∀ h : List Io, (∀ e ∈ h.head?, ∃ a, e = .outb port a) →
    ∃ n, isTransmitEmpty uart port ((readStatus uart port)^[n] h) = true

section Delivery

variable {uart : Uart} {fuel n : ℕ} {port : U16} {a : U8} {str more : List U8} {h h' : List Io}

theorem delivered_nil (port : U16) : Delivered port [] [] :=
  ⟨rfl, trivial, fun _ e => (List.not_mem_nil e).elim⟩

/-- Reads of the status deliver nothing. -/
theorem Delivered.readStatus (delivered : Delivered port str h) (uart : Uart) :
    Delivered port str (readStatus uart port h) :=
  ⟨delivered.writes, delivered.polled,
    List.forall_mem_cons.2 ⟨Or.inl ⟨_, rfl⟩, delivered.access⟩⟩

theorem Delivered.iterate (delivered : Delivered port str h) (uart : Uart) (n : ℕ) :
    Delivered port str ((Bintos.readStatus uart port)^[n] h) := by
  induction n with
  | zero => exact delivered
  | succ n ih =>
    rw [Function.iterate_succ_apply']
    exact ih.readStatus uart

/-- A byte is delivered after the string before it. -/
theorem Delivered.writeSerial (delivered : Delivered port str h)
    (returns : writeSerial uart fuel port a h = some h') : Delivered port (str ++ [a]) h' := by
  obtain ⟨t, loop, rfl⟩ := Option.map_eq_some_iff.1 returns
  obtain ⟨n, -, rfl, full, -⟩ := whileLoop_eq_some_iff.1 loop
  rw [Bool.not_eq_false'] at full
  have ready := of_decide_eq_true full
  have before := (delivered.iterate uart n).readStatus uart
  refine ⟨?_, ⟨⟨_, ready, List.mem_cons_self⟩, before.polled⟩,
    List.forall_mem_cons.2 ⟨Or.inr ⟨a, rfl⟩, before.access⟩⟩
  rw [List.map_append, List.reverse_append, ← before.writes]
  rfl

theorem Delivered.writeAll (delivered : Delivered port str h)
    (returns : writeAll uart fuel port more h = some h') : Delivered port (str ++ more) h' := by
  induction more generalizing str h with
  | nil =>
    cases returns
    rwa [List.append_nil]
  | cons a more ih =>
    obtain ⟨t, first, rest⟩ := Option.bind_eq_some_iff.1 returns
    rw [List.append_cons]
    exact ih (delivered.writeSerial first) rest

/-- On a responsive port, `write_serial` returns. -/
theorem exists_writeSerial (responsive : Responsive uart port)
    (written : ∀ e ∈ h.head?, ∃ a, e = .outb port a) (a : U8) :
    ∃ n h', ∀ fuel, n < fuel → Bintos.writeSerial uart fuel port a h = some (.outb port a :: h') := by
  obtain ⟨n, ready⟩ := responsive h written
  have ends : ∃ n, (!isTransmitEmpty uart port ((Bintos.readStatus uart port)^[n] h)) = false :=
    ⟨n, by rw [ready]; rfl⟩
  obtain ⟨m, -, -, loop⟩ := @exists_whileLoop _ (fun h => !isTransmitEmpty uart port h) _ h ends
  exact ⟨m, _, fun fuel enough => by rw [Bintos.writeSerial, loop fuel enough]; rfl⟩

theorem exists_writeAll (responsive : Responsive uart port)
    (written : ∀ e ∈ h.head?, ∃ a, e = .outb port a) (str : List U8) :
    ∃ n h', ∀ fuel, n < fuel → Bintos.writeAll uart fuel port str h = some h' := by
  induction str generalizing h with
  | nil => exact ⟨0, h, fun _ _ => rfl⟩
  | cons a str ih =>
    obtain ⟨n, t, first⟩ := exists_writeSerial responsive written a
    have after : ∀ e ∈ (Io.outb port a :: t).head?, ∃ a, e = .outb port a := by
      rintro e ⟨⟩
      exact ⟨a, rfl⟩
    obtain ⟨m, h', rest⟩ := ih after
    refine ⟨max n m, h', fun fuel enough => ?_⟩
    rw [Bintos.writeAll, first fuel (by omega)]
    exact rest fuel (by omega)

/-- On a responsive port the bytes of a list are delivered. -/
theorem writeAll_delivers (responsive : Responsive uart port) (str : List U8) :
    ∃ n h, (∀ fuel, n < fuel → Bintos.writeAll uart fuel port str [] = some h) ∧
      Delivered port str h := by
  obtain ⟨n, h, returns⟩ := @exists_writeAll uart port [] responsive (fun _ none => by cases none) str
  exact ⟨n, h, returns, (delivered_nil port).writeAll (returns _ (Nat.lt_succ_self n))⟩

end Delivery

/-! ### Strings -/

section Strings

variable {uart : Uart} {fuel : ℕ} {port : U16} {h : List Io}

theorem serialLog_eq {str : List U8} (noNul : 0 ∉ str) :
    serialLog uart fuel port str h = writeAll uart fuel COM1 str h := by
  induction str generalizing h with
  | nil => rfl
  | cons a str ih =>
    rw [List.mem_cons, not_or] at noNul
    rw [serialLog, writeAll, if_neg (Ne.symm noNul.1)]
    exact congrArg _ (funext fun t => ih noNul.2)

/-- **Serial logging.**  When the status at the port becomes ready after every write, `serial_log`
returns and delivers its string at the port, exactly when the port is COM1 or the string is empty. -/
theorem serialLog_delivers_iff (responsive : Responsive uart port) (s : CString) :
    (∃ n, ∀ fuel, n < fuel →
        ∃ h, serialLog uart fuel port s.bytes [] = some h ∧ Delivered port s.bytes h) ↔
      port = COM1 ∨ s.bytes = [] := by
  simp only [serialLog_eq s.noNul]
  constructor
  · rintro ⟨n, returns⟩
    obtain ⟨h, run, delivered⟩ := returns _ (Nat.lt_succ_self n)
    have at_com1 := (delivered_nil COM1).writeAll run
    have same := List.reverse_injective (delivered.writes.symm.trans at_com1.writes)
    cases bytes : s.bytes with
    | nil => exact Or.inr rfl
    | cons a str =>
      rw [bytes, List.nil_append, List.map_cons, List.map_cons] at same
      exact Or.inl (congrArg Prod.fst (List.cons.inj same).1)
  · rintro (rfl | empty)
    · obtain ⟨n, h, returns, delivered⟩ := writeAll_delivers responsive s.bytes
      exact ⟨n, fun fuel enough => ⟨h, returns fuel enough, delivered⟩⟩
    · rw [empty]
      exact ⟨0, fun _ _ => ⟨[], rfl, delivered_nil port⟩⟩

/-- A UART that is ready at once. -/
theorem ready_delivers : ∃ n, ∀ fuel, n < fuel → ∃ h,
    serialLog (fun _ _ => 0x20) fuel COM1 [72, 105] [] = some h ∧ Delivered COM1 [72, 105] h :=
  (@serialLog_delivers_iff _ COM1 (fun _ _ => ⟨0, decide_eq_true (by decide)⟩)
    ⟨[72, 105], by decide⟩).2 (Or.inl rfl)

/-- A string for COM2 is written to COM1. -/
theorem com2_not_delivered : ¬ ∃ n, ∀ fuel, n < fuel → ∃ h,
    serialLog (fun _ _ => 0x20) fuel 0x2f8 [72] [] = some h ∧ Delivered 0x2f8 [72] h := by
  rintro ⟨n, returns⟩
  obtain ⟨h, run, delivered⟩ := returns _ (Nat.lt_succ_self n)
  rw [serialLog_eq (by decide)] at run
  have at_com1 := (delivered_nil COM1).writeAll run
  exact absurd (delivered.writes.symm.trans at_com1.writes) (by decide)

end Strings

end Bintos
