import Bintos.Serial.Line

/-!
# What `init_serial` establishes

`init_serial` sets the registers, sends a test byte to the chip itself and reads it back at once.  On a
quiet line it succeeds exactly when the chip has looped the byte back by then.  In this case the chip is
left on the line without the test byte, and otherwise it is left in loopback mode, where nothing that is
written goes to the line (`initSerial_iff`).
-/

namespace Bintos

open Peripheral

/-- The writes of `init_serial` up to the test byte, the last one first. -/
def initWrites (port : U16) : List Io :=
  [.outb (port + 0) 0xAE, .outb (port + 4) 0x1E, .outb (port + 4) 0x0B, .outb (port + 2) 0xC7,
    .outb (port + 3) 0x03, .outb (port + 1) 0x00, .outb (port + 0) 0x03, .outb (port + 3) 0x80,
    .outb (port + 1) 0x00]

theorem initSerial_eq (uart : Uart) (port : U16) (h : List Io) :
    initSerial uart port h =
      if uart (initWrites port ++ h) (port + 0) = 0xAE then
        (true, .outb (port + 4) 0x0F :: .inb (port + 0) 0xAE :: (initWrites port ++ h))
      else
        (false, .inb (port + 0) (uart (initWrites port ++ h) (port + 0)) ::
          (initWrites port ++ h)) := by
  let before := initWrites port ++ h
  show (if uart before (port + 0) ≠ 0xAE then (false, Io.inb (port + 0) (uart before (port + 0)) :: before)
    else (true, .outb (port + 4) 0x0F :: .inb (port + 0) (uart before (port + 0)) :: before)) = _
  rw [ite_not]
  split_ifs with same
  · rw [same]
  · rfl

namespace Chip

/-- No byte arrives from the line. -/
def Quiet (env : List Io → List ChipEvent) : Prop := ∀ h a, .arrive a ∉ env h

/-- The registers after `init_serial`, but for `mcr`.  With the divisor accessible at the call, the first
write does not go to `ier`. -/
def initSetting (r : ChipSetting) (mcr : U8) : ChipSetting where
  ier := if r.dlab then r.ier else 0
  lcr := 0x03
  mcr := mcr
  dll := 0x03
  dlm := 0x00
  fifo := true

/-- From `c` to `c'` some of the bytes that waited in `c` were sent, and no other. -/
structure Drained (c c' : Chip) : Prop where
  last : c'.last = c.last
  line : ∃ sent, c'.line = c.line ++ sent ∧ (sent ++ c'.sending).Sublist c.sending

/-- The chip with the test byte. -/
structure Testing (c t : Chip) : Prop where
  setting : t.setting = initSetting c.setting 0x1E
  sending : t.sending = [0xAE]
  received : t.received = []
  last : t.last = c.last
  line : ∃ sent, t.line = c.line ++ sent ∧ sent.Sublist c.sending

/-- `init_serial` has set up the chip `c`, and the test byte is not on the line. -/
structure Ready (c c' : Chip) : Prop where
  setting : c'.setting = initSetting c.setting 0x0F
  sending : c'.sending = []
  received : c'.received = []
  line : ∃ sent, c'.line = c.line ++ sent ∧ sent.Sublist c.sending

/-- Nothing was sent to the line from `c` to `c'`, and the registers are the same. -/
structure Silent (c c' : Chip) : Prop where
  setting : c'.setting = c.setting
  line : c'.line = c.line

/-! ### Events on a quiet line -/

section Quiet

variable {port : U16} {events : List ChipEvent} {c c' t : Chip} {a : U8} {e : ChipEvent}

theorem eq_shift (quiet : ∀ a, .arrive a ∉ events) (he : e ∈ events) : e = .shift := by
  cases e with
  | shift => rfl
  | arrive a => exact absurd he (quiet a)

theorem settle_idle (port : U16) (quiet : ∀ a, .arrive a ∉ events) (idle : c.sending = []) :
    (at_ port).settle c events = c :=
  settle_induction (I := (· = c)) rfl fun t e he same => by
    rw [eq_shift quiet he, same]
    exact shift_nil idle

/-- One byte is looped back by the first event. -/
theorem settle_test (port : U16) (quiet : ∀ a, .arrive a ∉ events) (sending : c.sending = [a])
    (received : c.received = []) (loopback : c.setting.loopback = true) :
    (at_ port).settle c events =
      if .shift ∈ events then
        { c with sending := [], received := [a], accepted := c.accepted ++ [a] }
      else c := by
  cases events with
  | nil => rfl
  | cons e events =>
    have first := eq_shift quiet List.mem_cons_self
    subst first
    have room : c.received.length < c.setting.room := by
      rw [received, ChipSetting.room]
      split_ifs <;> decide
    have looped : c.event .shift =
        { c with sending := [], received := [a], accepted := c.accepted ++ [a] } := by
      rw [shift_loopback sending loopback]
      show (if c.received.length < c.setting.room then _ else _) = _
      rw [if_pos room, received]
      rfl
    rw [if_pos List.mem_cons_self]
    show (at_ port).settle (c.event .shift) events = _
    rw [looped]
    exact settle_idle port (fun a he => quiet a (List.mem_cons_of_mem _ he)) rfl

theorem Drained.refl (c : Chip) : Drained c c :=
  ⟨rfl, [], (List.append_nil _).symm, List.Sublist.refl _⟩

/-- A write to a register that holds no data. -/
theorem Drained.write (drained : Drained c c') (last : t.last = c'.last) (line : t.line = c'.line)
    (sending : t.sending = c'.sending) : Drained c t := by
  obtain ⟨kept, sent, same, fewer⟩ := drained
  exact ⟨last.trans kept, sent, line.trans same, sending ▸ fewer⟩

theorem Drained.event (drained : Drained c c') (e : ChipEvent) : Drained c (c'.event e) := by
  obtain ⟨kept, sent, same, fewer⟩ := drained
  cases e with
  | shift =>
    cases next : c'.sending with
    | nil =>
      rw [shift_nil next]
      exact ⟨kept, sent, same, fewer⟩
    | cons a rest =>
      rw [next] at fewer
      cases mode : c'.setting.loopback with
      | false =>
        rw [shift_line next mode]
        refine ⟨kept, sent ++ [a], ?_, ?_⟩
        · rw [← List.append_assoc, ← same]
        · rw [← List.append_cons]
          exact fewer
      | true =>
        rw [shift_loopback next mode]
        refine ⟨(receive_last _ a).trans kept, sent, (receive_line _ a).trans same, ?_⟩
        rw [receive_sending]
        exact ((List.sublist_cons_self a rest).append_left sent).trans fewer
  | arrive a =>
    rw [Chip.event]
    split_ifs
    · exact ⟨kept, sent, same, fewer⟩
    · refine ⟨(receive_last _ a).trans kept, sent, (receive_line _ a).trans same, ?_⟩
      rw [receive_sending]
      exact fewer

theorem Drained.settle (drained : Drained c c') (port : U16) (events : List ChipEvent) :
    Drained c ((at_ port).settle c' events) :=
  settle_induction (I := Drained c) drained fun _ e _ here => here.event e

end Quiet

/-! ### The writes -/

section Writes

variable {port : U16} {env : List Io → List ChipEvent} {c c' t : Chip} {h : List Io} {k : U16} {val : U8}

theorem setting_write (c : Chip) (k : U16) (val : U8) :
    (c.write k val).setting = c.setting.write k val := by
  unfold Chip.write
  split_ifs <;> rfl

/-- A write that is not to the transmitter and not to the FIFO control. -/
theorem Drained.write_control (drained : Drained c c') (control : k ≠ 0 ∨ c'.setting.dlab = true)
    (other : k ≠ 2) : Drained c (c'.write k val) := by
  have not_data : ¬ (k = 0 ∧ c'.setting.dlab = false) := by
    rintro ⟨data, off⟩
    rw [control.resolve_left (not_not.2 data)] at off
    cases off
  rw [Chip.write, if_neg not_data, if_neg other]
  exact drained.write rfl rfl rfl

theorem setting_now_outb (port : U16) (env : List Io → List ChipEvent) (c : Chip) (k : U16) (val : U8)
    (h : List Io) : (c.now port env (.outb (port + k) val :: h)).setting =
      (c.now port env h).setting.write k val := by
  rw [now_outb, settle_setting, setting_write]

theorem Drained.outb (drained : Drained t (c.now port env h))
    (control : k ≠ 0 ∨ (c.now port env h).setting.dlab = true) (other : k ≠ 2) :
    Drained t (c.now port env (.outb (port + k) val :: h)) := by
  rw [now_outb]
  exact (drained.write_control control other).settle port _

/-- On a quiet line nothing happens after a write that leaves no byte waiting. -/
theorem now_outb_idle (quiet : Quiet env) (idle : ((c.now port env h).write k val).sending = []) :
    c.now port env (.outb (port + k) val :: h) = (c.now port env h).write k val := by
  rw [now_outb]
  exact settle_idle port (quiet _) idle

/-- The registers after the writes. -/
theorem write_initSetting (r : ChipSetting) :
    ((((((((((r.write 1 0x00).write 3 0x80).write 0 0x03).write 1 0x00).write 3 0x03).write 2 0xC7).write
      4 0x0B).write 4 0x1E).write 0 0xAE) = initSetting r 0x1E) := by
  have first : r.write 1 0x00 =
      { r with ier := if r.dlab then r.ier else 0, dlm := if r.dlab then 0 else r.dlm } := by
    cases divisor : r.dlab with
    | false => exact ChipSetting.write_ier divisor 0
    | true => exact ChipSetting.write_dlm divisor 0
  let open_ : ChipSetting := { r.write 1 0x00 with lcr := 0x80 }
  have on : open_.dlab = true := by
    show (0x80 : U8).getLsbD 7 = true
    decide
  have off : (initSetting r 0x1E).dlab = false := by
    show (0x03 : U8).getLsbD 7 = false
    decide
  have low : open_.write 0 0x03 = { open_ with dll := 0x03 } := ChipSetting.write_dll on 0x03
  have high : ({ open_ with dll := 0x03 } : ChipSetting).write 1 0x00 =
      { open_ with dll := 0x03, dlm := 0x00 } :=
    ChipSetting.write_dlm (r := { open_ with dll := 0x03 }) on 0x00
  rw [show (r.write 1 0x00).write 3 0x80 = open_ from rfl, low, high]
  have last : (((({ open_ with dll := 0x03, dlm := 0x00 } : ChipSetting).write 3 0x03).write 2
      0xC7).write 4 0x0B).write 4 0x1E = initSetting r 0x1E := by
    show ({ open_ with lcr := 0x03, mcr := 0x1E, dll := 0x03, dlm := 0x00, fifo := true } :
      ChipSetting) = _
    show ({ r.write 1 0x00 with
      lcr := 0x03, mcr := 0x1E, dll := 0x03, dlm := 0x00, fifo := true } : ChipSetting) = _
    rw [first]
    rfl
  rw [last]
  exact ChipSetting.write_data off 0xAE

/-- The chip comes to the test of `init_serial`, whatever it was doing before. -/
theorem exists_testing (port : U16) (quiet : Quiet env) (c : Chip) (h : List Io) :
    ∃ t, Testing (c.now port env h) t ∧ c.now port env (initWrites port ++ h) =
      (at_ port).settle t (env (initWrites port ++ h)) := by
  -- up to the write that makes the divisor inaccessible again
  let h₂ := Io.outb (port + 3) 0x80 :: .outb (port + 1) 0x00 :: h
  let h₃ := Io.outb (port + 0) 0x03 :: h₂
  let h₅ := Io.outb (port + 3) 0x03 :: .outb (port + 1) 0x00 :: h₃
  have s₂ : (c.now port env h₂).setting =
      ((c.now port env h).setting.write 1 0x00).write 3 0x80 := by
    rw [setting_now_outb, setting_now_outb]
  have s₅ : (c.now port env h₅).setting =
      ((((c.now port env h).setting.write 1 0x00).write 3 0x80).write 0 0x03 |>.write 1 0x00).write
        3 0x03 := by
    rw [setting_now_outb, setting_now_outb, setting_now_outb, s₂]
  have divisor : (c.now port env h₂).setting.dlab = true := by
    rw [s₂, ChipSetting.write_lcr]
    show (0x80 : U8).getLsbD 7 = true
    decide
  have d₂ : Drained (c.now port env h) (c.now port env h₂) :=
    ((Drained.refl _).outb (Or.inl (by decide)) (by decide)).outb (Or.inl (by decide)) (by decide)
  have d₃ : Drained (c.now port env h) (c.now port env h₃) := d₂.outb (Or.inr divisor) (by decide)
  have d₅ : Drained (c.now port env h) (c.now port env h₅) :=
    (d₃.outb (Or.inl (by decide)) (by decide)).outb (Or.inl (by decide)) (by decide)
  -- then both queues are cleared, and stay so up to the test byte
  have s₆ : c.now port env (.outb (port + 2) 0xC7 :: h₅) = (c.now port env h₅).write 2 0xC7 :=
    now_outb_idle quiet rfl
  have s₇ : c.now port env (.outb (port + 4) 0x0B :: .outb (port + 2) 0xC7 :: h₅) =
      ((c.now port env h₅).write 2 0xC7).write 4 0x0B := by
    rw [now_outb_idle quiet] <;> rw [s₆]
    rfl
  have s₈ : c.now port env (.outb (port + 4) 0x1E :: .outb (port + 4) 0x0B ::
      .outb (port + 2) 0xC7 :: h₅) =
      (((c.now port env h₅).write 2 0xC7).write 4 0x0B).write 4 0x1E := by
    rw [now_outb_idle quiet] <;> rw [s₇]
    rfl
  let u := (((c.now port env h₅).write 2 0xC7).write 4 0x0B).write 4 0x1E
  have setting : (u.write 0 0xAE).setting = initSetting (c.now port env h).setting 0x1E := by
    rw [← write_initSetting, setting_write, setting_write, setting_write, setting_write, s₅]
  have data : u.setting.dlab = false := by
    have kept : u.setting.lcr = 0x03 := by
      rw [setting_write, setting_write, setting_write, s₅]
      rfl
    rw [ChipSetting.dlab, kept]
    decide
  have given : u.write 0 0xAE = { u with sending := [0xAE] } := by
    rw [Chip.write, if_pos ⟨rfl, data⟩, ChipSetting.write_data data]
    rfl
  refine ⟨u.write 0 0xAE, ⟨setting, ?_, ?_, ?_, ?_⟩, ?_⟩
  · rw [given]
  · rw [given]
    rfl
  · rw [given]
    exact d₅.last
  · obtain ⟨sent, line, fewer⟩ := d₅.line
    rw [given]
    exact ⟨sent, line, (List.sublist_append_left _ _).trans fewer⟩
  · have last := now_outb port env c 0 0xAE (.outb (port + 4) 0x1E :: .outb (port + 4) 0x0B ::
      .outb (port + 2) 0xC7 :: h₅)
    rw [s₈] at last
    exact last

end Writes

/-! ### The result -/

section Result

variable {port : U16} {env : List Io → List ChipEvent} {c c' t : Chip} {h h' : List Io} {fuel : ℕ}
  {text : List U8}

theorem Silent.event (silent : Silent c c') (loopback : c.setting.loopback = true) (e : ChipEvent) :
    Silent c (c'.event e) := by
  have mode : c'.setting.loopback = true := by rw [silent.setting, loopback]
  refine ⟨(event_setting c' e).trans silent.setting, ?_⟩
  cases e with
  | shift =>
    cases next : c'.sending with
    | nil =>
      rw [shift_nil next]
      exact silent.line
    | cons a rest =>
      rw [shift_loopback next mode, receive_line]
      exact silent.line
  | arrive a =>
    rw [Chip.event, mode]
    exact silent.line

theorem Silent.settle (silent : Silent c c') (loopback : c.setting.loopback = true) (port : U16)
    (events : List ChipEvent) : Silent c ((at_ port).settle c' events) :=
  settle_induction (I := Silent c) silent fun _ e _ here => here.event loopback e

theorem Silent.write (silent : Silent c c') (data : c.setting.dlab = false) (a : U8) :
    Silent c (c'.write 0 a) := by
  have data : c'.setting.dlab = false := by rw [silent.setting, data]
  have setting : (c'.write 0 a).setting = c'.setting := by
    rw [setting_write, ChipSetting.write_data data]
  have line : (c'.write 0 a).line = c'.line := by
    rw [Chip.write, if_pos ⟨rfl, data⟩]
    split_ifs <;> rfl
  exact ⟨setting.trans silent.setting, line.trans silent.line⟩

/-- In loopback mode nothing that is written goes to the line. -/
theorem Silent.writeAll (silent : Silent t (c.now port env h)) (loopback : t.setting.loopback = true)
    (data : t.setting.dlab = false)
    (returns : writeAll (uart port env c) fuel port text h = some h') :
    Silent t (c.now port env h') := by
  induction text generalizing h with
  | nil =>
    cases returns
    exact silent
  | cons a text ih =>
    obtain ⟨u, first, rest⟩ := Option.bind_eq_some_iff.1 returns
    refine ih ?_ rest
    obtain ⟨v, loop, rfl⟩ := Option.map_eq_some_iff.1 first
    obtain ⟨n, -, rfl, -⟩ := whileLoop_eq_some_iff.1 loop
    have polled (n : ℕ) : Silent t (c.now port env ((readStatus (uart port env c) port)^[n] h)) := by
      induction n with
      | zero => exact silent
      | succ n ih =>
        rw [Function.iterate_succ_apply', now_readStatus]
        exact ih.settle loopback port _
    have given := now_outb port env c 0 a ((readStatus (uart port env c) port)^[n + 1] h)
    rw [add_zero, Function.iterate_succ_apply'] at given
    rw [given, ← Function.iterate_succ_apply' (readStatus (uart port env c) port)]
    exact ((polled (n + 1)).write data a).settle loopback port _

theorem dlab_initSetting (r : ChipSetting) (mcr : U8) : (initSetting r mcr).dlab = false := by
  show (0x03 : U8).getLsbD 7 = false
  decide

/-- The byte that the driver reads back. -/
theorem uart_data (port : U16) (env : List Io → List ChipEvent) (c : Chip) (h : List Io) :
    uart port env c h (port + 0) = ((c.now port env h).read 0).1 := by
  rw [uart, register_eq]

/-- The chip after the test when it has looped the test byte back. -/
theorem ready_of_looped (quiet : Quiet env) (testing : Testing c t)
    (looped : c'.now port env h = { t with
      sending := [], received := [0xAE], accepted := t.accepted ++ [0xAE] }) :
    ((c'.now port env h).read 0).1 = 0xAE ∧
      Ready c (c'.now port env (.outb (port + 4) 0x0F :: .inb (port + 0) 0xAE :: h)) := by
  have data : t.setting.dlab = false := by rw [testing.setting, dlab_initSetting]
  have taken : (c'.now port env h).read 0 = (0xAE, { t with
      sending := [], received := [], last := 0xAE, accepted := t.accepted ++ [0xAE] }) := by
    rw [looped]
    simp only [Chip.read, data]
    rfl
  have read := now_inb port env c' 0xAE h
  rw [taken, settle_idle port (quiet _) rfl] at read
  rw [add_zero, taken]
  refine ⟨rfl, ?_⟩
  have last : c'.now port env (.outb (port + 4) 0x0F :: .inb port 0xAE :: h) =
      (c'.now port env (.inb port 0xAE :: h)).write 4 0x0F := by
    apply now_outb_idle quiet
    rw [read]
    rfl
  rw [last, read]
  refine ⟨?_, rfl, rfl, testing.line⟩
  show { t.setting with mcr := 0x0F } = _
  rw [testing.setting]
  rfl

/-- The test succeeds when the chip has looped the test byte back before the driver reads it. -/
theorem initSerial_looped (quiet : Quiet env) (looped : .shift ∈ env (initWrites port ++ h)) :
    (initSerial (uart port env c) port h).1 = true ∧
      Ready (c.now port env h) (c.now port env (initSerial (uart port env c) port h).2) := by
  obtain ⟨t, testing, before⟩ := exists_testing port quiet c h
  have loopback : t.setting.loopback = true := by
    rw [testing.setting]
    show (0x1E : U8).getLsbD 4 = true
    decide
  rw [settle_test port (quiet _) testing.sending testing.received loopback, if_pos looped] at before
  have run := initSerial_eq (uart port env c) port h
  rw [uart_data] at run
  obtain ⟨answer, ready⟩ := ready_of_looped quiet testing before
  rw [run, answer, if_pos rfl]
  exact ⟨rfl, ready⟩

theorem Ready.connected (ready : Ready c c') : c'.setting.Connected := by
  rw [ready.setting]
  refine ⟨dlab_initSetting _ _, ?_⟩
  show (0x0F : U8).getLsbD 4 = false
  decide

/-- **Setting up the port.**  Whatever the chip was doing before, on a quiet line `init_serial` succeeds
exactly when the chip has looped the test byte back before the driver reads it.  Then the chip is set up
and on the line, and of all bytes only some that waited before the call were sent.  If it fails, the chip
stays in loopback mode, and nothing that is written later goes to the line. -/
theorem initSerial_iff (quiet : Quiet env) (stale : (c.now port env h).last ≠ 0xAE) :
    let result := initSerial (uart port env c) port h
    (result.1 = true ↔ .shift ∈ env (initWrites port ++ h)) ∧
    (result.1 = true → Ready (c.now port env h) (c.now port env result.2)) ∧
    (result.1 = false → (c.now port env result.2).setting.loopback = true ∧
      ∀ fuel text h', writeAll (uart port env c) fuel port text result.2 = some h' →
        (c.now port env h').setting.loopback = true ∧
          (c.now port env h').line = (c.now port env result.2).line) := by
  obtain ⟨t, testing, before⟩ := exists_testing port quiet c h
  have loopback : t.setting.loopback = true := by
    rw [testing.setting]
    show (0x1E : U8).getLsbD 4 = true
    decide
  have data : t.setting.dlab = false := by rw [testing.setting, dlab_initSetting]
  rw [settle_test port (quiet _) testing.sending testing.received loopback] at before
  by_cases looped : .shift ∈ env (initWrites port ++ h)
  · obtain ⟨succeeds, ready⟩ := @initSerial_looped port env c h quiet looped
    exact ⟨iff_of_true succeeds looped, fun _ => ready, fun failed => by
      rw [succeeds] at failed
      cases failed⟩
  · have run := initSerial_eq (uart port env c) port h
    rw [uart_data] at run
    rw [run]
    rw [if_neg looped] at before
    have answer : ((c.now port env (initWrites port ++ h)).read 0) = (t.last, t) := by
      rw [before]
      simp only [Chip.read, data, testing.received]
      rfl
    have wrong : t.last ≠ 0xAE := testing.last ▸ stale
    rw [answer, if_neg wrong]
    have after := now_inb port env c t.last (initWrites port ++ h)
    rw [answer] at after
    have silent : Silent t (c.now port env (.inb (port + 0) t.last :: (initWrites port ++ h))) := by
      rw [add_zero, after]
      exact Silent.settle ⟨rfl, rfl⟩ loopback port _
    refine ⟨iff_of_false Bool.false_ne_true looped, fun ok => absurd ok Bool.false_ne_true, fun _ => ?_⟩
    refine ⟨by rw [silent.setting, loopback], fun fuel text h' returns => ?_⟩
    have later := silent.writeAll loopback data returns
    exact ⟨by rw [later.setting, loopback], later.line.trans silent.line.symm⟩

/-- A chip with interrupts on, in the middle of a transmission. -/
def busyChip : Chip where
  setting := ⟨0x0F, 0x03, 0x0F, 0x01, 0x00, true⟩
  sending := [0x21, 0x22]
  received := [0x23]
  last := 0
  line := []
  accepted := [0x23]

/-- It loops back at once. -/
theorem busyChip_ready :
    let result := initSerial (uart COM1 (fun _ => [.shift]) busyChip) COM1 []
    result.1 = true ∧
      Ready (busyChip.now COM1 (fun _ => [.shift]) []) (busyChip.now COM1 (fun _ => [.shift]) result.2) := by
  have quiet : Quiet fun _ => [.shift] := fun _ a arrives => by
    cases List.mem_singleton.1 arrives
  obtain ⟨succeeds, ready, -⟩ := @initSerial_iff COM1 (fun _ => [.shift]) busyChip [] quiet (by decide)
  have ok := succeeds.2 List.mem_cons_self
  exact ⟨ok, ready ok⟩

end Result

end Chip

end Bintos
