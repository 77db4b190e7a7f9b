import Bintos.Lib.Numeral
import Bintos.Log.Source

/-!
# The numbers that `logf` writes

The loop for a number stores its digits to `buffer`, the least significant one first, and a second loop
writes them in the opposite order.  This file gives the texts for `%d`, `%x`, `%ld` and `%lx`, and says
when they are the numeral of the argument.
-/

namespace Bintos

open Numeral

/-- The computation returns, and all it does is to write the text and to use `buffer`. -/
def Writes (m : LogM Unit) (text : List U8) : Prop :=
  ∀ s, ∃ b, m.run s = .ok () { s with out := s.out ++ text, buffer := b }

theorem writes_pure : Writes (pure ()) [] := by
  intro s
  exact ⟨s.buffer, by rw [List.append_nil]; rfl⟩

theorem writes_writeCom1 (a : U8) : Writes (writeCom1 a) [a] := fun s => ⟨s.buffer, rfl⟩

theorem Writes.bind {m n : LogM Unit} {text more : List U8} (first : Writes m text)
    (second : Writes n more) : Writes (m >>= fun _ => n) (text ++ more) := by
  intro s
  obtain ⟨b, run⟩ := first s
  obtain ⟨b', run'⟩ := second { s with out := s.out ++ text, buffer := b }
  refine ⟨b', ?_⟩
  rw [EStateM.run_bind, run]
  simp only [run', List.append_assoc]

theorem writes_logCom1 (str : List U8) : Writes (logCom1 str) (str.takeWhile (· ≠ 0)) := by
  induction str with
  | nil => exact writes_pure
  | cons a str ih =>
    rw [logCom1]
    by_cases nul : a = 0
    · rw [if_pos nul, List.takeWhile_cons_of_neg (by simpa using nul)]
      exact writes_pure
    · rw [if_neg nul, List.takeWhile_cons_of_pos (by simpa using nul)]
      exact (writes_writeCom1 a).bind ih

/-! ### The loops -/

section Loops

variable {w : ℕ} {digit : BitVec w → U8} {rest : BitVec w → BitVec w} {more : BitVec w → Bool}

/-- The bytes that `digitLoop` stores, with `room` bytes of `buffer`. -/
def digitBytes (digit : BitVec w → U8) (rest : BitVec w → BitVec w) (more : BitVec w → Bool) :
    ℕ → BitVec w → List U8
  | 0, _ => []
  | room + 1, arg =>
    digit arg :: if more (rest arg) then digitBytes digit rest more room (rest arg) else []

/-- The loop ends with `room` bytes of `buffer`. -/
def Ends (rest : BitVec w → BitVec w) (more : BitVec w → Bool) : ℕ → BitVec w → Prop
  | 0, _ => False
  | room + 1, arg => more (rest arg) = true → Ends rest more room (rest arg)

theorem run_digitLoop {room i : ℕ} {arg : BitVec w} (ends : Ends rest more room arg)
    (fits : i + room ≤ 32) (s : Log) :
    ∃ n b, (digitLoop digit rest more room i arg).run s = .ok n { s with buffer := b } ∧
      (List.range n).map b =
        (List.range i).map s.buffer ++ digitBytes digit rest more room arg := by
  induction room generalizing i arg s with
  | zero => exact ends.elim
  | succ room ih =>
    let b := Function.update s.buffer i (digit arg)
    have stored : (storeBuffer i (digit arg)).run s = .ok () { s with buffer := b } :=
      if_pos (show i < 32 by omega)
    have before : (List.range (i + 1)).map b = (List.range i).map s.buffer ++ [digit arg] := by
      rw [List.range_succ, List.map_append, List.map_singleton]
      congr 1
      · refine List.map_congr_left fun j hj => ?_
        exact Function.update_of_ne (List.mem_range.1 hj).ne _ _
      · exact congrArg ([·]) (Function.update_self ..)
    rw [digitLoop, digitBytes, EStateM.run_bind, stored]
    by_cases again : more (rest arg) = true
    · obtain ⟨n, b', run, digits⟩ := ih (i := i + 1) (ends again) (by omega) { s with buffer := b }
      refine ⟨n, b', ?_, ?_⟩
      · simp only [again, if_true]
        exact run
      · rw [digits, before, if_pos again, List.append_assoc]
        rfl
    · refine ⟨i + 1, b, ?_, ?_⟩
      · simp only [again]
        rfl
      · rw [before, if_neg again]

theorem run_printBuffer (n : ℕ) (s : Log) :
    (printBuffer n).run s =
      .ok () { s with out := s.out ++ ((List.range n).map s.buffer).reverse } := by
  induction n generalizing s with
  | zero =>
    show EStateM.Result.ok () s = _
    simp
  | succ n ih =>
    show (printBuffer n).run { s with out := s.out ++ [s.buffer n] } = _
    rw [ih, List.range_succ, List.map_append, List.reverse_append, List.append_assoc]
    rfl

/-- The digits are written in the opposite order. -/
theorem writes_digits {arg : BitVec w} (ends : Ends rest more 32 arg) :
    Writes (digitLoop digit rest more 32 0 arg >>= printBuffer)
      (digitBytes digit rest more 32 arg).reverse := by
  intro s
  obtain ⟨n, b, run, digits⟩ := @run_digitLoop w digit rest more 32 0 arg ends (Nat.zero_add 32).le s
  refine ⟨b, ?_⟩
  rw [EStateM.run_bind, run]
  simp only [run_printBuffer, digits]
  rfl

/-- On words that satisfy `P` the loop divides by the base: it ends, and the bytes are digits. -/
theorem digits_of_divides {b : ℕ} {char : ℕ → U8} (P : BitVec w → Prop) (base : 1 < b)
    (digit_eq : ∀ a, P a → digit a = char (a.toNat % b))
    (rest_eq : ∀ a, P a → P (rest a) ∧ (rest a).toNat = a.toNat / b)
    (more_eq : ∀ a, P a → (more a = true ↔ a.toNat ≠ 0)) {room : ℕ} {arg : BitVec w} (ok : P arg)
    (positive : 0 < room) (small : arg.toNat < b ^ room) :
    Ends rest more room arg ∧
      digitBytes digit rest more room arg = (digits b arg.toNat).map char := by
  induction room generalizing arg with
  | zero => exact absurd positive (lt_irrefl 0)
  | succ room ih =>
    obtain ⟨ok', value⟩ := rest_eq arg ok
    rw [digitBytes, digits_step base, List.map_cons, digit_eq arg ok, ← value]
    by_cases again : more (rest arg) = true
    · have nonzero : (rest arg).toNat ≠ 0 := (more_eq _ ok').1 again
      have smaller : (rest arg).toNat < b ^ room := by
        rw [value]
        exact Nat.div_lt_of_lt_mul (by rwa [pow_succ'] at small)
      have room_left : 0 < room := by
        by_contra full
        rw [Nat.eq_zero_of_not_pos full, pow_zero] at smaller
        omega
      obtain ⟨ends, bytes⟩ := ih ok' room_left smaller
      rw [if_pos again, if_neg nonzero, bytes]
      exact ⟨fun _ => ends, rfl⟩
    · have zero : (rest arg).toNat = 0 := not_not.1 ((more_eq _ ok').not.1 again)
      rw [if_neg again, if_pos zero]
      exact ⟨fun h => absurd h again, rfl⟩

end Loops

/-! ### The texts -/

/-- The decimal digit `d`. -/
def decChar (d : ℕ) : U8 := BitVec.ofNat 8 (48 + d)

/-- The hexadecimal digit `d`. -/
def hexChar (d : ℕ) : U8 := BitVec.ofNat 8 (if d < 10 then 48 + d else 87 + d)

/-- `INT_MIN` -/
def intMin : U32 := 0x80000000

/-- The text for the argument of `%d`. -/
def intText (arg : U32) : List U8 :=
  (if arg.slt 0 then [ch '-'] else []) ++
    (digitBytes intDigit (·.sdiv 10) (fun arg => BitVec.slt 0 arg) 32
      (if arg.slt 0 then -arg else arg)).reverse

/-- The text for the argument of `%ld`. -/
def longText (arg : U64) : List U8 :=
  (digitBytes longDigit (· / 10) (fun arg => decide (0 < arg)) 32 arg).reverse

/-- The text for the argument of `%x` or `%lx`. -/
def hexText {w : ℕ} (arg : BitVec w) : List U8 :=
  (digitBytes hexDigit (· / 16) (fun arg => decide (0 < arg)) 32 arg).reverse

section Texts

theorem decide_pos_iff {w : ℕ} (a : BitVec w) : decide (0 < a) = true ↔ a.toNat ≠ 0 := by
  rw [decide_eq_true_iff, BitVec.lt_def]
  exact Nat.pos_iff_ne_zero

theorem decDigit_eq {w : ℕ} (wide : 8 ≤ w) (a : BitVec w) :
    (48 + a % 10).setWidth 8 = decChar (a.toNat % 10) := by
  have byte : 2 ^ 8 ≤ 2 ^ w := Nat.pow_le_pow_right (by decide) wide
  have ten : (10 : BitVec w).toNat = 10 := Nat.mod_eq_of_lt (show 10 < 2 ^ w by omega)
  have zero : (48 : BitVec w).toNat = 48 := Nat.mod_eq_of_lt (show 48 < 2 ^ w by omega)
  refine BitVec.eq_of_toNat_eq ?_
  rw [decChar, BitVec.toNat_setWidth, BitVec.toNat_add, BitVec.toNat_umod, ten, zero,
    BitVec.toNat_ofNat, Nat.mod_eq_of_lt (show 48 + a.toNat % 10 < 2 ^ w by omega)]

/-- The digits of an `int` that is not negative. -/
theorem int_digits {arg : U32} (sign : arg.toNat < 2 ^ 31) :
    Ends (·.sdiv 10) (fun arg => BitVec.slt 0 arg) 32 arg ∧
      digitBytes intDigit (·.sdiv 10) (fun arg => BitVec.slt 0 arg) 32 arg =
        (digits 10 arg.toNat).map decChar := by
  have msb {a : U32} (ha : a.toNat < 2 ^ 31) : a.msb = false :=
    BitVec.msb_eq_false_iff_two_mul_lt.2 (by omega)
  have quotient {a : U32} (ha : a.toNat < 2 ^ 31) : a.sdiv 10 = a / 10 := by
    rw [BitVec.sdiv_eq, msb ha]
    rfl
  have remainder {a : U32} (ha : a.toNat < 2 ^ 31) : a.srem 10 = a % 10 := by
    rw [BitVec.srem_eq, msb ha]
    rfl
  refine digits_of_divides (b := 10) (fun a => a.toNat < 2 ^ 31) (by decide) (fun a ha => ?_)
    (fun a ha => ?_) (fun a ha => ?_) sign (by decide) (by omega)
  · rw [intDigit, remainder ha]
    exact decDigit_eq (by decide) a
  · have value : (a / 10).toNat = a.toNat / 10 := BitVec.toNat_udiv
    simp only [quotient ha]
    exact ⟨by omega, value⟩
  · rw [BitVec.slt_eq_ult_of_msb_eq (show (0 : U32).msb = a.msb from (msb ha).symm)]
    exact decide_pos_iff a

/-- The digits of a `uint64_t`. -/
theorem long_digits (arg : U64) :
    Ends (· / 10) (fun arg => decide (0 < arg)) 32 arg ∧
      digitBytes longDigit (· / 10) (fun arg => decide (0 < arg)) 32 arg =
        (digits 10 arg.toNat).map decChar := by
  refine digits_of_divides (b := 10) (fun _ => True) (by decide) (fun a _ => ?_)
    (fun a _ => ⟨trivial, BitVec.toNat_udiv⟩) (fun a _ => decide_pos_iff a) trivial (by decide)
    (arg.isLt.trans_le (by decide))
  exact decDigit_eq (by decide) a

/-- The hexadecimal digits of an unsigned number. -/
theorem hex_digits {w : ℕ} (wide : 4 < w) (short : w ≤ 128) (arg : BitVec w) :
    Ends (· / 16) (fun arg => decide (0 < arg)) 32 arg ∧
      digitBytes hexDigit (· / 16) (fun arg => decide (0 < arg)) 32 arg =
        (digits 16 arg.toNat).map hexChar := by
  have sixteen : (16 : BitVec w).toNat = 16 :=
    Nat.mod_eq_of_lt (show 2 ^ 4 < 2 ^ w from Nat.pow_lt_pow_right (by decide) wide)
  refine digits_of_divides (b := 16) (fun _ => True) (by decide) (fun a _ => ?_)
    (fun a _ => ⟨trivial, by rw [BitVec.toNat_udiv, sixteen]⟩) (fun a _ => decide_pos_iff a) trivial
    (by decide) (arg.isLt.trans_le (Nat.pow_le_pow_right (by decide) short))
  have nibble : (a % 16).setWidth 32 = BitVec.ofNat 32 (a.toNat % 16) := by
    refine BitVec.eq_of_toNat_eq ?_
    rw [BitVec.toNat_setWidth, BitVec.toNat_umod, sixteen, BitVec.toNat_ofNat]
  have digit : ∀ n < 16, (if (BitVec.ofNat 32 n).slt 10 then 48 + BitVec.ofNat 32 n
      else 97 + (BitVec.ofNat 32 n - 10)).setWidth 8 = hexChar n := by decide
  rw [hexDigit, nibble]
  exact digit _ (Nat.mod_lt _ (by decide))

theorem writes_logHex {w : ℕ} (wide : 4 < w) (short : w ≤ 128) (arg : BitVec w) :
    Writes (logHex arg) (hexText arg) :=
  writes_digits (hex_digits wide short arg).1

theorem writes_logLong (arg : U64) : Writes (logLong arg) (longText arg) := by
  have positive : decide (arg < 0) = false := decide_eq_false (BitVec.not_lt_zero)
  have body : logLong arg = (do
      let i ← digitLoop longDigit (· / 10) (fun arg => decide (0 < arg)) 32 0 arg
      printBuffer i) := by
    rw [logLong, positive]
    rfl
  rw [body]
  exact writes_digits (long_digits arg).1

theorem slt_zero_iff (arg : U32) : arg.slt 0 = true ↔ 2 ^ 31 ≤ arg.toNat := by
  show arg.slt 0#32 = true ↔ _
  rw [BitVec.slt_zero_iff_msb_cond, BitVec.msb_eq_true_iff_two_mul_ge]
  omega

/-- Every negative number but `INT_MIN` has an absolute value. -/
theorem neg_lt {arg : U32} (negative : 2 ^ 31 ≤ arg.toNat) (edge : arg ≠ intMin) :
    (-arg).toNat < 2 ^ 31 := by
  unfold intMin at edge
  bv_omega

/-- The loop ends for `INT_MIN` too, which is its own negation: after one round. -/
theorem int_ends (arg : U32) :
    Ends (·.sdiv 10) (fun arg => BitVec.slt 0 arg) 32 (if arg.slt 0 then -arg else arg) := by
  by_cases negative : arg.slt 0 = true
  · rw [if_pos negative]
    by_cases edge : arg = intMin
    · rw [edge]
      exact fun again => absurd again (by decide)
    · exact (int_digits (neg_lt ((slt_zero_iff arg).1 negative) edge)).1
  · rw [if_neg negative]
    exact (int_digits (not_le.1 ((slt_zero_iff arg).not.1 negative))).1

theorem writes_logInt (arg : U32) : Writes (logInt arg) (intText arg) := by
  have digits : Writes (digitLoop intDigit _ _ 32 0 _ >>= printBuffer) _ :=
    writes_digits (int_ends arg)
  rw [logInt, intText]
  by_cases negative : arg.slt 0 = true
  · simp only [negative, if_true] at digits ⊢
    exact (writes_writeCom1 _).bind digits
  · simp only [negative] at digits ⊢
    exact digits

end Texts

/-! ### Numerals -/

section Numerals

/-- The value of a decimal digit. -/
def decValue (c : U8) : Option ℕ :=
  if 48 ≤ c.toNat ∧ c.toNat ≤ 57 then some (c.toNat - 48) else none

/-- The value of a hexadecimal digit. -/
def hexValue (c : U8) : Option ℕ :=
  if 48 ≤ c.toNat ∧ c.toNat ≤ 57 then some (c.toNat - 48)
  else if 97 ≤ c.toNat ∧ c.toNat ≤ 102 then some (c.toNat - 87)
  else none

/-- The text is the canonical decimal numeral of an integer: a `-` for a negative one, and digits. -/
def IsInteger (text : List U8) (z : ℤ) : Prop :=
  ∃ (negative : Bool) (digits : List U8) (n : ℕ),
    text = (if negative then [ch '-'] else []) ++ digits ∧ IsNumeral decValue 10 digits n ∧
      z = (if negative then -(n : ℤ) else n) ∧ (negative = true → n ≠ 0)

theorem isNumeral_decimal (n : ℕ) :
    IsNumeral decValue 10 ((digits 10 n).map decChar).reverse n :=
  isNumeral_digits (by decide) (by decide) n

theorem isNumeral_hexText {w : ℕ} (wide : 4 < w) (short : w ≤ 128) (arg : BitVec w) :
    IsNumeral hexValue 16 (hexText arg) arg.toNat := by
  rw [hexText, (hex_digits wide short arg).2]
  exact isNumeral_digits (by decide) (by decide) _

theorem isNumeral_longText (arg : U64) : IsNumeral decValue 10 (longText arg) arg.toNat := by
  rw [longText, (long_digits arg).2]
  exact isNumeral_decimal _

theorem intText_of_nonneg {arg : U32} (sign : arg.toNat < 2 ^ 31) :
    intText arg = ((digits 10 arg.toNat).map decChar).reverse := by
  have positive : ¬ arg.slt 0 = true := (slt_zero_iff arg).not.2 (not_le.2 sign)
  rw [intText, if_neg positive, if_neg positive, (int_digits sign).2, List.nil_append]

theorem intText_of_neg {arg : U32} (negative : 2 ^ 31 ≤ arg.toNat) (edge : arg ≠ intMin) :
    intText arg = ch '-' :: ((digits 10 (-arg).toNat).map decChar).reverse := by
  have sign : arg.slt 0 = true := (slt_zero_iff arg).2 negative
  rw [intText, if_pos sign, if_pos sign, (int_digits (neg_lt negative edge)).2,
    List.singleton_append]

/-- The text for `INT_MIN` has no digits. -/
theorem intText_intMin : intText intMin = [ch '-', ch '('] := by decide

/-- `%d` writes the numeral of its argument, except for `INT_MIN`. -/
theorem isInteger_intText_iff (arg : U32) : IsInteger (intText arg) arg.toInt ↔ arg ≠ intMin := by
  constructor
  · rintro ⟨negative, digits, n, text, numeral, -⟩ rfl
    rw [intText_intMin] at text
    have unread : ∀ rest ∈ [[ch '-', ch '('], [ch '(']], read decValue 10 rest = none := by decide
    have its_digits : digits ∈ [[ch '-', ch '('], [ch '(']] := by
      cases negative with
      | false => exact text ▸ List.mem_cons_self
      | true => exact (List.cons.inj text).2 ▸ List.mem_cons_of_mem _ List.mem_cons_self
    have value := numeral.read
    rw [unread digits its_digits] at value
    cases value
  · intro edge
    by_cases sign : arg.toNat < 2 ^ 31
    · refine ⟨false, _, arg.toNat, intText_of_nonneg sign, isNumeral_decimal _, ?_, by simp⟩
      exact BitVec.toInt_eq_toNat_of_lt (by omega)
    · refine ⟨true, _, (-arg).toNat, intText_of_neg (not_lt.1 sign) edge, isNumeral_decimal _, ?_, ?_⟩
      · rw [BitVec.toInt_eq_toNat_cond, if_neg (by omega), if_pos rfl]
        bv_omega
      · intro _ zero
        bv_omega

end Numerals

end Bintos
