import Bintos.Log.Scan

/-!
# What `logf` prints

For every format `logf` returns and prints the text for the pieces of the format (`prints_iff`), so that
formats compose (`logf_interprets`).  The conversions `%x` and `%lx` print the numeral of their argument
(`hex_roundTrip`), `%d` does except for `INT_MIN` (`int_canonical_iff`), and `%ld` agrees with `%d`
exactly on the numbers that are not negative (`long_agrees_iff`).
-/

namespace Bintos

open Numeral

/-- `logf` returns and prints the text, wherever the format is in memory and whatever `buffer` holds. -/
def Prints (l : LogLevel) (f : CString) (args : VaList) (text : List U8) : Prop :=
  ∀ format buffer fuel, StringAt format 0 f.bytes → f.bytes.length < fuel →
    ∃ s, (logf l format args fuel).run (Log.start buffer) = .ok () s ∧ s.out = text

/-- The number of arguments that a format takes. -/
def CString.arity (f : CString) : ℕ := (conversions (pieces f.bytes)).length

/-- Wherever the conversion stands in a format, `logf` prints the text for an argument in the word. -/
def Formats (conversion : CString) (arg : U64) (text : List U8) : Prop :=
  ∀ l (f g : CString) args, Complete f.bytes → args.word f.arity = arg →
    ∃ before after, Prints l f args (levelText l ++ before) ∧
      Prints l g (args.drop (f.arity + 1)) (levelText l ++ after) ∧
      Prints l (f ++ conversion ++ g) args (levelText l ++ before ++ text ++ after)

section Print

variable {l : LogLevel} {args : VaList} {f : CString} {text : List U8}

/-- A string is found where it is stored. -/
theorem stringAt_getD {str : List U8} (noNul : 0 ∉ str) (before : List U8) :
    StringAt (fun i => (before ++ str).getD i 0) before.length str := by
  induction str generalizing before with
  | nil => simp [StringAt]
  | cons c str ih =>
    rw [List.mem_cons, not_or] at noNul
    have rest := ih noNul.2 (before ++ [c])
    rw [List.append_assoc, List.length_append] at rest
    exact ⟨by simp, Ne.symm noNul.1, rest⟩

theorem run_logf {format : ℕ → U8} {buffer : ℕ → U8} {fuel : ℕ}
    (stored : StringAt format 0 f.bytes) (enough : f.bytes.length < fuel) :
    ∃ s, (logf l format args fuel).run (Log.start buffer) = .ok () s ∧
      s.out = levelText l ++ textFrom args 0 (pieces f.bytes) ∧
      s.fetched = (conversions (pieces f.bytes)).zipIdx ∧ ∀ i ∈ s.reads, i ≤ f.bytes.length := by
  have level : (levelText l).takeWhile (· ≠ 0) = levelText l := by
    cases l <;> decide
  have scan : Does args f.bytes.length (logScan format args fuel 0) () (pieces f.bytes) :=
    does_logScan stored (Nat.zero_add _) enough
  have whole : Does args f.bytes.length (logf l format args fuel) () (_ ++ _) :=
    (writes_logCom1 (levelText l)).does.bind scan
  obtain ⟨s, run, effect⟩ := whole (Log.start buffer)
  rw [level] at effect
  refine ⟨s, run, ?_, ?_, effect.reads fun i hi => absurd hi List.not_mem_nil⟩
  · rw [effect.out, textFrom_append, textFrom_bytes, conversions_bytes]
    rfl
  · rw [effect.fetched, conversions_append, conversions_bytes]
    rfl

/-- `logf` prints the text for the pieces of the format, and no other text. -/
theorem prints_iff :
    Prints l f args text ↔ text = levelText l ++ textFrom args 0 (pieces f.bytes) := by
  constructor
  · intro prints
    have stored := stringAt_getD f.noNul []
    obtain ⟨s, run, out⟩ := prints _ (fun _ => 0) _ stored (Nat.lt_succ_self _)
    obtain ⟨s', run', out', -⟩ := @run_logf l args f _ (fun _ => 0) _ stored (Nat.lt_succ_self _)
    rw [run, EStateM.Result.ok.injEq] at run'
    obtain ⟨-, rfl⟩ := run'
    exact out.symm.trans out'
  · rintro rfl format buffer fuel stored enough
    obtain ⟨s, run, out, -⟩ := run_logf stored enough
    exact ⟨s, run, out⟩

/-- **The format interpreter.**  For every format and all arguments `logf` returns, after one round of
the scan for each character at most; it reads no byte past the NUL, and the conversions of the format
fetch one argument each, in order.  After a complete format, the text for another one follows the text
for the first. -/
theorem logf_interprets (l : LogLevel) (args : VaList) :
    (∀ (f : CString) (format buffer : ℕ → U8) (fuel : ℕ), StringAt format 0 f.bytes →
      f.bytes.length < fuel →
        ∃ s, (logf l format args fuel).run (Log.start buffer) = .ok () s ∧
          (∀ i ∈ s.reads, i ≤ f.bytes.length) ∧
          s.fetched = (conversions (pieces f.bytes)).zipIdx) ∧
    ∀ f g : CString, Complete f.bytes →
      ∃ before after, Prints l f args (levelText l ++ before) ∧
        Prints l g (args.drop f.arity) (levelText l ++ after) ∧
        Prints l (f ++ g) args (levelText l ++ before ++ after) := by
  constructor
  · intro f format buffer fuel stored enough
    obtain ⟨s, run, -, fetched, reads⟩ := run_logf stored enough
    exact ⟨s, run, reads, fetched⟩
  · intro f g complete
    refine ⟨_, _, prints_iff.2 rfl, prints_iff.2 rfl, prints_iff.2 ?_⟩
    rw [CString.bytes_append, pieces_append complete, textFrom_append, textFrom_drop,
      List.append_assoc, Nat.zero_add, Nat.add_zero, CString.arity]

/-- Two conversions, with text around them. -/
def numberFormat : CString := ⟨ascii "n=%d %lx", by decide⟩

/-- Another format. -/
def stringFormat : CString := ⟨ascii "%s!", by decide⟩

/-- The arguments 0, 1, 2 and so on. -/
def counting : VaList := ⟨BitVec.ofNat 64, fun _ => []⟩

/-- The format in a memory with other bytes behind its NUL, and the other format after it. -/
theorem numberFormat_interprets :
    (∃ s, (logf .info (fun i => (numberFormat.bytes ++ [0]).getD i 0xff) counting 9).run
        (Log.start fun _ => 0) = .ok () s ∧
      (∀ i ∈ s.reads, i ≤ 8) ∧ s.fetched = [(.d, 0), (.lx, 1)]) ∧
    ∃ before after, Prints .info numberFormat counting (levelText .info ++ before) ∧
      Prints .info stringFormat (counting.drop 2) (levelText .info ++ after) ∧
      Prints .info (numberFormat ++ stringFormat) counting (levelText .info ++ before ++ after) := by
  have stored : StringAt (fun i => (numberFormat.bytes ++ [0]).getD i 0xff) 0 numberFormat.bytes := by
    decide
  have arity : numberFormat.arity = 2 := by decide
  obtain ⟨scans, composes⟩ := logf_interprets .info counting
  obtain ⟨s, run, reads, fetched⟩ := scans numberFormat _ (fun _ => 0) 9 stored (by decide)
  have both := composes numberFormat stringFormat (by decide)
  rw [arity] at both
  exact ⟨⟨s, run, reads, fetched.trans (by decide)⟩, both⟩

/-- A format that is one conversion prints the text for its argument, wherever it stands. -/
theorem formats_iff {conversion : CString} {c : Conversion}
    (single : pieces conversion.bytes = [.arg c]) (complete : Complete conversion.bytes) {arg : U64}
    {its_text : List U8} (same : ∀ args, argText args c arg = its_text) :
    Formats conversion arg text ↔ text = its_text := by
  constructor
  · intro formats
    -- the conversion alone
    let empty : CString := ⟨[], List.not_mem_nil⟩
    let args : VaList := ⟨fun _ => arg, fun _ => []⟩
    obtain ⟨before, after, first, last, whole⟩ := formats .numLevels empty empty args rfl rfl
    have first : before = [] := prints_iff.1 first
    have last : after = [] := prints_iff.1 last
    have whole := prints_iff.1 whole
    rw [first, last, CString.bytes_append, CString.bytes_append, List.nil_append, List.append_nil,
      List.append_nil, List.append_nil, single, textFrom, textFrom, same, List.append_nil] at whole
    exact List.append_cancel_left whole
  · rintro rfl l f g args complete' word
    refine ⟨_, _, prints_iff.2 rfl, prints_iff.2 rfl, prints_iff.2 ?_⟩
    rw [CString.bytes_append, CString.bytes_append, List.append_assoc f.bytes,
      pieces_append complete', pieces_append complete, single, textFrom_append, textFrom_drop,
      List.singleton_append, textFrom, Nat.zero_add, ← CString.arity, word, same]
    simp only [List.append_assoc, Nat.add_zero]

end Print

/-! ### The conversions -/

section Conversions

/-- `%x` -/
def percentX : CString := ⟨ascii "%x", by decide⟩
/-- `%lx` -/
def percentLx : CString := ⟨ascii "%lx", by decide⟩
/-- `%d` -/
def percentD : CString := ⟨ascii "%d", by decide⟩
/-- `%ld` -/
def percentLd : CString := ⟨ascii "%ld", by decide⟩

theorem formats_x {arg : U64} {text : List U8} :
    Formats percentX arg text ↔ text = hexText (arg.setWidth 32) :=
  formats_iff (c := .x) rfl (by decide) fun _ => rfl

theorem formats_lx {arg : U64} {text : List U8} : Formats percentLx arg text ↔ text = hexText arg :=
  formats_iff (c := .lx) rfl (by decide) fun _ => rfl

theorem formats_d {arg : U64} {text : List U8} :
    Formats percentD arg text ↔ text = intText (arg.setWidth 32) :=
  formats_iff (c := .d) rfl (by decide) fun _ => rfl

theorem formats_ld {arg : U64} {text : List U8} : Formats percentLd arg text ↔ text = longText arg :=
  formats_iff (c := .ld) rfl (by decide) fun _ => rfl

/-- **Hexadecimal output.**  `%x` prints the hexadecimal numeral of the low 32 bits of its argument, and
`%lx` the one of its argument, with all stores in `buffer`. -/
theorem hex_roundTrip (arg : U64) :
    (∃ text, Formats percentX arg text ∧
      IsNumeral hexValue 16 text (arg.setWidth 32).toNat) ∧
    ∃ text, Formats percentLx arg text ∧ IsNumeral hexValue 16 text arg.toNat :=
  ⟨⟨_, formats_x.2 rfl, isNumeral_hexText (by decide) (by decide) _⟩,
    ⟨_, formats_lx.2 rfl, isNumeral_hexText (by decide) (by decide) _⟩⟩

/-- **Signed decimal output.**  `%d` prints the decimal numeral of its argument, exactly when that is not
`INT_MIN`. -/
theorem int_canonical_iff (arg : U64) :
    (∃ text, Formats percentD arg text ∧ IsInteger text (arg.setWidth 32).toInt) ↔
      arg.setWidth 32 ≠ intMin := by
  simp only [formats_d, exists_eq_left]
  exact isInteger_intText_iff _

/-- For `INT_MIN` the two characters `-(` are printed. -/
theorem intMin_not_canonical :
    ¬ ∃ text, Formats percentD 0x80000000 text ∧ IsInteger text intMin.toInt := by
  rintro ⟨text, formats, integer⟩
  rw [formats_d.1 formats] at integer
  exact (isInteger_intText_iff intMin).1 integer rfl

/-- **The two decimal paths.**  For an `int` above `INT_MIN`, `%ld` prints the text that `%d` prints,
exactly when the number is not negative. -/
theorem long_agrees_iff {a : U32} (above : intMin.toInt < a.toInt) {arg : U64}
    (passed : arg.setWidth 32 = a) :
    (∃ text, Formats percentLd (a.signExtend 64) text ∧ Formats percentD arg text) ↔
      0 ≤ a.toInt := by
  have edge : a ≠ intMin := by
    rintro rfl
    exact absurd above (lt_irrefl _)
  simp only [formats_ld, formats_d, exists_eq_left, passed]
  have sign : 0 ≤ a.toInt ↔ a.toNat < 2 ^ 31 := by
    rw [BitVec.toInt_eq_toNat_cond]
    split_ifs <;> omega
  rw [sign]
  constructor
  · intro agree
    by_contra negative
    -- a numeral does not begin with `-`
    have numeral := (isNumeral_longText (a.signExtend 64)).read
    rw [agree, intText_of_neg (not_lt.1 negative) edge] at numeral
    cases numeral
  · intro low
    have msb : a.msb = false := BitVec.msb_eq_false_iff_two_mul_lt.2 (by omega)
    have value : (a.signExtend 64).toNat = a.toNat := by
      rw [BitVec.signExtend_eq_setWidth_of_msb_false msb]
      exact BitVec.toNat_setWidth_of_le (by decide)
    rw [longText, (long_digits _).2, value, intText_of_nonneg low]

/-- The number 42. -/
theorem forty_two_agrees :
    ∃ text, Formats percentLd ((42 : U32).signExtend 64) text ∧ Formats percentD 42 text :=
  (@long_agrees_iff 42 (by decide) 42 (by decide)).2 (by decide)

/-- For -1 the text for `%ld` is 18446744073709551615. -/
theorem minus_one_disagrees :
    ¬ ∃ text, Formats percentLd ((-1 : U32).signExtend 64) text ∧ Formats percentD 0xFFFFFFFF text := by
  rintro ⟨text, long, int⟩
  rw [formats_ld] at long
  rw [formats_d, long] at int
  exact absurd int (by decide)

end Conversions

end Bintos
