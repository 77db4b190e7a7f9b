import Bintos.Lib.Transducer
import Bintos.Log.Numbers

/-!
# Formats

A format is read from left to right as a sequence of bytes to write and conversions of an argument
(`pieces`).  Every conversion takes the next argument, and the text for a format is what its pieces
write one after the other (`textFrom`).
-/

namespace Bintos

/-- A string without NUL. -/
structure CString where
  bytes : List U8
  noNul : 0 ∉ bytes

/-- One string after another. -/
def CString.append (s t : CString) : CString :=
  ⟨s.bytes ++ t.bytes, fun nul => (List.mem_append.1 nul).elim s.noNul t.noNul⟩

instance : Append CString := ⟨CString.append⟩

theorem CString.bytes_append (s t : CString) : (s ++ t).bytes = s.bytes ++ t.bytes := rfl

/-- What a part of a format stands for. -/
inductive Piece where
  /-- a byte to write -/
  | byte (a : U8)
  /-- an argument to write -/
  | arg (c : Conversion)
  deriving DecidableEq, Repr

/-- What is open between two characters of a format. -/
inductive Open where
  | none
  /-- after `%` -/
  | percent
  /-- after `%l` -/
  | percentL
  deriving DecidableEq, Repr

/-- The conversion that a character names after `%`. -/
def shortConversion (c : U8) : Option Conversion :=
  if c = ch 's' then some .s
  else if c = ch 'd' then some .d
  else if c = ch 'x' then some .x
  else none

/-- The conversion that a character names after `%l`. -/
def longConversion (c : U8) : Option Conversion :=
  if c = ch 'd' then some .ld
  else if c = ch 'x' then some .lx
  else none

/-- The meaning of a format.  What names no conversion stands for itself, and so does `%` at the end;
`%l` at the end stands for nothing. -/
def formatter : Transducer Open U8 Piece where
  step
    | .none, c => if c = ch '%' then .percent else .none
    | .percent, c => if c = ch 'l' then .percentL else .none
    | .percentL, _ => .none
  emit
    | .none, c => if c = ch '%' then [] else [.byte c]
    | .percent, c =>
      if c = ch 'l' then []
      else ((shortConversion c).map fun k => [.arg k]).getD [.byte (ch '%'), .byte c]
    | .percentL, c =>
      ((longConversion c).map fun k => [.arg k]).getD [.byte (ch '%'), .byte (ch 'l'), .byte c]
  flush
    | .none => []
    | .percent => [.byte (ch '%')]
    | .percentL => []

theorem run_char {c : U8} (plain : c ≠ ch '%') (text : List U8) :
    formatter.run .none (c :: text) = .byte c :: formatter.run .none text := by
  rw [formatter.run_cons]
  show (if _ then [] else [_]) ++ formatter.run (if _ then _ else _) text = _
  rw [if_neg plain, if_neg plain]
  rfl

theorem run_percent {d : U8} (short : d ≠ ch 'l') (text : List U8) :
    formatter.run .none (ch '%' :: d :: text) =
      formatter.emit .percent d ++ formatter.run .none text := by
  rw [formatter.run_cons, formatter.run_cons]
  show [] ++ (formatter.emit .percent d ++ formatter.run (if _ then _ else _) text) = _
  rw [if_neg short]
  rfl

theorem run_percentL (e : U8) (text : List U8) :
    formatter.run .none (ch '%' :: ch 'l' :: e :: text) =
      formatter.emit .percentL e ++ formatter.run .none text := by
  rw [formatter.run_cons, formatter.run_cons, formatter.run_cons]
  rfl

/-- The pieces of a format. -/
def pieces (format : List U8) : List Piece := formatter.run .none format

/-- No conversion is unfinished at the end of the format. -/
def Complete (format : List U8) : Prop := formatter.state .none format = .none

instance : DecidablePred Complete := fun _ => inferInstanceAs (Decidable (_ = _))

/-- The conversions among the pieces. -/
def conversions : List Piece → List Conversion
  | [] => []
  | .byte _ :: ps => conversions ps
  | .arg c :: ps => c :: conversions ps

/-- The text for the argument of a conversion. -/
def argText (args : VaList) (c : Conversion) (arg : U64) : List U8 :=
  match c with
  | .s => if arg ≠ 0 then (args.string arg).takeWhile (· ≠ 0) else []
  | .d => intText (arg.setWidth 32)
  | .x => hexText (arg.setWidth 32)
  | .ld => longText arg
  | .lx => hexText arg

/-- The text for the pieces, with the arguments from the word `n` on. -/
def textFrom (args : VaList) : ℕ → List Piece → List U8
  | _, [] => []
  | n, .byte a :: ps => a :: textFrom args n ps
  | n, .arg c :: ps => argText args c (args.word n) ++ textFrom args (n + 1) ps

/-- The arguments from the word `n` on. -/
def VaList.drop (args : VaList) (n : ℕ) : VaList := ⟨fun i => args.word (n + i), args.string⟩

section Pieces

variable {args : VaList} {n : ℕ} {ps qs : List Piece}

theorem conversions_append : conversions (ps ++ qs) = conversions ps ++ conversions qs := by
  induction ps with
  | nil => rfl
  | cons p ps ih =>
    cases p with
    | byte a => exact ih
    | arg c => exact congrArg (c :: ·) ih

theorem conversions_bytes (text : List U8) : conversions (text.map .byte) = [] := by
  induction text with
  | nil => rfl
  | cons a text ih => exact ih

theorem textFrom_append :
    textFrom args n (ps ++ qs) =
      textFrom args n ps ++ textFrom args (n + (conversions ps).length) qs := by
  induction ps generalizing n with
  | nil => rfl
  | cons p ps ih =>
    cases p with
    | byte a => exact congrArg (a :: ·) ih
    | arg c =>
      rw [List.cons_append, textFrom, textFrom, ih, conversions, List.length_cons,
        List.append_assoc, Nat.add_right_comm n 1, Nat.add_assoc n]

theorem textFrom_bytes (text : List U8) : textFrom args n (text.map .byte) = text := by
  induction text with
  | nil => rfl
  | cons a text ih => exact congrArg (a :: ·) ih

theorem textFrom_drop (k : ℕ) : textFrom (args.drop k) n ps = textFrom args (k + n) ps := by
  induction ps generalizing n with
  | nil => rfl
  | cons p ps ih =>
    cases p with
    | byte a => exact congrArg (a :: ·) ih
    | arg c => exact congrArg (argText args c (args.word (k + n)) ++ ·) (ih (n := n + 1))

/-- After a complete format the next one is read as it is read alone. -/
theorem pieces_append {f : List U8} (complete : Complete f) (g : List U8) :
    pieces (f ++ g) = pieces f ++ pieces g := by
  rw [pieces, formatter.run_append_of_flush (by rw [complete]; rfl), complete]
  rfl

end Pieces

end Bintos
