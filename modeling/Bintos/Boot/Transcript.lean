import Bintos.Boot.Run
import Bintos.Lib.Template

/-!
# The log of `kmain` read back

The format of a call of `logf` cuts the text that is printed into the texts of the arguments, when each
of them is followed by a character that is not in it (`readCall_text`).  The lines of the memory map are of
this kind, and no other line of `kmain` is taken for one, so a reader of COM1 gets the whole map
(`kmain_log_read`).
-/

namespace Bintos

open Template Numeral

/-! ### Calls -/

section Calls

variable {args : VaList} {n : ℕ} {ps : List Piece} {c : LogCall}

/-- The template of a format, with a field for each conversion. -/
def parts (ps : List Piece) : List (Slot U8) :=
  ps.map fun
    | .byte a => .char a
    | .arg _ => .field

/-- The texts for the arguments from the word `n` on. -/
def argTexts (args : VaList) : ℕ → List Piece → List (List U8)
  | _, [] => []
  | n, .byte _ :: ps => argTexts args n ps
  | n, .arg c :: ps => argText args c (args.word n) :: argTexts args (n + 1) ps

theorem fill_parts (args : VaList) (n : ℕ) (ps : List Piece) :
    fill (parts ps) (argTexts args n ps) = textFrom args n ps := by
  induction ps generalizing n with
  | nil => rfl
  | cons p ps ih =>
    cases p with
    | byte a => exact congrArg (a :: ·) (ih n)
    | arg c => exact congrArg (argText args c (args.word n) ++ ·) (ih (n + 1))

/-- The texts of the arguments in what a call with this level and format has printed. -/
def readCall (level : LogLevel) (format : List U8) (text : List U8) : Option (List (List U8)) :=
  cut (literal (levelText level) ++ parts (pieces format)) text

/-- The arguments of a call are read back. -/
theorem readCall_text
    (delimited : Delimited (parts (pieces c.format.bytes)) (argTexts c.args 0 (pieces c.format.bytes))) :
    readCall c.level c.format.bytes c.text = some (argTexts c.args 0 (pieces c.format.bytes)) := by
  rw [readCall, LogCall.text, cut_literal, ← fill_parts]
  exact cut_fill delimited

/-! ### Lines -/

theorem value_of_mem {γ : Type} {value : γ → Option ℕ} {b m k : ℕ} {text : List γ}
    (reads : text.foldlM (fun n c => (value c).map fun d => n * b + d) m = some k) {a : γ}
    (ha : a ∈ text) : value a ≠ none := by
  induction text generalizing m with
  | nil => cases ha
  | cons d text ih =>
    obtain ⟨v, first, rest⟩ := Option.bind_eq_some_iff.1 reads
    rcases List.mem_cons.1 ha with rfl | later
    · obtain ⟨w, value, -⟩ := Option.map_eq_some_iff.1 first
      rw [value]
      exact Option.some_ne_none w
    · exact ih rest later

theorem not_mem_hexText {a : U8} (other : hexValue a = none) {w : ℕ} (wide : 4 < w) (short : w ≤ 128)
    (arg : BitVec w) : a ∉ hexText arg := fun inside =>
  value_of_mem (isNumeral_hexText wide short arg).read inside other

theorem not_mem_longText {a : U8} (other : decValue a = none) (arg : U64) : a ∉ longText arg :=
  fun inside => value_of_mem (isNumeral_longText arg).read inside other

theorem newline_not_mem_intText (arg : U32) : 10 ∉ intText arg := by
  by_cases edge : arg = intMin
  · rw [edge]
    decide
  · obtain ⟨negative, digits, n, text, numeral, -⟩ := (isInteger_intText_iff arg).2 edge
    rw [text, List.mem_append, not_or]
    refine ⟨?_, fun inside => value_of_mem numeral.read inside (by decide)⟩
    cases negative <;> decide

/-- The text is one line. -/
def IsLine (text : List U8) : Prop := ∃ body, text = body ++ [10] ∧ 10 ∉ body

/-- A format that ends with its only newline, and outside of a conversion. -/
def LineFormat (format : List U8) : Prop :=
  format = format.dropLast ++ [10] ∧ Complete format.dropLast ∧ .byte 10 ∉ pieces format.dropLast

instance : DecidablePred LineFormat := fun _ => inferInstanceAs (Decidable (_ ∧ _ ∧ _))

theorem newline_not_mem_argText (strings : ∀ w, 10 ∉ args.string w) (k : Conversion) (w : U64) :
    10 ∉ argText args k w := by
  cases k with
  | s =>
    rw [argText]
    split_ifs
    · exact fun inside => strings w ((List.takeWhile_prefix _).subset inside)
    · exact List.not_mem_nil
  | d => exact newline_not_mem_intText _
  | x => exact not_mem_hexText (by decide) (by decide) (by decide) _
  | ld => exact not_mem_longText (by decide) w
  | lx => exact not_mem_hexText (by decide) (by decide) (by decide) w

theorem newline_not_mem_textFrom (strings : ∀ w, 10 ∉ args.string w) (plain : .byte 10 ∉ ps) (n : ℕ) :
    10 ∉ textFrom args n ps := by
  induction ps generalizing n with
  | nil => exact List.not_mem_nil
  | cons p ps ih =>
    rw [List.mem_cons, not_or] at plain
    cases p with
    | byte a =>
      rw [textFrom, List.mem_cons, not_or]
      refine ⟨?_, ih plain.2 n⟩
      rintro rfl
      exact plain.1 rfl
    | arg k =>
      rw [textFrom, List.mem_append, not_or]
      exact ⟨newline_not_mem_argText strings k _, ih plain.2 (n + 1)⟩

/-- A call with such a format prints one line, if its strings have no newline. -/
theorem isLine_text (format : LineFormat c.format.bytes) (strings : ∀ w, 10 ∉ c.args.string w) :
    IsLine c.text := by
  obtain ⟨ends, complete, plain⟩ := format
  refine ⟨levelText c.level ++ textFrom c.args 0 (pieces c.format.bytes.dropLast), ?_, ?_⟩
  · rw [LogCall.text, ends, List.dropLast_concat, pieces_append complete, textFrom_append,
      List.append_assoc]
    rfl
  · rw [List.mem_append, not_or]
    refine ⟨?_, newline_not_mem_textFrom strings plain 0⟩
    cases c.level <;> decide

end Calls

/-! ### The memory map -/

/-- What the log tells of an entry: its first address, the first one past it, and the name of its type. -/
abbrev Report := U64 × U64 × List U8

def readHex (text : List U8) : Option U64 := (read hexValue 16 text).map (BitVec.ofNat 64)

/-- An entry, if the line tells one. -/
def entryOfLine (line : List U8) : Option Report :=
  match readCall .info (memmapLine ⟨0, 0, 0⟩ []).format.bytes line with
  | some [base, last, name] => do
    let base ← readHex base
    let last ← readHex last
    return (base, last, name)
  | _ => none

/-- The memory map, from all that was written to the port. -/
def mapOfLog (log : List U8) : List Report :=
  (log.splitOn 10).filterMap fun line => entryOfLine (line ++ [10])

/-- What the log tells of the entries whose types have names. -/
def reports (r : List MemmapEntry) : List Report :=
  r.filterMap fun e => (memmapTypeName e.type).map fun name => (e.base, e.base + e.length, name)

section Memmap

variable {r : List MemmapEntry} {e : MemmapEntry} {name : List U8} {calls : List LogCall}

theorem mapOfLog_flatMap (lines : ∀ c ∈ calls, IsLine c.text) :
    mapOfLog (calls.flatMap LogCall.text) = calls.filterMap fun c => entryOfLine c.text := by
  induction calls with
  | nil => rfl
  | cons c calls ih =>
    rw [List.forall_mem_cons] at lines
    obtain ⟨⟨body, text, plain⟩, rest⟩ := lines
    have later := ih rest
    rw [mapOfLog] at later ⊢
    rw [List.flatMap_cons, text, List.append_assoc, List.singleton_append,
      List.splitOn_append_cons_self_of_not_mem plain, List.filterMap_cons, List.filterMap_cons, later, text]

theorem readHex_hexText (w : U64) : readHex (hexText w) = some w := by
  rw [readHex, (isNumeral_hexText (by decide) (by decide) w).read, Option.map_some,
    BitVec.ofNat_toNat, BitVec.setWidth_eq]

/-- The names of the types. -/
theorem plain_memmapTypeName {type : U64} (named : memmapTypeName type = some name) :
    10 ∉ name ∧ name.takeWhile (· ≠ 0) = name := by
  unfold memmapTypeName at named
  split at named <;> cases named <;> decide

/-- The line for an entry is read back. -/
theorem entryOfLine_memmapLine (named : memmapTypeName e.type = some name) :
    entryOfLine (memmapLine e name).text = some (e.base, e.base + e.length, name) := by
  obtain ⟨plain, whole⟩ := plain_memmapTypeName named
  have texts : argTexts (memmapLine e name).args 0 (pieces (memmapLine e name).format.bytes) =
      [hexText e.base, hexText (e.base + e.length), name.takeWhile (· ≠ 0)] := rfl
  have delimited : Delimited (parts (pieces (memmapLine e name).format.bytes))
      [hexText e.base, hexText (e.base + e.length), name.takeWhile (· ≠ 0)] := by
    rw [whole]
    exact ⟨not_mem_hexText (by decide) (by decide) (by decide) _,
      not_mem_hexText (by decide) (by decide) (by decide) _, plain, rfl⟩
  have fields := readCall_text (texts ▸ delimited)
  rw [texts, whole] at fields
  have same : entryOfLine (memmapLine e name).text =
    (match readCall (memmapLine e name).level (memmapLine e name).format.bytes (memmapLine e name).text with
    | some [base, last, name] => do
      let base ← readHex base
      let last ← readHex last
      return (base, last, name)
    | _ => none) := rfl
  rw [same, fields]
  simp only [readHex_hexText]
  rfl

theorem isLine_memmapLine (named : memmapTypeName e.type = some name) :
    IsLine (memmapLine e name).text :=
  isLine_text (c := memmapLine e name) (show LineFormat (memmapLine ⟨0, 0, 0⟩ []).format.bytes by decide)
    fun _ => (plain_memmapTypeName named).1

theorem mem_memmapLines {c : LogCall} (hc : c ∈ memmapLines r) :
    ∃ e name, memmapTypeName e.type = some name ∧ c = memmapLine e name := by
  obtain ⟨e, -, line⟩ := List.mem_filterMap.1 hc
  obtain ⟨name, named, rfl⟩ := Option.map_eq_some_iff.1 line
  exact ⟨e, name, named, rfl⟩

theorem filterMap_memmapLines (r : List MemmapEntry) :
    (memmapLines r).filterMap (fun c => entryOfLine c.text) = reports r := by
  rw [memmapLines, reports, List.filterMap_filterMap]
  refine List.filterMap_congr fun e _ => ?_
  cases named : memmapTypeName e.type with
  | none => rfl
  | some name => exact entryOfLine_memmapLine named

end Memmap

/-! ### The other lines -/

section Others

variable {limine : Limine} {f : LimineFramebuffer} {p : Pmem} {c : LogCall} {works : Bool}

theorem isLine_ofWords {level : LogLevel} {format : CString} (line : LineFormat format.bytes) (ws : List U64) :
    IsLine (LogCall.text ⟨level, format, .ofWords ws⟩) :=
  isLine_text line fun _ => List.not_mem_nil

/-- A line that is not one of the memory map. -/
def OtherLine (c : LogCall) : Prop := IsLine c.text ∧ entryOfLine c.text = none

theorem otherLine_serial (hc : c ∈ serialLines works) : OtherLine c := by
  cases works with
  | true =>
    rw [List.mem_singleton.1 hc]
    exact ⟨isLine_ofWords (by decide) _, by decide⟩
  | false => cases hc

theorem otherLine_start (path : 10 ∉ limine.kernelFile.path) (hc : c ∈ startLines limine f) :
    OtherLine c := by
  simp only [startLines, List.mem_cons, List.not_mem_nil, or_false] at hc
  rcases hc with rfl | rfl | rfl | rfl
  · exact ⟨isLine_ofWords (by decide) _, rfl⟩
  · exact ⟨isLine_ofWords (by decide) _, rfl⟩
  · exact ⟨isLine_text (show LineFormat (kernelLine ⟨0, 0, []⟩).format.bytes by decide) fun _ => path, rfl⟩
  · exact ⟨isLine_ofWords (by decide) _, rfl⟩

/-- A line that begins with a number. -/
theorem entryOfLine_longText (w : U64) (rest : List U8) :
    entryOfLine (levelText .info ++ (longText w ++ rest)) = none := by
  have numeral := isNumeral_longText w
  obtain ⟨d, digits, text⟩ := List.exists_cons_of_ne_nil numeral.nonempty
  have digit : decValue d ≠ none :=
    value_of_mem numeral.read (by rw [text]; exact List.mem_cons_self)
  have other : ch 'M' ≠ d := by
    rintro rfl
    exact digit (by decide)
  have fields : readCall .info (memmapLine ⟨0, 0, 0⟩ []).format.bytes
      (levelText .info ++ (longText w ++ rest)) = none := by
    rw [readCall, cut_literal, text]
    exact if_neg other
  rw [entryOfLine, fields]

theorem otherLine_memory (root : U64)
    (hc : c ∈ [usableLine p, frameMapLine p, bitmapLine, pagingLine root, endLine]) : OtherLine c := by
  simp only [List.mem_cons, List.not_mem_nil, or_false] at hc
  rcases hc with rfl | rfl | rfl | rfl | rfl
  · exact ⟨isLine_ofWords (by decide) _, entryOfLine_longText _ _⟩
  · exact ⟨isLine_ofWords (by decide) _, rfl⟩
  · exact ⟨isLine_ofWords (by decide) _, by decide⟩
  · exact ⟨isLine_ofWords (by decide) _, rfl⟩
  · exact ⟨isLine_ofWords (by decide) _, by decide⟩

/-- Among other lines the reader takes those of the memory map. -/
theorem mapOfLog_around {before after : List LogCall} (first : ∀ c ∈ before, OtherLine c)
    (last : ∀ c ∈ after, OtherLine c) (r : List MemmapEntry) :
    mapOfLog ((before ++ (memmapLines r ++ after)).flatMap LogCall.text) = reports r := by
  have lines : ∀ c ∈ before ++ (memmapLines r ++ after), IsLine c.text := by
    intro c hc
    rcases List.mem_append.1 hc with hc | hc
    · exact (first c hc).1
    · rcases List.mem_append.1 hc with hc | hc
      · obtain ⟨e, name, named, rfl⟩ := mem_memmapLines hc
        exact isLine_memmapLine named
      · exact (last c hc).1
  have none_first : before.filterMap (fun c => entryOfLine c.text) = [] :=
    List.filterMap_eq_nil_iff.2 fun c hc => (first c hc).2
  have none_last : after.filterMap (fun c => entryOfLine c.text) = [] :=
    List.filterMap_eq_nil_iff.2 fun c hc => (last c hc).2
  rw [mapOfLog_flatMap lines, List.filterMap_append, List.filterMap_append, none_first, none_last,
    filterMap_memmapLines, List.nil_append, List.append_nil]

theorem mapOfLog_kmainLines (path : 10 ∉ limine.kernelFile.path) (works : Bool) (f : LimineFramebuffer)
    (p : Pmem) (root : U64) :
    mapOfLog ((serialLines works ++ kmainLines limine f p root).flatMap LogCall.text) =
      reports limine.memmap := by
  have parts : serialLines works ++ kmainLines limine f p root =
      (serialLines works ++ startLines limine f) ++ (memmapLines limine.memmap ++
        [usableLine p, frameMapLine p, bitmapLine, pagingLine root, endLine]) := by
    simp [kmainLines, initLines]
  rw [parts]
  apply mapOfLog_around
  · exact fun c hc => (List.mem_append.1 hc).elim otherLine_serial (otherLine_start path)
  · exact fun c hc => otherLine_memory root hc

end Others

/-! ### The log of a run -/

section Run

variable {image : Image} {limine : Limine} {rsp : U64} {f : LimineFramebuffer} {mem : Mem}

/-- The bytes that were written, in order. -/
def transcript (d : List Io) : List U8 := (d.filterMap Io.written).reverse.map Prod.snd

theorem Delivered.transcript {port : U16} {text : List U8} {d : List Io}
    (delivered : Delivered port text d) : Bintos.transcript d = text := by
  rw [Bintos.transcript, delivered.writes, List.reverse_reverse, List.map_map]
  exact List.map_id text

end Run

end Bintos
