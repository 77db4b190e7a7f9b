import Bintos.Log.Format

/-!
# The scan of a format

`Does` says that a part of `logf` returns, and that it writes what a list of pieces stands for, fetches
the arguments of its conversions in order, and reads the format up to a given offset only.  A sequence
does what its parts do one after the other, and the whole scan does what the pieces of the format
stand for (`does_logScan`).
-/

namespace Bintos

/-- What the pieces make of the state, with the format read up to the offset `len`. -/
structure Effect (args : VaList) (len : ℕ) (ps : List Piece) (s s' : Log) : Prop where
  out : s'.out = s.out ++ textFrom args s.next ps
  next : s'.next = s.next + (conversions ps).length
  fetched : s'.fetched = s.fetched ++ (conversions ps).zipIdx s.next
  reads : (∀ i ∈ s.reads, i ≤ len) → ∀ i ∈ s'.reads, i ≤ len

/-- The computation returns `b`, with the effect of the pieces. -/
def Does (args : VaList) (len : ℕ) {β : Type} (m : LogM β) (b : β) (ps : List Piece) : Prop :=
  ∀ s, ∃ s', m.run s = .ok b s' ∧ Effect args len ps s s'

section Rules

variable {args : VaList} {len i : ℕ} {β γ : Type} {m : LogM β} {f : β → LogM γ} {b : β} {c : γ}
  {ps qs : List Piece} {s s' s'' : Log}

theorem Effect.trans (first : Effect args len ps s s') (second : Effect args len qs s' s'') :
    Effect args len (ps ++ qs) s s'' where
  out := by rw [second.out, first.out, first.next, textFrom_append, List.append_assoc]
  next := by rw [second.next, first.next, conversions_append, List.length_append, Nat.add_assoc]
  fetched := by
    rw [second.fetched, first.fetched, first.next, conversions_append, List.zipIdx_append,
      List.append_assoc]
  reads within := second.reads (first.reads within)

theorem does_pure (b : β) : Does args len (pure b) b [] := by
  intro s
  exact ⟨s, rfl, (List.append_nil _).symm, rfl, (List.append_nil _).symm, id⟩

theorem Does.bind (first : Does args len m b ps) (second : Does args len (f b) c qs) :
    Does args len (m >>= f) c (ps ++ qs) := by
  intro s
  obtain ⟨s', run, effect⟩ := first s
  obtain ⟨s'', run', effect'⟩ := second s'
  refine ⟨s'', ?_, effect.trans effect'⟩
  rw [EStateM.run_bind, run]
  exact run'

theorem does_readFormat {format : ℕ → U8} (within : i ≤ len) :
    Does args len (readFormat format i) (format i) [] := by
  intro s
  exact ⟨_, rfl, (List.append_nil _).symm, rfl, (List.append_nil _).symm,
    fun before => List.forall_mem_cons.2 ⟨within, before⟩⟩

/-- A byte that is read does not show in the effect. -/
theorem does_read {format : ℕ → U8} (within : i ≤ len) {f : U8 → LogM γ}
    (rest : Does args len (f (format i)) c qs) : Does args len (readFormat format i >>= f) c qs :=
  (does_readFormat within).bind rest

theorem Writes.does {m : LogM Unit} {text : List U8} (writes : Writes m text) :
    Does args len m () (text.map .byte) := by
  intro s
  obtain ⟨b, run⟩ := writes s
  refine ⟨_, run, ?_, ?_, ?_, id⟩
  · rw [textFrom_bytes]
  · rw [conversions_bytes]
    rfl
  · rw [conversions_bytes]
    exact (List.append_nil _).symm

theorem does_writeCom1 (a : U8) : Does args len (writeCom1 a) () [.byte a] :=
  (writes_writeCom1 a).does

theorem writes_logValue (args : VaList) (k : Conversion) (arg : U64) :
    Writes (logValue args k arg) (argText args k arg) := by
  cases k with
  | s =>
    rw [logValue, argText]
    split_ifs
    · exact writes_logCom1 _
    · exact writes_pure
  | d => exact writes_logInt _
  | x => exact writes_logHex (by decide) (by decide) _
  | ld => exact writes_logLong _
  | lx => exact writes_logHex (by decide) (by decide) _

theorem does_logArg (k : Conversion) : Does args len (logArg args k) () [.arg k] := by
  intro s
  obtain ⟨b, run⟩ := writes_logValue args k (args.word s.next)
    { s with next := s.next + 1, fetched := s.fetched ++ [(k, s.next)] }
  refine ⟨_, run, ?_, rfl, rfl, id⟩
  rw [textFrom, textFrom, List.append_nil]

end Rules

/-! ### The branches -/

section Branches

variable {args : VaList} {len i : ℕ} {format : ℕ → U8}

theorem does_logLongCase (within : i + 1 ≤ len) (more : format (i + 1) ≠ 0) :
    Does args len (logLongCase format args i) (i + 1) (formatter.emit .percentL (format (i + 1))) := by
  rw [logLongCase]
  apply does_read within
  rw [if_pos more]
  apply does_read within
  show Does _ _ _ _ (((longConversion (format (i + 1))).map _).getD _)
  rw [longConversion]
  split_ifs
  · exact (does_logArg .ld).bind (does_pure _)
  · exact (does_logArg .lx).bind (does_pure _)
  · exact (does_writeCom1 _).bind ((does_writeCom1 _).bind
      (does_read within ((does_writeCom1 _).bind (does_pure _))))

/-- At the end of the format `%l` is passed over. -/
theorem does_logLongCase_nil (within : i + 1 ≤ len) (nul : format (i + 1) = 0) :
    Does args len (logLongCase format args i) i [] := by
  rw [logLongCase]
  apply does_read within
  rw [if_neg (not_not.2 nul)]
  exact does_pure i

theorem does_logCase (within : i ≤ len) (short : format i ≠ ch 'l') :
    Does args len (logCase format args i) i (formatter.emit .percent (format i)) := by
  rw [logCase]
  apply does_read within
  show Does _ _ _ _ (if _ then [] else ((shortConversion (format i)).map _).getD _)
  rw [if_neg short, shortConversion]
  split_ifs
  · exact (does_logArg .s).bind (does_pure i)
  · exact (does_logArg .d).bind (does_pure i)
  · exact (does_logArg .x).bind (does_pure i)
  · exact (does_writeCom1 _).bind (does_read within ((does_writeCom1 _).bind (does_pure i)))

theorem does_logCase_long {j : ℕ} {ps : List Piece} (within : i ≤ len) (long : format i = ch 'l')
    (rest : Does args len (logLongCase format args i) j ps) :
    Does args len (logCase format args i) j ps := by
  rw [logCase]
  apply does_read within
  rw [long, if_neg (by decide), if_neg (by decide), if_neg (by decide), if_pos rfl]
  exact rest

theorem does_isConversion (within : i ≤ len) (more : format i = ch '%' → i + 1 ≤ len) :
    Does args len (isConversion format i)
      (decide (format i = ch '%' ∧ format (i + 1) ≠ 0)) [] := by
  rw [isConversion]
  apply does_read within
  by_cases percent : format i = ch '%'
  · rw [if_pos percent]
    apply does_read (more percent)
    simp only [percent, true_and]
    exact does_pure _
  · rw [if_neg percent]
    simp only [percent, false_and]
    exact does_pure _

end Branches

/-! ### The loop -/

/-- The format holds the text from the offset `i` on, and a NUL after it. -/
def StringAt (format : ℕ → U8) : ℕ → List U8 → Prop
  | i, [] => format i = 0
  | i, c :: text => format i = c ∧ c ≠ 0 ∧ StringAt format (i + 1) text

instance StringAt.decidable (format : ℕ → U8) :
    ∀ (i : ℕ) (text : List U8), Decidable (StringAt format i text)
  | i, [] => inferInstanceAs (Decidable (format i = 0))
  | i, c :: text =>
    have := StringAt.decidable format (i + 1) text
    inferInstanceAs (Decidable (format i = c ∧ c ≠ 0 ∧ StringAt format (i + 1) text))

section Loop

variable {args : VaList} {len i fuel : ℕ} {format : ℕ → U8} {c d : U8} {text : List U8}

/-- A round of the loop that writes the character at `i`. -/
theorem does_logScan_char {ps : List Piece} (within : i ≤ len) (more : format i ≠ 0)
    (literal : format i = ch '%' → i + 1 ≤ len ∧ format (i + 1) = 0)
    (rest : Does args len (logScan format args fuel (i + 1)) () ps) :
    Does args len (logScan format args (fuel + 1) i) () (.byte (format i) :: ps) := by
  rw [logScan]
  apply does_read within
  rw [if_pos more]
  have no : decide (format i = ch '%' ∧ format (i + 1) ≠ 0) = false :=
    decide_eq_false fun both => both.2 (literal both.1).2
  have test : Does args len (isConversion format i) false [] :=
    no ▸ does_isConversion within fun percent => (literal percent).1
  exact test.bind (does_read within ((does_writeCom1 _).bind rest))

/-- A round of the loop for a conversion, whose last character is at `j`. -/
theorem does_logScan_conversion {j : ℕ} {ps qs : List Piece} (within : i + 1 ≤ len)
    (percent : format i = ch '%') (more : format (i + 1) ≠ 0)
    (case : Does args len (logCase format args (i + 1)) j ps)
    (rest : Does args len (logScan format args fuel (j + 1)) () qs) :
    Does args len (logScan format args (fuel + 1) i) () (ps ++ qs) := by
  rw [logScan]
  apply does_read (Nat.le_of_succ_le within)
  rw [if_pos (by rw [percent]; decide)]
  have yes : decide (format i = ch '%' ∧ format (i + 1) ≠ 0) = true :=
    decide_eq_true ⟨percent, more⟩
  have test : Does args len (isConversion format i) true [] :=
    yes ▸ does_isConversion (Nat.le_of_succ_le within) fun _ => within
  exact test.bind (case.bind rest)

/-- The loop does what the pieces of the format stand for, and needs one round for each character and
one for the NUL at most. -/
theorem does_logScan (stored : StringAt format i text) (whole : i + text.length = len)
    (enough : text.length < fuel) :
    Does args len (logScan format args fuel i) () (formatter.run .none text) := by
  induction fuel generalizing i text with
  | zero => omega
  | succ fuel ih =>
    cases text with
    | nil =>
      have nul : format i = 0 := stored
      rw [logScan]
      apply does_read (by omega)
      rw [if_neg (not_not.2 nul)]
      exact does_pure ()
    | cons c text =>
      obtain ⟨rfl, more, stored⟩ := stored
      rw [List.length_cons] at whole enough
      by_cases percent : format i = ch '%'
      · cases text with
        | nil =>
          -- `%` at the end is written
          have last := does_logScan_char (by omega) more (fun _ => ⟨by omega, stored⟩)
            (ih (i := i + 1) stored (by omega) (by omega))
          rw [percent] at last ⊢
          exact last
        | cons d text =>
          obtain ⟨rfl, more', stored⟩ := stored
          rw [List.length_cons] at whole enough
          by_cases long : format (i + 1) = ch 'l'
          · cases text with
            | nil =>
              -- `%l` at the end is passed over
              have case : Does args len (logCase format args (i + 1)) (i + 1) [] :=
                does_logCase_long (by omega) long (does_logLongCase_nil (by omega) stored)
              have last := does_logScan_conversion (by omega) percent more' case
                (ih (i := i + 1 + 1) stored (by omega) (by omega))
              rw [percent, long]
              exact last
            | cons e text =>
              obtain ⟨rfl, more'', stored⟩ := stored
              rw [List.length_cons] at whole enough
              have case : Does args len (logCase format args (i + 1)) (i + 1 + 1) _ :=
                does_logCase_long (by omega) long (does_logLongCase (by omega) more'')
              rw [percent, long, run_percentL]
              exact does_logScan_conversion (by omega) percent more' case
                (ih stored (by omega) (by omega))
          · rw [percent, run_percent long]
            exact does_logScan_conversion (by omega) percent more'
              (does_logCase (by omega) long) (ih stored (by omega) (by omega))
      · rw [run_char percent]
        exact does_logScan_char (by omega) more (fun h => absurd h percent)
          (ih stored (by omega) (by omega))

end Loop

end Bintos
