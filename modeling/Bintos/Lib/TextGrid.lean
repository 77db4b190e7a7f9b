import Mathlib.Data.Prod.Lex

/-!
# Text on a grid

A text is laid out on a grid of cells, `cols` to a row: every character takes the current cell and goes
on to the next one, and the newline character goes on to the first cell of the next row.  The cells
that a text takes come one after the other (`cell_le_of_mem`), so that no cell is taken twice.  A text
that is written over others hides what they have in its cells (`write`).  On a terminal with tabs a text
can leave the columns; without tabs it takes the cells of its layout (`Terminal.mem_layout`).
-/

namespace TextGrid

/-- A cell, by its row and its column. -/
abbrev Cell := ℕ × ℕ

/-- The cell after a cell. -/
def next (cols : ℕ) (p : Cell) : Cell := if p.2 + 1 = cols then (p.1 + 1, 0) else (p.1, p.2 + 1)

variable {α : Type*} [DecidableEq α] {cols : ℕ} {newline c : α} {p q : Cell} {text : List α}

/-- The characters of the text from the cell `p` on, each with the cell it takes. -/
def layout (cols : ℕ) (newline : α) : Cell → List α → List (Cell × α)
  | _, [] => []
  | p, c :: text =>
    if c = newline then layout cols newline (p.1 + 1, 0) text
    else (p, c) :: layout cols newline (next cols p) text

theorem layout_newline (p : Cell) (text : List α) :
    layout cols newline p (newline :: text) = layout cols newline (p.1 + 1, 0) text :=
  if_pos rfl

theorem layout_char (visible : c ≠ newline) (p : Cell) (text : List α) :
    layout cols newline p (c :: text) = (p, c) :: layout cols newline (next cols p) text :=
  if_neg visible

theorem next_snd_lt (column : p.2 < cols) : (next cols p).2 < cols := by
  unfold next
  split_ifs with wrap
  · exact Nat.zero_lt_of_lt column
  · exact lt_of_le_of_ne column wrap

theorem lt_next (cols : ℕ) (p : Cell) : toLex p < toLex (next cols p) := by
  rw [Prod.Lex.toLex_lt_toLex, next]
  split_ifs
  · exact Or.inl (Nat.lt_succ_self _)
  · exact Or.inr ⟨rfl, Nat.lt_succ_self _⟩

/-- A text takes cells from the current one on. -/
theorem cell_le_of_mem (taken : (q, c) ∈ layout cols newline p text) : toLex p ≤ toLex q := by
  induction text generalizing p with
  | nil => cases taken
  | cons d text ih =>
    by_cases visible : d = newline
    · rw [visible, layout_newline] at taken
      have below : toLex p < toLex (p.1 + 1, 0) :=
        Prod.Lex.toLex_lt_toLex.2 (Or.inl (Nat.lt_succ_self _))
      exact below.le.trans (ih taken)
    · rw [layout_char visible, List.mem_cons, Prod.mk.injEq] at taken
      rcases taken with ⟨rfl, -⟩ | later
      · exact le_rfl
      · exact (lt_next cols p).le.trans (ih later)

/-- The cell of a character is not taken again. -/
theorem not_mem_next (c : α) : (p, c) ∉ layout cols newline (next cols p) text :=
  fun again => absurd (cell_le_of_mem again) (lt_next cols p).not_ge

theorem col_lt_of_mem (column : p.2 < cols) (taken : (q, c) ∈ layout cols newline p text) :
    q.2 < cols := by
  induction text generalizing p with
  | nil => cases taken
  | cons d text ih =>
    by_cases visible : d = newline
    · rw [visible, layout_newline] at taken
      exact ih (Nat.zero_lt_of_lt column) taken
    · rw [layout_char visible, List.mem_cons, Prod.mk.injEq] at taken
      rcases taken with ⟨rfl, -⟩ | later
      · exact column
      · exact ih (next_snd_lt column) later

/-- The layout of a text on one line. -/
theorem mem_layout_line (line : newline ∉ text) (room : p.2 + text.length ≤ cols) :
    (q, c) ∈ layout cols newline p text ↔
      q.1 = p.1 ∧ p.2 ≤ q.2 ∧ text[q.2 - p.2]? = some c := by
  induction text generalizing p with
  | nil => simp [layout]
  | cons d text ih =>
    rw [List.mem_cons, not_or] at line
    rw [List.length_cons] at room
    have rest : (q, c) ∈ layout cols newline (next cols p) text ↔
        q.1 = p.1 ∧ p.2 + 1 ≤ q.2 ∧ text[q.2 - (p.2 + 1)]? = some c := by
      by_cases last : p.2 + 1 = cols
      · rw [List.eq_nil_of_length_eq_zero (show text.length = 0 by omega)]
        simp [layout]
      · have here : next cols p = (p.1, p.2 + 1) := if_neg last
        rw [here, ih line.2 (by show p.2 + 1 + text.length ≤ cols; omega)]
    rw [layout_char (Ne.symm line.1), List.mem_cons, rest]
    rcases lt_trichotomy q.2 p.2 with before | here | after
    · have other : q ≠ p := fun same => absurd (same ▸ before) (lt_irrefl _)
      simp [other]
      omega
    · simp [here, Prod.ext_iff, eq_comm]
    · have other : q ≠ p := fun same => absurd (same ▸ after) (lt_irrefl _)
      have index : q.2 - p.2 = q.2 - (p.2 + 1) + 1 := by omega
      simp [other, index, after.le, Nat.succ_le_of_lt after]

/-- A translation of the characters that keeps the newline apart keeps the layout. -/
theorem layout_map {β : Type*} [DecidableEq β] {f : α → β} {newline' : β}
    (apart : ∀ c ∈ text, f c = newline' ↔ c = newline) :
    layout cols newline' p (text.map f) = (layout cols newline p text).map (Prod.map id f) := by
  induction text generalizing p with
  | nil => rfl
  | cons d text ih =>
    rw [List.forall_mem_cons] at apart
    rw [List.map_cons]
    by_cases visible : d = newline
    · rw [apart.1.2 visible, visible, layout_newline, layout_newline, ih apart.2]
    · rw [layout_char (apart.1.not.2 visible), layout_char visible, ih apart.2]
      rfl

/-! ### Several texts -/

theorem layout_unique {d : α} (taken : (q, c) ∈ layout cols newline p text)
    (again : (q, d) ∈ layout cols newline p text) : c = d := by
  induction text generalizing p with
  | nil => cases taken
  | cons e text ih =>
    by_cases visible : e = newline
    · rw [visible, layout_newline] at taken again
      exact ih taken again
    · rw [layout_char visible, List.mem_cons, Prod.mk.injEq] at taken again
      rcases taken with ⟨rfl, rfl⟩ | taken
      · rcases again with ⟨-, rfl⟩ | again
        · rfl
        · exact absurd again (not_mem_next d)
      · rcases again with ⟨rfl, rfl⟩ | again
        · exact absurd taken (not_mem_next c)
        · exact ih taken again

/-- The character that a text puts in a cell. -/
def charAt (cols : ℕ) (newline : α) (p : Cell) (text : List α) (q : Cell) : Option α :=
  ((layout cols newline p text).find? (·.1 = q)).map Prod.snd

theorem charAt_eq_some_iff :
    charAt cols newline p text q = some c ↔ (q, c) ∈ layout cols newline p text := by
  rw [charAt, Option.map_eq_some_iff]
  constructor
  · rintro ⟨⟨q', c'⟩, found, rfl⟩
    have test := List.find?_some found
    have here : q' = q := of_decide_eq_true test
    exact here ▸ List.mem_of_find?_eq_some found
  · intro taken
    cases found : (layout cols newline p text).find? (·.1 = q) with
    | none => exact absurd (decide_eq_true rfl) (List.find?_eq_none.1 found _ taken)
    | some t =>
      obtain ⟨q', c'⟩ := t
      have test := List.find?_some found
      have here : q' = q := of_decide_eq_true test
      have other : (q, c') ∈ layout cols newline p text := here ▸ List.mem_of_find?_eq_some found
      exact ⟨(q', c'), rfl, layout_unique other taken⟩

/-- The characters on the grid after a text is written over them. -/
def write (cols : ℕ) (newline : α) (grid : Cell → Option α) (p : Cell) (text : List α) :
    Cell → Option α :=
  fun q => (charAt cols newline p text q).or (grid q)

/-! ### Tabs -/

/-- A terminal with `cols` columns, on which a tab goes on by `width` columns and stays in its row.  Rows
and columns are counted modulo `count`. -/
structure Terminal (α : Type*) where
  cols : ℕ
  width : ℕ
  count : ℕ
  newline : α
  tab : α

namespace Terminal

variable {t : Terminal α} {p' : Cell} {n : ℕ}

/-- The cell after the character `c` in the cell `p`. -/
def advance (t : Terminal α) (p : Cell) (c : α) : Cell :=
  if c = t.newline then ((p.1 + 1) % t.count, 0)
  else if c = t.tab then (p.1, (p.2 + t.width) % t.count)
  else if (p.2 + 1) % t.count = t.cols then ((p.1 + 1) % t.count, 0)
  else (p.1, (p.2 + 1) % t.count)

/-- The cells that the characters of a text take from the cell `p` on. -/
def cells (t : Terminal α) : Cell → List α → List Cell
  | _, [] => []
  | p, c :: text =>
    if c = t.newline ∨ c = t.tab then cells t (t.advance p c) text
    else p :: cells t (t.advance p c) text

theorem cells_char (visible : c ≠ t.newline) (plain : c ≠ t.tab) (p : Cell) (text : List α) :
    t.cells p (c :: text) = p :: t.cells (t.advance p c) text :=
  if_neg (not_or.2 ⟨visible, plain⟩)

theorem cells_control (control : c = t.newline ∨ c = t.tab) (p : Cell) (text : List α) :
    t.cells p (c :: text) = t.cells (t.advance p c) text :=
  if_pos control

theorem advance_newline (p : Cell) : t.advance p t.newline = ((p.1 + 1) % t.count, 0) := if_pos rfl

theorem advance_char (visible : c ≠ t.newline) (plain : c ≠ t.tab) (row : p.1 + 1 < t.count)
    (column : p.2 < t.cols) (cols : t.cols < t.count) : t.advance p c = next t.cols p := by
  rw [advance, if_neg visible, if_neg plain, Nat.mod_eq_of_lt row, Nat.mod_eq_of_lt (by omega), next]

/-- The cells of a text without tabs, when its characters are in the first `n` rows.  The number of the
row may wrap below them, where no character follows. -/
theorem mem_layout (rows : n < t.count) (cols : t.cols < t.count) (column : p.2 < t.cols)
    (here : p.1 < n → p' = p) (tabs : t.tab ∉ text)
    (fits : ∀ q c, (q, c) ∈ layout t.cols t.newline p text → q.1 < n) (taken : q ∈ t.cells p' text) :
    ∃ c, (q, c) ∈ layout t.cols t.newline p text := by
  induction text generalizing p p' with
  | nil => cases taken
  | cons d text ih =>
    rw [List.mem_cons, not_or] at tabs
    by_cases newline : d = t.newline
    · subst newline
      rw [layout_newline] at fits ⊢
      rw [cells_control (Or.inl rfl), advance_newline] at taken
      refine ih (Nat.zero_lt_of_lt column) (fun row => ?_) tabs.2 fits taken
      have row : p.1 + 1 < n := row
      rw [here (by omega), Nat.mod_eq_of_lt (by omega)]
    · rw [layout_char newline] at fits ⊢
      have row := fits p d List.mem_cons_self
      obtain rfl := here row
      rw [cells_char newline (Ne.symm tabs.1),
        advance_char newline (Ne.symm tabs.1) (by omega) column cols, List.mem_cons] at taken
      rcases taken with rfl | later
      · exact ⟨d, List.mem_cons_self⟩
      · obtain ⟨c, there⟩ := ih (next_snd_lt column) (fun _ => rfl) tabs.2
          (fun q c h => fits q c (List.mem_cons_of_mem _ h)) later
        exact ⟨c, List.mem_cons_of_mem _ there⟩

end Terminal

end TextGrid
