import Bintos.Font.Drawing
import Bintos.Lib.TextGrid

/-!
# Where text is drawn

`putchar` moves the cursor without a look at `rows`, and a tab moves it over the last column.  The cells
that a text takes follow from its characters and the number of columns (`cursor_putchar`), and its pixels
lie inside the framebuffer exactly when the last pixel row of each of these cells does
(`text_inside_iff`), as it does for the cells on the screen (`Grid.lastRow_lt`).
-/

namespace Bintos.Screen

open TextGrid

/-- Every pixel stored so far is one of the first `n`. -/
def Inside (n : ℕ) (s : Screen) : Prop := ∀ px ∈ s.writes, px.1 < n

/-- The number of pixels of the framebuffer. -/
def size (s : Screen) : ℕ := s.pitch.toNat * s.height.toNat

/-- The characters of a string, as `puts` passes them on. -/
def chars (str : List U8) : List U16 := (str.takeWhile (· ≠ 0)).map (·.signExtend 16)

/-- The cell that the cursor is at. -/
def cursor (s : Screen) : Cell := (s.rowIdx.toNat, s.colIdx.toNat)

/-- The screen as a terminal.  The cursor is kept in two variables of 16 bits. -/
def terminal (cols : ℕ) : Terminal U16 where
  cols := cols
  width := 4
  count := 2 ^ 16
  newline := 10
  tab := 9

/-- The last pixel row that a text cell reaches, for pixel rows of `pitch` pixels.  The pixels above the
cell are counted with 32 bits, and what goes over the end of a pixel row goes on in the next one. -/
def lastRow (pitch : ℕ) (q : Cell) : ℕ :=
  (16 * q.1 * pitch % 2 ^ 32 + 8 * q.2 + 7) / pitch + 15

/-! ### One character -/

section Character

variable {s : Screen}

/-- The last pixel of the last row bounds the pixels of all rows. -/
theorem inside_glyphStores {ptr n size : ℕ} {idx : U16} :
    (∀ px ∈ glyphStores s ptr idx (n + 1), px.1 < size) ↔ ptr + n * s.pitch.toNat + 7 < size := by
  constructor
  · intro inside
    obtain ⟨px, stored, last⟩ := last_mem_glyphStores s ptr idx n
    rw [← last]
    exact inside px stored
  · intro last px stored
    obtain ⟨y, hy, x, hx, pixel⟩ := mem_glyphStores stored
    have rows : y * s.pitch.toNat ≤ n * s.pitch.toNat := Nat.mul_le_mul_right _ (by omega)
    omega

theorem putchar_size (s : Screen) (c : U16) : (s.putchar c).size = s.size := by
  rw [size, (putchar_geometry s c).1, (putchar_geometry s c).2.1, size]

theorem cell_eq (s : Screen) :
    s.cell = 16 * s.cursor.1 * s.pitch.toNat % 2 ^ 32 + 8 * s.cursor.2 := by
  have narrow : (s.rowIdx.setWidth 32).toNat = s.rowIdx.toNat := by
    rw [BitVec.toNat_setWidth, Nat.mod_eq_of_lt (by omega)]
  have factors : 16 * s.rowIdx.toNat * s.pitch.toNat = s.rowIdx.toNat * s.pitch.toNat * 16 := by ring
  rw [cell, cursor, BitVec.toNat_mul, BitVec.toNat_mul, narrow, factors, Nat.mul_comm 8]
  show _ + s.rowIdx.toNat * s.pitch.toNat % 2 ^ 32 * 16 % 2 ^ 32 = _
  omega

/-- The last pixel of the cell of the cursor is in the framebuffer when its pixel row is. -/
theorem cell_lt_iff (positive : 0 < s.pitch.toNat) :
    s.cell + 15 * s.pitch.toNat + 7 < s.size ↔
      lastRow s.pitch.toNat s.cursor < s.height.toNat := by
  have last : s.cell + 15 * s.pitch.toNat + 7 =
      16 * s.cursor.1 * s.pitch.toNat % 2 ^ 32 + 8 * s.cursor.2 + 7 + 15 * s.pitch.toNat := by
    rw [cell_eq]
    omega
  rw [last, size, Nat.mul_comm s.pitch.toNat, ← Nat.div_lt_iff_lt_mul positive,
    Nat.add_mul_div_right _ _ positive, lastRow]

/-- One character stores pixels in the framebuffer exactly when it is drawn in a cell inside. -/
theorem inside_putchar (positive : 0 < s.pitch.toNat) (c : U16) :
    Inside s.size (s.putchar c) ↔
      Inside s.size s ∧ (IsGlyph c → lastRow s.pitch.toNat s.cursor < s.height.toNat) := by
  have drawn : (∀ px ∈ charStores s c, px.1 < s.size) ↔
      (IsGlyph c → lastRow s.pitch.toNat s.cursor < s.height.toNat) := by
    rw [charStores]
    split_ifs with glyph
    · rw [inside_glyphStores, forall_prop_of_true glyph, cell_lt_iff positive]
    · exact iff_of_true (fun _ none => absurd none List.not_mem_nil) fun h => absurd h glyph
  rw [Inside, putchar_writes, List.forall_mem_append, drawn, and_comm, Inside]

/-- The cursor goes on as on the terminal. -/
theorem cursor_putchar (s : Screen) (c : U16) :
    (s.putchar c).cursor = (terminal s.cols.toNat).advance s.cursor c := by
  rw [Terminal.advance, terminal]
  by_cases newline : c = 10
  · rw [if_pos newline, newline, putchar_newline]
    exact Prod.ext (BitVec.toNat_add _ _) rfl
  by_cases tab : c = 9
  · rw [if_neg newline, if_pos tab, tab, putchar_tab]
    exact Prod.ext rfl (BitVec.toNat_add _ _)
  have wrap : s.colIdx + 1 = s.cols ↔ (s.colIdx.toNat + 1) % 2 ^ 16 = s.cols.toNat := by
    rw [← BitVec.toNat_inj, BitVec.toNat_add]
    rfl
  rw [if_neg newline, if_neg tab, putchar_glyph ⟨newline, tab⟩, cursor, cursor]
  simp only [wrap]
  split_ifs with last
  · exact Prod.ext (BitVec.toNat_add _ _) rfl
  · exact Prod.ext rfl (BitVec.toNat_add _ _)

end Character

/-! ### Texts -/

section Text

/-- The cells of the text are in the framebuffer. -/
def Fits (s : Screen) (text : List U16) : Prop :=
  ∀ q ∈ (terminal s.cols.toNat).cells s.cursor text, lastRow s.pitch.toNat q < s.height.toNat

theorem fits_cons (s : Screen) (c : U16) (text : List U16) :
    Fits s (c :: text) ↔ (IsGlyph c → lastRow s.pitch.toNat s.cursor < s.height.toNat) ∧
      Fits (s.putchar c) text := by
  obtain ⟨pitch, height, -, cols⟩ := putchar_geometry s c
  rw [Fits, Fits, cursor_putchar, pitch, height, cols]
  by_cases glyph : IsGlyph c
  · rw [Terminal.cells_char glyph.1 glyph.2, List.forall_mem_cons, forall_prop_of_true glyph]
  · have control : c = 10 ∨ c = 9 := (not_and_or.1 glyph).imp not_not.1 not_not.1
    rw [Terminal.cells_control control, forall_prop_of_false glyph, true_and]

theorem inside_text {s : Screen} (positive : 0 < s.pitch.toNat) (text : List U16) :
    Inside s.size (text.foldl putchar s) ↔ Inside s.size s ∧ Fits s text := by
  induction text generalizing s with
  | nil => exact (and_iff_left fun _ none => absurd none List.not_mem_nil).symm
  | cons c text ih =>
    have rest := @ih (s.putchar c) (by rwa [(putchar_geometry s c).1])
    rw [putchar_size, inside_putchar positive] at rest
    rw [List.foldl_cons, rest, fits_cons, and_assoc]

theorem chars_cons {c : U8} (more : ¬ c = 0#8) (str : List U8) :
    chars (c :: str) = c.signExtend 16 :: chars str := by
  simp [chars, more]

theorem puts_eq (s : Screen) (str : List U8) : s.puts str = (chars str).foldl putchar s := by
  induction str generalizing s with
  | nil => rfl
  | cons c str ih =>
    rw [puts]
    split_ifs with last
    · simp [chars, last]
    · rw [ih, chars_cons last, List.foldl_cons]

/-- A sequence of calls of `puts` prints the characters of the strings. -/
theorem foldl_puts (s : Screen) (strs : List (List U8)) :
    strs.foldl puts s = (strs.flatMap chars).foldl putchar s := by
  induction strs generalizing s with
  | nil => rfl
  | cons str strs ih => rw [List.foldl_cons, ih, puts_eq, List.flatMap_cons, List.foldl_append]

theorem cols_initFont (font : U16 → U8) (p h fg bg : U32) {w : U32} (cols : w.toNat / 8 < 2 ^ 16) :
    (initFont font p w h fg bg).cols.toNat = w.toNat / 8 := by
  show ((w / 8).setWidth 16).toNat = _
  rw [BitVec.toNat_setWidth, BitVec.toNat_udiv]
  exact Nat.mod_eq_of_lt cols

/-- **Text in the framebuffer.**  Calls of `puts` store pixels inside the framebuffer only, exactly when
the last pixel row of every cell that their text takes is inside. -/
theorem text_inside_iff (font : U16 → U8) {p w : U32} (h fg bg : U32) (wide : w ≤ p / 4)
    (column : 8 ≤ w.toNat) (cols : w.toNat / 8 < 2 ^ 16) (strs : List (List U8)) :
    (∀ px ∈ (strs.foldl puts (initFont font p w h fg bg)).writes,
        px.1 < (p / 4).toNat * h.toNat) ↔
      ∀ q ∈ (terminal (w.toNat / 8)).cells (0, 0) (strs.flatMap chars),
        lastRow (p / 4).toNat q < h.toNat := by
  have wide : w.toNat ≤ (p / 4).toNat := wide
  have positive : 0 < (initFont font p w h fg bg).pitch.toNat := show 0 < (p / 4).toNat by omega
  have text := inside_text positive (strs.flatMap chars)
  have start : Inside (initFont font p w h fg bg).size (initFont font p w h fg bg) :=
    fun px none => absurd none List.not_mem_nil
  rw [and_iff_right start, Fits, cols_initFont font p h fg bg cols] at text
  rw [foldl_puts]
  exact text

/-- Four rows of five columns in pixel rows of 44 pixels.  The first string wraps to the second row, and
the tab in the other one goes over the last column. -/
theorem two_strings_inside :
    (terminal 5).cells (0, 0) ([[97, 98, 99, 100, 101, 102], [10, 120, 9, 121]].flatMap chars) =
      [(0, 0), (0, 1), (0, 2), (0, 3), (0, 4), (1, 0), (2, 0), (2, 5)] ∧
    ∀ px ∈ ([[97, 98, 99, 100, 101, 102], [10, 120, 9, 121]].foldl puts
      (initFont (fun _ => 0x81) 176 40 64 0xFFFFFF 0)).writes,
      px.1 < (176 / 4 : U32).toNat * (64 : U32).toNat :=
  ⟨by decide, (text_inside_iff (fun _ => 0x81) 64 0xFFFFFF 0 (by decide) (by decide) (by decide)
    [[97, 98, 99, 100, 101, 102], [10, 120, 9, 121]]).2 (by decide)⟩

/-- On a screen of one row and one column the second character is drawn below the framebuffer. -/
theorem second_character_outside :
    ¬ ∀ px ∈ (puts (initFont (fun _ => 0) 32 8 16 0xFFFFFF 0) [97, 98]).writes,
      px.1 < (32 / 4 : U32).toNat * (16 : U32).toNat := by
  intro inside
  rw [puts_eq] at inside
  have text := (inside_text (s := initFont (fun _ => 0) 32 8 16 0xFFFFFF 0) (by decide)
    (chars [97, 98])).1 inside
  exact absurd (text.2 (1, 0) (by decide)) (by decide)

end Text

/-! ### On the screen -/

section OnScreen

/-- The rows and columns fit into the framebuffer, whose pixels have numbers of 32 bits. -/
structure Grid (s : Screen) : Prop where
  rows : 16 * s.rows.toNat ≤ s.height.toNat
  cols : 8 * s.cols.toNat ≤ s.pitch.toNat
  size : s.size < 2 ^ 32

theorem grid_initFont (font : U16 → U8) {p w h : U32} (fg bg : U32) (wide : w ≤ p / 4)
    (size : (p / 4).toNat * h.toNat < 2 ^ 32) : Grid (initFont font p w h fg bg) := by
  have rows : ((h / 16).setWidth 16).toNat ≤ h.toNat / 16 := by
    rw [BitVec.toNat_setWidth, BitVec.toNat_udiv]
    exact Nat.mod_le _ _
  have cols : ((w / 8).setWidth 16).toNat ≤ w.toNat / 8 := by
    rw [BitVec.toNat_setWidth, BitVec.toNat_udiv]
    exact Nat.mod_le _ _
  have wide : w.toNat ≤ (p / 4).toNat := wide
  refine ⟨?_, ?_, size⟩
  · show 16 * ((h / 16).setWidth 16).toNat ≤ h.toNat
    omega
  · show 8 * ((w / 8).setWidth 16).toNat ≤ (p / 4).toNat
    omega

theorem Grid.putchar {s : Screen} (grid : Grid s) (c : U16) : Grid (s.putchar c) := by
  have same := putchar_geometry s c
  refine ⟨?_, ?_, (putchar_size s c).trans_lt grid.size⟩
  · rw [same.2.1, same.2.2.1]
    exact grid.rows
  · rw [same.1, same.2.2.2]
    exact grid.cols

theorem Grid.pitch_pos {s : Screen} (grid : Grid s) (cols : 0 < s.cols.toNat) : 0 < s.pitch.toNat := by
  have narrow := grid.cols
  omega

/-- The pixels of a row of cells are in the framebuffer. -/
theorem Grid.rows_lt {s : Screen} (grid : Grid s) {row : ℕ} (inside : row < s.rows.toNat) :
    16 * row * s.pitch.toNat + 16 * s.pitch.toNat ≤ s.size := by
  have rows := grid.rows
  have expand : 16 * (row + 1) * s.pitch.toNat =
      16 * row * s.pitch.toNat + 16 * s.pitch.toNat := by ring
  rw [← expand, Screen.size, Nat.mul_comm s.pitch.toNat]
  exact Nat.mul_le_mul_right _ (by omega)

/-- The number of the first pixel of a cell on the screen does not wrap. -/
theorem Grid.cell_eq {s : Screen} (grid : Grid s) (row : s.cursor.1 < s.rows.toNat) :
    s.cell = 8 * s.cursor.2 + 16 * s.cursor.1 * s.pitch.toNat := by
  have above := grid.rows_lt row
  have size := grid.size
  rw [Screen.cell_eq, Nat.mod_eq_of_lt (by omega), Nat.add_comm]

/-- A cell on the screen ends on its own last pixel row. -/
theorem Grid.lastRow_lt {s : Screen} (grid : Grid s) {q : Cell} (row : q.1 < s.rows.toNat)
    (col : q.2 < s.cols.toNat) : lastRow s.pitch.toNat q < s.height.toNat := by
  have rows := grid.rows
  have cols := grid.cols
  have size := grid.size
  have above := grid.rows_lt row
  have narrow : 8 * q.2 + 7 < s.pitch.toNat := by omega
  rw [lastRow, Nat.mod_eq_of_lt (by omega), Nat.add_assoc, Nat.add_comm (16 * q.1 * _),
    Nat.add_mul_div_right _ _ (by omega), Nat.div_eq_of_lt narrow]
  omega

end OnScreen

end Bintos.Screen
