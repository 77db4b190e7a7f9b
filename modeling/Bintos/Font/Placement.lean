import Bintos.Font.Render

/-!
# Texts anywhere on the screen

`set_text_cursor` moves the cursor, so that `puts` can write over texts that are already there.  The
framebuffer is then a grid of characters (`Shows`): a text changes the characters in its cells and nothing
else (`shows_place`).  After any number of texts each cell shows the character that was written to it last
(`places_render`).
-/

namespace Bintos.Screen

open TextGrid

/-- A text without tabs that fits on the screen as it is laid out is printed in the framebuffer. -/
theorem fits_of_layout {s : Screen} (grid : Grid s) {p : Cell}
    (column : p.2 < s.cols.toNat) (here : p.1 < s.rows.toNat → s.cursor = p) {text : List U16}
    (tabs : 9 ∉ text)
    (fits : ∀ q c, (q, c) ∈ layout s.cols.toNat 10 p text → q.1 < s.rows.toNat) :
    s.Fits text := by
  intro q taken
  obtain ⟨c, there⟩ := Terminal.mem_layout s.rows.isLt s.cols.isLt column here tabs fits taken
  exact grid.lastRow_lt (fits q c there) (col_lt_of_mem column there)

/-- A call of `set_text_cursor` with the call of `puts` after it. -/
structure Placement where
  row : U32
  col : U32
  str : List U8

/-- The cell that a text begins in.  The statics for the cursor have 16 bits. -/
def Placement.start (t : Placement) : Cell := (t.row.toNat % 2 ^ 16, t.col.toNat % 2 ^ 16)

/-- The two calls. -/
def place (s : Screen) (t : Placement) : Screen := (s.setTextCursor t.row t.col).puts t.str

/-- The characters are on the screen. -/
structure Placement.Fits (s : Screen) (t : Placement) : Prop where
  column : t.start.2 < s.cols.toNat
  tabs : 9 ∉ chars t.str
  rows : ∀ q c, (q, c) ∈ layout s.cols.toNat 10 t.start (chars t.str) → q.1 < s.rows.toNat

/-- The grid of characters after the two calls. -/
def Placement.write (cols : ℕ) (grid : Cell → Option U16) (t : Placement) : Cell → Option U16 :=
  TextGrid.write cols 10 grid t.start (chars t.str)

/-- The framebuffer shows the characters of a grid, and `base` in the cells without one. -/
def Shows (s : Screen) (fb base : ℕ → U32) (grid : Cell → Option U16) : Prop :=
  ∀ k, Stores.after s.writes fb k =
    (grid (cellOf s.pitch.toNat k)).elim (base k) (s.glyphPixel · k)

section Placement

variable {s : Screen} {t : Placement} {fb base : ℕ → U32} {grid : Cell → Option U16}

/-- A text moves the cursor and makes its stores, and that is all. -/
theorem text_eq (s : Screen) (text : List U16) : ∃ row col ws, text.foldl putchar s =
    { s with rowIdx := row, colIdx := col, writes := ws } := by
  induction text generalizing s with
  | nil => exact ⟨_, _, _, rfl⟩
  | cons c text ih =>
    obtain ⟨row, col, call⟩ := putchar_eq s c
    obtain ⟨row', col', ws, rest⟩ := ih (s.putchar c)
    refine ⟨row', col', ws, ?_⟩
    rw [List.foldl_cons, rest, call]

theorem place_eq (s : Screen) (t : Placement) : ∃ row col ws, s.place t =
    { s with rowIdx := row, colIdx := col, writes := ws } := by
  obtain ⟨row, col, ws, text⟩ := text_eq (s.setTextCursor t.row t.col) (chars t.str)
  exact ⟨row, col, ws, by rw [place, puts_eq, text]; rfl⟩

theorem cursor_setTextCursor (s : Screen) (t : Placement) :
    (s.setTextCursor t.row t.col).cursor = t.start := by
  refine Prod.ext ?_ ?_
  · exact BitVec.toNat_setWidth 16 t.row
  · exact BitVec.toNat_setWidth 16 t.col

theorem Grid.setTextCursor (onGrid : Grid s) (row col : U32) : Grid (s.setTextCursor row col) :=
  ⟨onGrid.rows, onGrid.cols, onGrid.size⟩

/-- One text changes the grid. -/
theorem shows_place (shows : Shows s fb base grid) (onGrid : Grid s) (fits : t.Fits s) :
    Shows (s.place t) fb base (t.write s.cols.toNat grid) := by
  intro k
  obtain ⟨row, col, ws, call⟩ := place_eq s t
  have pitch : (s.place t).pitch = s.pitch := by rw [call]
  have pixel (c : U16) : (s.place t).glyphPixel c k = s.glyphPixel c k := by
    rw [call]
    rfl
  obtain ⟨shown, kept⟩ := after_text (onGrid.setTextCursor t.row t.col) fits.column
    (fun _ => cursor_setTextCursor s t) fits.tabs fits.rows fb k
  rw [← puts_eq] at shown kept
  rw [pitch, Placement.write, TextGrid.write]
  cases char : charAt s.cols.toNat 10 t.start (chars t.str) (cellOf s.pitch.toNat k) with
  | some c => exact (shown c (charAt_eq_some_iff.1 char)).trans (pixel c).symm
  | none =>
    have before := kept fun c taken => by
      have there := charAt_eq_some_iff.2 taken
      exact Option.some_ne_none c (there.symm.trans char)
    simp only [pixel, Option.none_or]
    exact before.trans (shows k)

/-- One text stays in the framebuffer. -/
theorem inside_place (onGrid : Grid s) (fits : t.Fits s) (inside : Inside s.size s) :
    Inside s.size (s.place t) := by
  have room := fits_of_layout (onGrid.setTextCursor t.row t.col) fits.column
    (fun _ => cursor_setTextCursor s t) fits.tabs fits.rows
  have positive : 0 < s.pitch.toNat := onGrid.pitch_pos (Nat.zero_lt_of_lt fits.column)
  rw [Screen.place, puts_eq]
  exact (inside_text (s := s.setTextCursor t.row t.col) positive _).2 ⟨inside, room⟩

/-- Any number of texts changes the grid, one after the other. -/
theorem shows_places (shows : Shows s fb base grid) (onGrid : Grid s) {ts : List Placement}
    (fits : ∀ t ∈ ts, t.Fits s) (inside : Inside s.size s) :
    Inside s.size (ts.foldl place s) ∧
      Shows (ts.foldl place s) fb base (ts.foldl (Placement.write s.cols.toNat) grid) := by
  induction ts generalizing s grid with
  | nil => exact ⟨inside, shows⟩
  | cons t ts ih =>
    rw [List.forall_mem_cons] at fits
    have inside' := inside_place onGrid fits.1 inside
    have shows' := shows_place shows onGrid fits.1
    obtain ⟨row, col, ws, call⟩ := place_eq s t
    rw [List.foldl_cons, List.foldl_cons]
    rw [call] at inside' shows' ⊢
    exact ih shows' ⟨onGrid.rows, onGrid.cols, onGrid.size⟩
      (fun u hu => ⟨(fits.2 u hu).column, (fits.2 u hu).tabs, (fits.2 u hu).rows⟩) inside'

/-- **Texts over one another.**  When all texts fit, the stores stay in the framebuffer, and each cell
shows the character that was written to it last.  The pixels without a character are as before. -/
theorem places_render (onGrid : Grid s) {ts : List Placement} (fits : ∀ t ∈ ts, t.Fits s)
    (inside : Inside s.size s) (fb : ℕ → U32) :
    Inside s.size (ts.foldl place s) ∧
    Shows (ts.foldl place s) fb (Stores.after s.writes fb)
      (ts.foldl (Placement.write s.cols.toNat) fun _ => none) :=
  shows_places (fun _ => rfl) onGrid fits inside

end Placement

example : ([⟨1, 0, [97, 98, 99]⟩, ⟨0x10001, 2, [100, 101]⟩].foldl (Placement.write 5) fun _ => none)
    (1, 2) = some 100 := by decide

/-- A word, and another one over its end, on a screen of two lines of five cells. -/
theorem two_words_rendered :
    let s := initFont (fun _ => 0x81) 160 40 32 0xFFFFFF 0
    let ts : List Placement := [⟨1, 0, [97, 98, 99]⟩, ⟨0x10001, 2, [100, 101]⟩]
    Inside s.size (ts.foldl place s) ∧
    Shows (ts.foldl place s) (fun _ => 5) (fun _ => 5)
      (ts.foldl (Placement.write 5) fun _ => none) := by
  have rows : ∀ t ∈ [(⟨1, 0, [97, 98, 99]⟩ : Placement), ⟨0x10001, 2, [100, 101]⟩],
      ∀ x ∈ layout 5 10 t.start (chars t.str), x.1.1 < 2 := by
    decide
  refine places_render (grid_initFont _ _ _ (by decide) (by decide)) (fun t ht => ?_)
    (fun px none => absurd none List.not_mem_nil) _
  refine ⟨?_, ?_, fun q c taken => rows t ht (q, c) taken⟩
  · revert t
    decide
  · revert t
    decide

end Bintos.Screen
