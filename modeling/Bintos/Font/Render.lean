import Bintos.Font.Bounds
import Mathlib.Data.List.TakeWhile

/-!
# What `puts` shows

A string that fits on the screen is laid out on the grid of text cells, and after `puts` every cell with
a character shows its glyph, while the other pixels are those that were there before (`puts_renders`).
-/

namespace Bintos.Screen

open TextGrid

/-- The text cell of a pixel, for rows of `pitch` pixels. -/
def cellOf (pitch k : ℕ) : Cell := (k / pitch / 16, k % pitch / 8)

/-! ### One glyph -/

/-- The pixel in column `x` of row `y`. -/
theorem pixel_div_mod {pitch x : ℕ} (inside : x < pitch) (y : ℕ) :
    (y * pitch + x) / pitch = y ∧ (y * pitch + x) % pitch = x := by
  rw [Nat.add_comm, Nat.add_mul_div_right _ _ (by omega), Nat.div_eq_of_lt inside, Nat.zero_add,
    Nat.add_mul_mod_self_right, Nat.mod_eq_of_lt inside]
  exact ⟨rfl, rfl⟩

/-- The eight pixels of one byte of a glyph, in row `y` of the framebuffer and in the text column `c`. -/
theorem inByte_iff {pitch c y k : ℕ} (wide : 8 * c + 8 ≤ pitch) :
    c * 8 + y * pitch ≤ k ∧ k < c * 8 + y * pitch + 8 ↔ k / pitch = y ∧ k % pitch / 8 = c := by
  constructor
  · rintro ⟨low, high⟩
    obtain ⟨x, rfl⟩ := Nat.exists_eq_add_of_le' (show y * pitch ≤ k by omega)
    have narrow : x < pitch := by omega
    rw [Nat.add_comm x, (pixel_div_mod narrow y).1, (pixel_div_mod narrow y).2]
    omega
  · rintro ⟨rfl, column⟩
    have whole := Nat.div_add_mod' k pitch
    omega

/-- The pixels after the first `n` bytes of a glyph are stored from the text column `c` and the row `y`
of the framebuffer on. -/
theorem after_glyphStores (s : Screen) {c : ℕ} (wide : 8 * c + 8 ≤ s.pitch.toNat) (y : ℕ) (idx : U16)
    (n : ℕ) (fb : ℕ → U32) (k : ℕ) :
    Stores.after (glyphStores s (c * 8 + y * s.pitch.toNat) idx n) fb k =
      if (y ≤ k / s.pitch.toNat ∧ k / s.pitch.toNat < y + n) ∧ k % s.pitch.toNat / 8 = c then
        s.colour (s.fontData (idx + BitVec.ofNat 16 (k / s.pitch.toNat - y))) (k % s.pitch.toNat % 8)
      else fb k := by
  induction n with
  | zero => exact (if_neg (by omega)).symm
  | succ n ih =>
    have start : c * 8 + y * s.pitch.toNat + n * s.pitch.toNat =
        c * 8 + (y + n) * s.pitch.toNat := by ring
    rw [glyphStores, List.range_succ, List.reverse_append, List.reverse_singleton,
      List.singleton_append, List.flatMap_cons, Stores.after_append, byteStores, Stores.after_range,
      start]
    by_cases byte : k / s.pitch.toNat = y + n ∧ k % s.pitch.toNat / 8 = c
    · have inside := (inByte_iff wide).2 byte
      have whole := Nat.div_add_mod' k s.pitch.toNat
      rw [byte.1] at whole
      rw [if_pos inside, if_pos (by omega), byte.1, Nat.add_sub_cancel_left]
      congr 1
      omega
    · rw [if_neg ((inByte_iff wide).not.2 byte), ← glyphStores, ih]
      refine if_congr ?_ rfl rfl
      omega

/-- The colour of pixel `k` in a cell with the character `c`. -/
def glyphPixel (s : Screen) (c : U16) (k : ℕ) : U32 :=
  s.colour (s.fontData (c * 16 + BitVec.ofNat 16 (k / s.pitch.toNat % 16))) (k % s.pitch.toNat % 8)

/-- A glyph is shown in the cell of the cursor, and nowhere else. -/
theorem after_charStores {s : Screen} (grid : Grid s) (row : s.cursor.1 < s.rows.toNat)
    (column : s.cursor.2 < s.cols.toNat) {c : U16} (glyph : IsGlyph c) (fb : ℕ → U32) (k : ℕ) :
    Stores.after (charStores s c) fb k =
      if cellOf s.pitch.toNat k = s.cursor then glyphPixel s c k else fb k := by
  have cols := grid.cols
  have start : s.cell = s.cursor.2 * 8 + s.cursor.1 * 16 * s.pitch.toNat := by
    rw [grid.cell_eq row]
    ring
  rw [charStores, if_pos glyph, start, after_glyphStores s (by omega)]
  by_cases here : cellOf s.pitch.toNat k = s.cursor
  · obtain ⟨row, column⟩ := Prod.ext_iff.1 here
    dsimp only [cellOf] at row column
    have offset : k / s.pitch.toNat - s.cursor.1 * 16 = k / s.pitch.toNat % 16 := by omega
    rw [if_pos (by omega), if_pos here, offset, glyphPixel]
  · rw [if_neg here, if_neg]
    rintro ⟨rows, same⟩
    exact here (Prod.ext (by rw [cellOf]; omega) same)

/-! ### Strings -/

theorem putchar_glyphPixel (s : Screen) (c d : U16) (k : ℕ) :
    (s.putchar c).glyphPixel d k = s.glyphPixel d k := by
  obtain ⟨row, col, call⟩ := putchar_eq s c
  rw [call]
  rfl

theorem after_putchar (s : Screen) (c : U16) (fb : ℕ → U32) :
    Stores.after (s.putchar c).writes fb =
      Stores.after (charStores s c) (Stores.after s.writes fb) := by
  rw [putchar_writes, Stores.after_append]

theorem cursor_newline {s : Screen} (row : s.cursor.1 < s.rows.toNat) :
    (s.putchar 10).cursor = (s.cursor.1 + 1, 0) := by
  have rows := s.rows.isLt
  rw [cursor_putchar]
  refine Terminal.advance_newline _ |>.trans (Prod.ext (Nat.mod_eq_of_lt ?_) rfl)
  show s.cursor.1 + 1 < 2 ^ 16
  omega

theorem cursor_glyph {s : Screen} (row : s.cursor.1 < s.rows.toNat)
    (column : s.cursor.2 < s.cols.toNat) {c : U16} (glyph : IsGlyph c) :
    (s.putchar c).cursor = next s.cols.toNat s.cursor := by
  have rows := s.rows.isLt
  rw [cursor_putchar]
  refine Terminal.advance_char glyph.1 glyph.2 ?_ column s.cols.isLt
  show s.cursor.1 + 1 < 2 ^ 16
  omega

/-- From the cell `p` of the cursor on, a text is shown as it is laid out.  The cursor may be below the
screen, where the number of its row may wrap, when no character follows. -/
theorem after_text {s : Screen} (grid : Grid s) {p : Cell} (column : p.2 < s.cols.toNat)
    (here : p.1 < s.rows.toNat → s.cursor = p) {text : List U16} (tabs : 9 ∉ text)
    (fits : ∀ q c, (q, c) ∈ layout s.cols.toNat 10 p text → q.1 < s.rows.toNat) (fb : ℕ → U32)
    (k : ℕ) :
    (∀ c, (cellOf s.pitch.toNat k, c) ∈ layout s.cols.toNat 10 p text →
        Stores.after (text.foldl putchar s).writes fb k = s.glyphPixel c k) ∧
      ((∀ c, (cellOf s.pitch.toNat k, c) ∉ layout s.cols.toNat 10 p text) →
        Stores.after (text.foldl putchar s).writes fb k = Stores.after s.writes fb k) := by
  induction text generalizing s p with
  | nil => exact ⟨fun c taken => (List.not_mem_nil taken).elim, fun _ => rfl⟩
  | cons d text ih =>
    rw [List.mem_cons, not_or] at tabs
    obtain ⟨pitch, -, rows, cols⟩ := putchar_geometry s d
    have ih := @ih (s.putchar d) (grid.putchar d)
    simp only [pitch, rows, cols, putchar_glyphPixel, after_putchar] at ih
    rw [List.foldl_cons]
    by_cases newline : d = 10
    · subst newline
      rw [layout_newline] at fits ⊢
      refine ih (Nat.zero_lt_of_lt column) (fun row => ?_) tabs.2 fits
      have there := here (Nat.lt_of_succ_lt row)
      rw [← there] at row ⊢
      exact cursor_newline (Nat.lt_of_succ_lt row)
    · have glyph : IsGlyph d := ⟨newline, Ne.symm tabs.1⟩
      rw [layout_char newline] at fits ⊢
      have there := here (fits p d List.mem_cons_self)
      subst there
      have row := fits s.cursor d List.mem_cons_self
      obtain ⟨shown, kept⟩ := ih (next_snd_lt column) (fun _ => cursor_glyph row column glyph)
        tabs.2 fun q c taken => fits q c (List.mem_cons_of_mem _ taken)
      rw [after_charStores grid row column glyph] at kept
      refine ⟨fun c taken => ?_, fun free => ?_⟩
      · rcases List.mem_cons.1 taken with first | later
        · obtain ⟨cell, rfl⟩ := Prod.mk.inj first
          rw [kept (fun e => cell ▸ not_mem_next e), if_pos cell]
        · exact shown c later
      · have elsewhere : cellOf s.pitch.toNat k ≠ s.cursor :=
          fun cell => free d (cell ▸ List.mem_cons_self)
        rw [kept fun c taken => free c (List.mem_cons_of_mem _ taken), if_neg elsewhere]

theorem signExtend_ascii {b : U8} (ascii : b.toNat ≤ 127) : b.signExtend 16 = b.setWidth 16 :=
  BitVec.signExtend_eq_setWidth_of_msb_false (BitVec.msb_eq_false_iff_two_mul_lt.2 (by omega))

theorem chars_of_nul {str : List U8} (nul : 0 ∉ str) : chars str = str.map (·.signExtend 16) := by
  have whole : str.takeWhile (· ≠ 0) = str :=
    List.takeWhile_eq_self_iff.2 fun b hb => decide_eq_true fun e => nul (e ▸ hb)
  rw [chars, whole]

theorem chars_ascii {str : List U8} (ascii : ∀ b ∈ str, 1 ≤ b.toNat ∧ b.toNat ≤ 127) :
    chars str = str.map (BitVec.setWidth 16) := by
  rw [chars_of_nul fun nul => absurd (ascii 0 nul).1 (by decide)]
  exact List.map_congr_left fun b hb => signExtend_ascii (ascii b hb).2

theorem cellOf_pixel {pitch x : ℕ} (inside : x < pitch) (y : ℕ) :
    cellOf pitch (y * pitch + x) = (y / 16, x / 8) := by
  rw [cellOf, (pixel_div_mod inside y).1, (pixel_div_mod inside y).2]

theorem glyphPixel_initFont (font : U16 → U8) {p : U32} (w h fg bg : U32) (b : U8) {x : ℕ}
    (inside : x < (p / 4).toNat) (y : ℕ) :
    glyphPixel (initFont font p w h fg bg) (b.setWidth 16) (y * (p / 4).toNat + x) =
      if (font (BitVec.ofNat 16 (16 * b.toNat + y % 16))).getLsbD (7 - x % 8) then fg else bg := by
  obtain ⟨row, column⟩ := pixel_div_mod inside y
  have byte : b.setWidth 16 * 16 + BitVec.ofNat 16 (y % 16) =
      BitVec.ofNat 16 (16 * b.toNat + y % 16) := by
    bv_omega
  rw [glyphPixel, show (initFont font p w h fg bg).pitch = p / 4 from rfl, row, column, byte]
  rfl

theorem layout_setWidth (cols : ℕ) (p : Cell) (str : List U8) :
    layout cols 10 p (str.map (BitVec.setWidth 16)) =
      (layout cols 10 p str).map (Prod.map id (BitVec.setWidth 16)) := by
  refine layout_map fun b _ => ⟨fun e => ?_, ?_⟩
  · bv_omega
  · rintro rfl
    rfl

/-- **The text on the screen.**  A string of ASCII characters without tab that fits on the screen is
shown by `puts` as it is laid out, and the pixels of the cells without a character and those outside
the cells stay. -/
theorem puts_renders (font : U16 → U8) {p w h : U32} (fg bg : U32) (wide : w ≤ p / 4)
    (column : 8 ≤ w.toNat) (cols : w.toNat / 8 < 2 ^ 16) (rows : h.toNat / 16 < 2 ^ 16)
    (size : (p / 4).toNat * h.toNat < 2 ^ 32) {str : List U8}
    (ascii : ∀ b ∈ str, 1 ≤ b.toNat ∧ b.toNat ≤ 127) (tabs : 9 ∉ str)
    (fits : ∀ q b, (q, b) ∈ layout (w.toNat / 8) 10 (0, 0) str → q.1 < h.toNat / 16)
    (fb : ℕ → U32) {x : ℕ} (inside : x < (p / 4).toNat) (y : ℕ) :
    let px := y * (p / 4).toNat + x
    let shown := Stores.after (puts (initFont font p w h fg bg) str).writes fb
    (∀ b, ((y / 16, x / 8), b) ∈ layout (w.toNat / 8) 10 (0, 0) str →
        shown px = if (font (BitVec.ofNat 16 (16 * b.toNat + y % 16))).getLsbD (7 - x % 8) then fg
          else bg) ∧
      ((∀ b, ((y / 16, x / 8), b) ∉ layout (w.toNat / 8) 10 (0, 0) str) → shown px = fb px) ∧
      (8 * (w.toNat / 8) ≤ x ∨ 16 * (h.toNat / 16) ≤ y → shown px = fb px) := by
  have its_cols := cols_initFont font p h fg bg cols
  have its_rows : (initFont font p w h fg bg).rows.toNat = h.toNat / 16 := by
    show ((h / 16).setWidth 16).toNat = _
    rw [BitVec.toNat_setWidth, BitVec.toNat_udiv]
    exact Nat.mod_eq_of_lt rows
  have plain : 9 ∉ str.map (BitVec.setWidth 16) := by
    rw [List.mem_map]
    rintro ⟨b, hb, e⟩
    rw [show b = 9 by bv_omega] at hb
    exact tabs hb
  have text := after_text (s := initFont font p w h fg bg) (p := (0, 0))
    (grid_initFont font fg bg wide size) (show 0 < _ by omega) (fun _ => rfl) plain ?fits fb
    (y * (p / 4).toNat + x)
  case fits =>
    rw [its_cols, its_rows, layout_setWidth]
    intro q c taken
    obtain ⟨⟨q', b⟩, taken', e⟩ := List.mem_map.1 taken
    rw [Prod.map_apply, Prod.mk.injEq] at e
    exact e.1 ▸ fits q' b taken'
  rw [its_cols, layout_setWidth, show (initFont font p w h fg bg).pitch = p / 4 from rfl,
    cellOf_pixel inside, ← chars_ascii ascii, ← puts_eq] at text
  obtain ⟨shown, kept⟩ := text
  have free (none : ∀ b, ((y / 16, x / 8), b) ∉ layout (w.toNat / 8) 10 (0, 0) str) :
      Stores.after (puts (initFont font p w h fg bg) str).writes fb (y * (p / 4).toNat + x) =
        fb (y * (p / 4).toNat + x) := by
    refine kept fun c taken => ?_
    obtain ⟨⟨q, b⟩, taken', e⟩ := List.mem_map.1 taken
    rw [Prod.map_apply, Prod.mk.injEq] at e
    exact none b (e.1 ▸ taken')
  refine ⟨fun b taken => ?_, free, fun outside => free fun b taken => ?_⟩
  · exact (shown _ (List.mem_map_of_mem taken)).trans (glyphPixel_initFont font w h fg bg b inside y)
  · have in_rows := fits _ b taken
    have in_cols := col_lt_of_mem (show 0 < _ by omega) taken
    omega

/-- Two rows of two columns in pixel rows of 20 pixels, with a text that wraps and one that has a line
feed before it. -/
theorem two_rows_rendered :
    let shown := Stores.after (puts (initFont (fun i => if i < 1600 then 0x81 else 0) 80 16 48 7 1)
      [97, 98, 99, 10, 100]).writes fun _ => 5
    shown (19 * 20 + 7) = 7 ∧ shown (19 * 20 + 8) = 5 ∧ shown (35 * 20 + 7) = 1 ∧
      shown (19 * 20 + 17) = 5 := by
  have rows : ∀ t ∈ layout 2 10 (0, 0) [(97 : U8), 98, 99, 10, 100], t.1.1 < 3 := by decide
  have free : ∀ t ∈ layout 2 10 (0, 0) [(97 : U8), 98, 99, 10, 100], t.1 ≠ (1, 1) := by decide
  have text (x y : ℕ) (inside : x < (80 / 4 : U32).toNat) :=
    @puts_renders (fun i => if i < 1600 then 0x81 else 0) 80 16 48 7 1 (by decide) (by decide)
      (by decide) (by decide) (by decide) [97, 98, 99, 10, 100] (by decide) (by decide)
      (fun q b taken => rows (q, b) taken) (fun _ => 5) x inside y
  refine ⟨?_, ?_, ?_, ?_⟩
  · exact (text 7 19 (by decide)).1 99 (by decide)
  · exact (text 8 19 (by decide)).2.1 fun b taken => free _ taken rfl
  · exact (text 7 35 (by decide)).1 100 (by decide)
  · exact (text 17 19 (by decide)).2.2 (by decide)

end Bintos.Screen
