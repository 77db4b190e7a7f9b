import Bintos.Machine

/-!
# Text on the framebuffer (`resources/font/font.c`)

The statics of the file and the functions that print text.  Pixels are numbered from `framebuffer_ptr`
on; the stores to them are kept in the order of the program, the last one first.
-/

namespace Bintos

/-- The statics of `font.c`, with the pixels stored so far. -/
structure Screen where
  pitch : U32
  width : U32
  height : U32
  rows : U16
  cols : U16
  rowIdx : U16
  colIdx : U16
  foreground : U32
  background : U32
  /-- the bytes of the glyphs, from `font_data` on -/
  fontData : U16 → U8
  /-- the stores to the framebuffer: pixel and colour -/
  writes : List (ℕ × U32)

/-- `init_font`; `font` are the glyphs that are linked in. -/
def initFont (font : U16 → U8) (p w h fg bg : U32) : Screen where
  pitch := p / 4
  width := w
  height := h
  rows := (h / 16).setWidth 16
  cols := (w / 8).setWidth 16
  rowIdx := 0
  colIdx := 0
  foreground := fg
  background := bg
  fontData := font
  writes := []

namespace Screen

/-- `set_text_cursor` -/
def setTextCursor (s : Screen) (row col : U32) : Screen :=
  { s with rowIdx := row.setWidth 16, colIdx := col.setWidth 16 }

/-- A store to the pixel `ptr`. -/
def store (ptr : ℕ) (colour : U32) (s : Screen) : Screen :=
  { s with writes := (ptr, colour) :: s.writes }

/-- The loop of `putchar` over the bits of one byte of the glyph, with `j` bits left. -/
def drawBits (ptr : ℕ) (bits : U8) : ℕ → Screen → Screen
  | 0, s => s
  | left + 1, s =>
    let j := 7 - left
    drawBits ptr bits left
      (s.store (ptr + (7 - j)) (if bits &&& (1#8 <<< j) ≠ 0 then s.foreground else s.background))

/-- The loop of `putchar` over the bytes of the glyph, with `left` bytes left. -/
def drawRows : ℕ → ℕ → U16 → Screen → Screen
  | 0, _, _, s => s
  | left + 1, ptr, idx, s =>
    drawRows left (ptr + s.pitch.toNat) (idx + 1) (drawBits ptr (s.fontData idx) 8 s)

/-- The first pixel of the cell that the cursor is at.  `col_idx * 8` is an `int`, and
`row_idx * pitch * 16` has 32 bits. -/
def cell (s : Screen) : ℕ :=
  s.colIdx.toNat * 8 + (s.rowIdx.setWidth 32 * s.pitch * 16).toNat

/-- `putchar` -/
def putchar (s : Screen) (c : U16) : Screen :=
  if c = 10 then
    { s with rowIdx := s.rowIdx + 1, colIdx := 0 }
  else if c = 9 then
    { s with colIdx := s.colIdx + 4 }
  else
    let s := drawRows 16 s.cell (c * 16) s
    let s := { s with colIdx := s.colIdx + 1 }
    if s.colIdx = s.cols then
      { s with colIdx := 0, rowIdx := s.rowIdx + 1 }
    else
      s

/-- `puts`; a `char` is signed and becomes a `uint16_t`.  The string ends at its first 0, or at the end
of the list, where the 0 is left out. -/
def puts (s : Screen) : List U8 → Screen
  | [] => s
  | c :: str => if c = 0 then s else puts (s.putchar (c.signExtend 16)) str

end Screen

end Bintos
