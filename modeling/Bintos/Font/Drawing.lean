import Bintos.Font.Source
import Bintos.Lib.Stores

/-!
# The stores of a character

The loops of `putchar` store the eight pixels of each of the sixteen bytes of a glyph.  This file says
what `putchar` does to the cursor, and lists the stores it makes (`putchar_writes`).
-/

namespace Bintos.Screen

/-- The characters that are drawn. -/
def IsGlyph (c : U16) : Prop := c ≠ 10 ∧ c ≠ 9

instance : DecidablePred IsGlyph := fun _ => inferInstanceAs (Decidable (_ ∧ _))

section Glyph

variable {ptr : ℕ} {s : Screen}

/-- The loop over the bits only stores pixels. -/
theorem drawBits_eq (bits : U8) (left : ℕ) (s : Screen) :
    drawBits ptr bits left s = { s with writes := (drawBits ptr bits left s).writes } := by
  induction left generalizing s with
  | zero => rfl
  | succ left ih =>
    rw [drawBits, ih]
    rfl

theorem drawRows_eq (left : ℕ) (idx : U16) (s : Screen) :
    drawRows left ptr idx s = { s with writes := (drawRows left ptr idx s).writes } := by
  induction left generalizing ptr idx s with
  | zero => rfl
  | succ left ih =>
    rw [drawRows, ih, drawBits_eq]

/-- A glyph is drawn in the cell of the cursor, and the cursor goes on to the next one. -/
theorem putchar_glyph {c : U16} (glyph : IsGlyph c) (s : Screen) : s.putchar c = { s with
    colIdx := if s.colIdx + 1 = s.cols then 0 else s.colIdx + 1
    rowIdx := if s.colIdx + 1 = s.cols then s.rowIdx + 1 else s.rowIdx
    writes := (drawRows 16 s.cell (c * 16) s).writes } := by
  rw [putchar, if_neg glyph.1, if_neg glyph.2, drawRows_eq]
  show (if s.colIdx + 1 = s.cols then _ else _) = _
  split_ifs <;> rfl

theorem putchar_newline (s : Screen) :
    s.putchar 10 = { s with rowIdx := s.rowIdx + 1, colIdx := 0 } := rfl

theorem putchar_tab (s : Screen) : s.putchar 9 = { s with colIdx := s.colIdx + 4 } := rfl

/-! ### The list of the stores -/

/-- The colour of the pixel in column `x` of a byte of a glyph. -/
def colour (s : Screen) (bits : U8) (x : ℕ) : U32 :=
  if bits.getLsbD (7 - x) then s.foreground else s.background

/-- The stores to the first `n` pixels of a byte of a glyph. -/
def byteStores (s : Screen) (ptr : ℕ) (bits : U8) (n : ℕ) : List (ℕ × U32) :=
  (List.range n).map fun x => (ptr + x, s.colour bits x)

/-- The stores for the first `n` bytes of a glyph. -/
def glyphStores (s : Screen) (ptr : ℕ) (idx : U16) (n : ℕ) : List (ℕ × U32) :=
  (List.range n).reverse.flatMap fun y =>
    byteStores s (ptr + y * s.pitch.toNat) (s.fontData (idx + BitVec.ofNat 16 y)) 8

/-- The stores of one call of `putchar`. -/
def charStores (s : Screen) (c : U16) : List (ℕ × U32) :=
  if IsGlyph c then glyphStores s s.cell (c * 16) 16 else []

theorem and_shiftLeft_ne_zero (bits : U8) {j : ℕ} (hj : j < 8) :
    bits &&& (1#8 <<< j) ≠ 0 ↔ bits.getLsbD j = true := by
  rw [← BitVec.twoPow_eq, BitVec.and_twoPow]
  split_ifs with set
  · have positive : BitVec.twoPow 8 j ≠ 0 := by
      intro zero
      have bit := congrArg (BitVec.getLsbD · j) zero
      simp [hj] at bit
    exact iff_of_true positive set
  · exact iff_of_false (fun nonzero => nonzero rfl) set

theorem drawBits_writes (bits : U8) {left : ℕ} (few : left ≤ 8) (s : Screen) :
    (drawBits ptr bits left s).writes = byteStores s ptr bits left ++ s.writes := by
  induction left generalizing s with
  | zero => rfl
  | succ left ih =>
    have pixel : 7 - (7 - left) = left := by omega
    rw [drawBits, ih (by omega), pixel]
    simp only [and_shiftLeft_ne_zero bits (show 7 - left < 8 by omega)]
    rw [byteStores, byteStores, List.range_succ, List.map_append, List.append_assoc]
    rfl

theorem glyphStores_succ (s : Screen) (ptr : ℕ) (idx : U16) (n : ℕ) :
    glyphStores s ptr idx (n + 1) =
      glyphStores s (ptr + s.pitch.toNat) (idx + 1) n ++ byteStores s ptr (s.fontData idx) 8 := by
  have next (y : ℕ) : ptr + (y + 1) * s.pitch.toNat = ptr + s.pitch.toNat + y * s.pitch.toNat := by
    ring
  have byte (y : ℕ) : idx + BitVec.ofNat 16 (y + 1) = idx + 1 + BitVec.ofNat 16 y := by
    bv_omega
  rw [glyphStores, glyphStores, List.range_succ_eq_map, List.reverse_cons, List.flatMap_append,
    ← List.map_reverse, List.flatMap_map, List.flatMap_singleton,
    Nat.zero_mul, Nat.add_zero, show idx + BitVec.ofNat 16 0 = idx from BitVec.add_zero idx]
  simp only [Nat.succ_eq_add_one, next, byte]

theorem drawRows_writes (left : ℕ) (idx : U16) (s : Screen) :
    (drawRows left ptr idx s).writes = glyphStores s ptr idx left ++ s.writes := by
  induction left generalizing ptr idx s with
  | zero => rfl
  | succ left ih =>
    rw [drawRows, ih, drawBits_eq, drawBits_writes _ le_rfl, glyphStores_succ, List.append_assoc]
    rfl

theorem mem_glyphStores {idx : U16} {n : ℕ} {px : ℕ × U32} (stored : px ∈ glyphStores s ptr idx n) :
    ∃ y < n, ∃ x < 8, px.1 = ptr + y * s.pitch.toNat + x := by
  simp only [glyphStores, byteStores, List.mem_flatMap, List.mem_reverse, List.mem_range,
    List.mem_map] at stored
  obtain ⟨y, hy, x, hx, rfl⟩ := stored
  exact ⟨y, hy, x, hx, rfl⟩

/-- The last pixel of the last byte is stored. -/
theorem last_mem_glyphStores (s : Screen) (ptr : ℕ) (idx : U16) (n : ℕ) :
    ∃ px ∈ glyphStores s ptr idx (n + 1), px.1 = ptr + n * s.pitch.toNat + 7 := by
  refine ⟨(ptr + n * s.pitch.toNat + 7, s.colour (s.fontData (idx + BitVec.ofNat 16 n)) 7), ?_, rfl⟩
  rw [glyphStores, List.mem_flatMap]
  refine ⟨n, List.mem_reverse.2 (List.mem_range.2 (Nat.lt_succ_self n)), ?_⟩
  exact List.mem_map.2 ⟨7, List.mem_range.2 (by omega), rfl⟩

/-! ### One call -/

/-- A call of `putchar` moves the cursor and makes its stores, and that is all. -/
theorem putchar_eq (s : Screen) (c : U16) : ∃ row col, s.putchar c =
    { s with rowIdx := row, colIdx := col, writes := charStores s c ++ s.writes } := by
  rw [charStores]
  split_ifs with glyph
  · exact ⟨_, _, by rw [putchar_glyph glyph, drawRows_writes]⟩
  · rcases not_and_or.1 glyph with newline | tab
    · rw [not_not.1 newline]
      exact ⟨_, _, putchar_newline s⟩
    · rw [not_not.1 tab]
      exact ⟨_, _, putchar_tab s⟩

theorem putchar_writes (s : Screen) (c : U16) :
    (s.putchar c).writes = charStores s c ++ s.writes := by
  obtain ⟨row, col, call⟩ := putchar_eq s c
  rw [call]

/-- The size of the framebuffer, the rows and the columns stay. -/
theorem putchar_geometry (s : Screen) (c : U16) :
    (s.putchar c).pitch = s.pitch ∧ (s.putchar c).height = s.height ∧
      (s.putchar c).rows = s.rows ∧ (s.putchar c).cols = s.cols := by
  obtain ⟨row, col, call⟩ := putchar_eq s c
  rw [call]
  exact ⟨rfl, rfl, rfl, rfl⟩

end Glyph

end Bintos.Screen
