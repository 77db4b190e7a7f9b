import Bintos.Font.Render

/-!
# The bytes of a string and the font

`puts` passes a `char` on to `putchar`, which takes a `uint16_t`.  As `char` is signed, a byte from 128
on becomes a code of 0xFF80 or more, whose glyph would begin at a multiple of 16 above 0xF800.  `puts`
treats a string as bytes exactly when all of them are below 128 (`putsBytes_iff`).
-/

namespace Bintos.Screen

/-- The offsets from `font_data` that the loop of `putchar` over the bytes of the glyph reads, with
`left` bytes left. -/
def drawRowsReads : ℕ → U16 → List U16
  | 0, _ => []
  | left + 1, idx => idx :: drawRowsReads left (idx + 1)

/-- The offsets from `font_data` that a call of `putchar` reads. -/
def putcharReads (c : U16) : List U16 :=
  if c = 10 then []
  else if c = 9 then []
  else drawRowsReads 16 (c * 16)

/-- The offsets from `font_data` that a call of `puts` reads, each with the byte it is read for. -/
def putsReads : List U8 → List (U8 × U16)
  | [] => []
  | c :: str => if c = 0 then [] else (putcharReads (c.signExtend 16)).map (c, ·) ++ putsReads str

/-- `puts` does what `putchar` does for the codes 0 to 255 of the bytes, and reads the glyphs of the
bytes only. -/
def PutsBytes (s : Screen) (str : List U8) : Prop :=
  s.puts str = (str.map (BitVec.setWidth 16)).foldl putchar s ∧
    ∀ r ∈ putsReads str, 16 * r.1.toNat ≤ r.2.toNat ∧ r.2.toNat ≤ 16 * r.1.toNat + 15

/-! ### The offsets that are read -/

section Reads

variable {f : U16 → U8} {s : Screen} {left : ℕ} {idx c i : U16} {b : U8} {str : List U8}

theorem mem_drawRowsReads :
    i ∈ drawRowsReads left idx ↔ ∃ k < left, i = idx + BitVec.ofNat 16 k := by
  induction left generalizing idx with
  | zero => simp [drawRowsReads]
  | succ left ih =>
    have next (k : ℕ) : idx + 1 + BitVec.ofNat 16 k = idx + BitVec.ofNat 16 (k + 1) := by bv_omega
    simp only [drawRowsReads, List.mem_cons, ih, Nat.exists_lt_succ_left, next]
    exact or_congr_left ((BitVec.add_zero idx).symm ▸ Iff.rfl)

theorem mem_putcharReads :
    i ∈ putcharReads c ↔ IsGlyph c ∧ ∃ k < 16, i = c * 16 + BitVec.ofNat 16 k := by
  rw [putcharReads, IsGlyph]
  split_ifs with newline tab
  · simp [newline]
  · simp [tab]
  · rw [mem_drawRowsReads, and_iff_right ⟨newline, tab⟩]

/-- The stores of `putchar` depend on the font at the offsets of `putcharReads` only. -/
theorem charStores_fontData (same : ∀ i ∈ putcharReads c, f i = s.fontData i) :
    charStores { s with fontData := f } c = charStores s c := by
  rw [charStores, charStores]
  split_ifs with glyph
  · refine List.flatMap_congr fun y hy => ?_
    have byte : f (c * 16 + BitVec.ofNat 16 y) = s.fontData (c * 16 + BitVec.ofNat 16 y) :=
      same _ (mem_putcharReads.2 ⟨glyph, y, List.mem_range.1 (List.mem_reverse.1 hy), rfl⟩)
    show byteStores _ _ (f _) 8 = byteStores _ _ (s.fontData _) 8
    rw [byte]
    rfl
  · rfl

theorem putsReads_cons (more : ¬ b = 0#8) (str : List U8) :
    putsReads (b :: str) = (putcharReads (b.signExtend 16)).map (b, ·) ++ putsReads str :=
  if_neg more

theorem mem_putsReads (nul : 0 ∉ str) :
    (b, i) ∈ putsReads str ↔ b ∈ str ∧ i ∈ putcharReads (b.signExtend 16) := by
  induction str with
  | nil => simp [putsReads]
  | cons d str ih =>
    rw [List.mem_cons, not_or] at nul
    rw [putsReads_cons (Ne.symm nul.1), List.mem_append, ih nul.2, List.mem_cons, or_and_right,
      List.mem_map]
    refine or_congr_left ⟨?_, ?_⟩
    · rintro ⟨j, read, e⟩
      obtain ⟨rfl, rfl⟩ := Prod.mk.inj e
      exact ⟨rfl, read⟩
    · rintro ⟨rfl, read⟩
      exact ⟨i, read, rfl⟩

end Reads

/-! ### Bytes -/

section Bytes

variable {b : U8}

/-- A byte below 128 has its glyph read. -/
theorem reads_of_ascii (ascii : b.toNat < 128) {i : U16} (read : i ∈ putcharReads (b.signExtend 16)) :
    16 * b.toNat ≤ i.toNat ∧ i.toNat ≤ 16 * b.toNat + 15 := by
  rw [signExtend_ascii (by omega), mem_putcharReads] at read
  obtain ⟨-, k, hk, rfl⟩ := read
  bv_omega

/-- A byte from 128 on has bytes read that are not its glyph. -/
theorem reads_of_not_ascii (high : 128 ≤ b.toNat) :
    ∃ i ∈ putcharReads (b.signExtend 16), 16 * b.toNat + 15 < i.toNat := by
  have sign : b.msb = true := BitVec.msb_eq_true_iff_two_mul_ge.2 (by omega)
  have code : (b.signExtend 16).toNat = 0xFF00 + b.toNat := by
    rw [BitVec.toNat_signExtend, if_pos sign, BitVec.toNat_setWidth]
    omega
  have glyph : IsGlyph (b.signExtend 16) := by
    constructor <;> bv_omega
  refine ⟨b.signExtend 16 * 16, ?_, by bv_omega⟩
  exact mem_putcharReads.2 ⟨glyph, 0, by omega, (BitVec.add_zero _).symm⟩

/-- **Strings as bytes.**  On a string over the bytes 1 to 255, `puts` does what `putchar` does for the
unsigned codes of the bytes and reads their glyphs only, exactly when all bytes are below 128. -/
theorem putsBytes_iff (s : Screen) {str : List U8} (nul : 0 ∉ str) :
    PutsBytes s str ↔ ∀ b ∈ str, b.toNat < 128 := by
  constructor
  · rintro ⟨-, reads⟩ b hb
    by_contra high
    obtain ⟨i, read, far⟩ := reads_of_not_ascii (not_lt.1 high)
    exact absurd (reads (b, i) ((mem_putsReads nul).2 ⟨hb, read⟩)).2 (not_le.2 far)
  · intro ascii
    refine ⟨?_, fun r read => ?_⟩
    · rw [puts_eq, chars_of_nul nul]
      congr 1
      exact List.map_congr_left fun b hb => signExtend_ascii (Nat.le_of_lt_succ (ascii b hb))
    · obtain ⟨hb, read⟩ := (mem_putsReads nul).1 (show (r.1, r.2) ∈ putsReads str from read)
      exact reads_of_ascii (ascii r.1 hb) read

/-- An ordinary string. -/
theorem word_putsBytes : PutsBytes (initFont (fun _ => 0) 32 8 16 0xFFFFFF 0) [72, 105] :=
  (putsBytes_iff _ (by decide)).2 (by decide)

/-- The byte 0xE9 is looked up at 0xFE90 and not at 0xE90. -/
theorem high_byte_not_putsBytes :
    ¬ PutsBytes (initFont (fun _ => 0) 32 8 16 0xFFFFFF 0) [0xE9] := by
  intro bytes
  exact absurd (bytes.2 (0xE9, 0xFE90) (by decide)).2 (by decide)

end Bytes

end Bintos.Screen
