import Bintos.Vm.Tables

/-!
# Members of entries as the processor reads them

The members that `map_page` reads and assigns are where the processor looks (`Links`), the three
assignments to an empty entry make it a present, writable entry that points to the new table
(`tableEntry`), and the six assignments to a page-table entry fix all bits of a translation
(`assign_pte`).
-/

namespace Bintos

section Assign

variable {F : Type} [DecidableEq F] [Packed F]

/-- The word of an entry after a list of assignments to its members. -/
def assign (l : List (F × U64)) (w : U64) : U64 := l.foldl (fun w a => Packed.set a.1 a.2 w) w

/-- A present, writable entry that points to a frame. -/
def tableEntry (frame : BitVec 40) : U64 := 3#64 ||| frame.setWidth 64 <<< 12

/-- What `map_page` relies on at a level above the last. -/
structure Links (present ptr : F) (link : U64 → List (F × U64)) : Prop where
  present_iff : ∀ w : U64, Packed.get present w = 0 ↔ Entry.present w = false
  frame : ∀ w : U64, (Packed.get ptr w).setWidth 40 = Entry.frame w
  assign : ∀ f, assign (link f) 0 = tableEntry (f.setWidth 40)

theorem get_eq_zero_iff {f : F} (one : Packed.width f = 1) (w : U64) :
    Packed.get f w = 0 ↔ w.getLsbD (Packed.offset f) = false := by
  constructor
  · intro zero
    have bit := congrArg (·.getLsbD 0) zero
    simp only [Packed.getLsbD_get, one] at bit
    simpa using bit
  · intro clear
    apply BitVec.eq_of_getLsbD_eq
    intro i hi
    rw [Packed.getLsbD_get, one]
    by_cases first : i = 0
    · simp [first, clear]
    · simp [show ¬ i < 1 by omega]

theorem setWidth_get {f : F} (place : Packed.offset f = 12) (wide : Packed.width f = 40) (w : U64) :
    (Packed.get f w).setWidth 40 = Entry.frame w := by
  apply BitVec.eq_of_getLsbD_eq
  intro i hi
  rw [BitVec.getLsbD_setWidth, Packed.getLsbD_get, place, wide]
  simp [Entry.frame, hi, show i < 64 by omega]

theorem getLsbD_low_mask (k i : ℕ) (hi : i < 64) :
    (BitVec.ofNat 64 (2 ^ k - 1)).getLsbD i = decide (i < k) := by
  rw [BitVec.getLsbD_ofNat, Nat.testBit_two_pow_sub_one, decide_eq_true hi, Bool.true_and]

theorem getLsbD_tableEntry (frame : BitVec 40) (i : ℕ) (hi : i < 64) :
    (tableEntry frame).getLsbD i =
      if 12 ≤ i ∧ i < 52 then frame.getLsbD (i - 12) else decide (i < 2) := by
  have low : (3#64).getLsbD i = decide (i < 2) := getLsbD_low_mask 2 i hi
  rw [tableEntry, BitVec.getLsbD_or, low, BitVec.getLsbD_shiftLeft, BitVec.getLsbD_setWidth]
  by_cases pointer : 12 ≤ i ∧ i < 52
  · simp [pointer, hi, show ¬ i < 12 by omega, show ¬ i < 2 by omega, show i - 12 < 64 by omega]
  · rw [if_neg pointer]
    by_cases first : i < 12
    · simp [first]
    · have past : frame.getLsbD (i - 12) = false := BitVec.getLsbD_of_ge _ _ (by omega)
      simp [past]

/-- The order of the assignments to the pointer and to `rw` does not matter. -/
theorem assign_link {present rw ptr : F} (hp : Packed.offset present = 0)
    (hp' : Packed.width present = 1) (hr : Packed.offset rw = 1) (hr' : Packed.width rw = 1)
    (ht : Packed.offset ptr = 12) (ht' : Packed.width ptr = 40) (f : U64) :
    assign [(present, 1), (rw, 1), (ptr, f)] 0 = tableEntry (f.setWidth 40) ∧
      assign [(present, 1), (ptr, f), (rw, 1)] 0 = tableEntry (f.setWidth 40) := by
  constructor <;>
  · apply BitVec.eq_of_getLsbD_eq
    intro i hi
    have one (k : ℕ) : (1#64).getLsbD k = decide (k = 0) := by
      rw [BitVec.getLsbD_one]
      simp
    simp only [assign, List.foldl_cons, List.foldl_nil, Packed.getLsbD_set _ _ _ hi, hp, hp', hr,
      hr', ht, ht', getLsbD_tableEntry _ i hi, BitVec.getLsbD_setWidth]
    by_cases pointer : 12 ≤ i ∧ i < 52
    · simp [pointer, show ¬ i < 2 by omega, show i - 12 < 40 by omega]
    · by_cases first : i = 0
      · simp [first]
      · by_cases second : i = 1
        · simp [second]
        · simp [pointer, show ¬ i < 2 by omega, show ¬ i < 1 by omega]

end Assign

/-! ### The levels above the last -/

theorem links_pml4e : Links Pml4e.present .pdpePtr fun frame =>
    [(.present, 1), (.rw, 1), (.pdpePtr, frame)] where
  present_iff := get_eq_zero_iff (by decide)
  frame := setWidth_get (by decide) (by decide)
  assign f := (assign_link (by decide) (by decide) (by decide) (by decide) (by decide)
    (by decide) f).1

theorem links_pdpe : Links Pdpe.present .pdePtr fun frame =>
    [(.present, 1), (.rw, 1), (.pdePtr, frame)] where
  present_iff := get_eq_zero_iff (by decide)
  frame := setWidth_get (by decide) (by decide)
  assign f := (assign_link (by decide) (by decide) (by decide) (by decide) (by decide)
    (by decide) f).1

theorem links_pde : Links Pde.present .ptePtr fun frame =>
    [(.present, 1), (.ptePtr, frame), (.rw, 1)] where
  present_iff := get_eq_zero_iff (by decide)
  frame := setWidth_get (by decide) (by decide)
  assign f := (assign_link (by decide) (by decide) (by decide) (by decide) (by decide)
    (by decide) f).2

theorem present_tableEntry (f : BitVec 40) : Entry.present (tableEntry f) = true := by
  rw [Entry.present, getLsbD_tableEntry _ 0 (by decide)]
  rfl

theorem writable_tableEntry (f : BitVec 40) : Entry.writable (tableEntry f) = true := by
  rw [Entry.writable, getLsbD_tableEntry _ 1 (by decide)]
  rfl

theorem user_tableEntry (f : BitVec 40) : Entry.user (tableEntry f) = false := by
  rw [Entry.user, getLsbD_tableEntry _ 2 (by decide)]
  rfl

theorem noExecute_tableEntry (f : BitVec 40) : Entry.noExecute (tableEntry f) = false := by
  rw [Entry.noExecute, getLsbD_tableEntry _ 63 (by decide)]
  rfl

theorem frame_tableEntry (f : BitVec 40) : Entry.frame (tableEntry f) = f := by
  apply BitVec.eq_of_getLsbD_eq
  intro i hi
  rw [Entry.frame, BitVec.getLsbD_extractLsb', getLsbD_tableEntry _ _ (by omega),
    if_pos (by omega), Nat.add_sub_cancel_left, decide_eq_true hi, Bool.true_and]

/-- An entry for an allocated frame points to it. -/
theorem target_tableEntry {a : U64} (aligned : PageAligned a) (low : a.toNat < 2 ^ 52) :
    Entry.target (tableEntry ((a >>> 12).setWidth 40)) = a := by
  unfold PageAligned at aligned
  rw [Entry.target, frame_tableEntry]
  apply BitVec.eq_of_toNat_eq
  rw [BitVec.toNat_shiftLeft, BitVec.toNat_setWidth, BitVec.toNat_setWidth, BitVec.toNat_ushiftRight,
    Nat.shiftLeft_eq, Nat.shiftRight_eq_div_pow]
  omega

/-! ### Page-table entries -/

/-- The page-table entry after a call of `map_page`. -/
def pteWord (c : MapCall) (w : U64) : U64 := assign (pteAssignments c) w

theorem getLsbD_pteWord (c : MapCall) (w : U64) (i : ℕ) (hi : i < 64) :
    (pteWord c w).getLsbD i =
      if 12 ≤ i ∧ i < 52 then c.paddr.getLsbD i
      else if i = 63 then c.noExecute
      else if i = 3 then c.writethru
      else if i = 2 then c.isSupervisor
      else if i = 1 then c.writable
      else if i = 0 then true
      else w.getLsbD i := by
  have flag (b : Bool) (k : ℕ) : (flagBit b).getLsbD k = (decide (k = 0) && b) := by
    cases b <;> simp [flagBit, BitVec.getLsbD_one]
  have o₁ : Packed.offset Pte.present = 0 := by decide
  have o₂ : Packed.offset Pte.rw = 1 := by decide
  have o₃ : Packed.offset Pte.us = 2 := by decide
  have o₄ : Packed.offset Pte.pwt = 3 := by decide
  have o₅ : Packed.offset Pte.nx = 63 := by decide
  have o₆ : Packed.offset Pte.frame = 12 := by decide
  have w₁ : Packed.width Pte.present = 1 := by decide
  have w₂ : Packed.width Pte.rw = 1 := by decide
  have w₃ : Packed.width Pte.us = 1 := by decide
  have w₄ : Packed.width Pte.pwt = 1 := by decide
  have w₅ : Packed.width Pte.nx = 1 := by decide
  have w₆ : Packed.width Pte.frame = 40 := by decide
  simp only [pteWord, assign, pteAssignments, List.foldl_cons, List.foldl_nil,
    Packed.getLsbD_set _ _ _ hi, o₁, o₂, o₃, o₄, o₅, o₆, w₁, w₂, w₃, w₄, w₅, w₆, flag,
    BitVec.getLsbD_ushiftRight]
  by_cases pointer : 12 ≤ i ∧ i < 52
  · simp [pointer, show 12 + (i - 12) = i by omega]
  · have single (k : ℕ) : (k ≤ i ∧ i < k + 1) ↔ i = k := by omega
    simp only [if_neg pointer, single]
    obtain h | h | h | h | h | ⟨h₁, h₂, h₃, h₄, h₅⟩ : i = 63 ∨ i = 3 ∨ i = 2 ∨ i = 1 ∨ i = 0 ∨
        (i ≠ 63 ∧ i ≠ 3 ∧ i ≠ 2 ∧ i ≠ 1 ∧ i ≠ 0) := by omega
    · simp [h]
    · simp [h]
    · simp [h]
    · simp [h]
    · simp [h]
    · rw [if_neg h₁, if_neg h₂, if_neg h₃, if_neg h₄, if_neg h₅, if_neg h₁, if_neg h₂, if_neg h₃,
        if_neg h₄, if_neg h₅]

theorem present_pteWord (c : MapCall) (w : U64) : Entry.present (pteWord c w) = true := by
  rw [Entry.present, getLsbD_pteWord _ _ 0 (by decide)]
  rfl

theorem writable_pteWord (c : MapCall) (w : U64) : Entry.writable (pteWord c w) = c.writable := by
  rw [Entry.writable, getLsbD_pteWord _ _ 1 (by decide)]
  rfl

theorem writethru_pteWord (c : MapCall) (w : U64) :
    Entry.writethru (pteWord c w) = c.writethru := by
  rw [Entry.writethru, getLsbD_pteWord _ _ 3 (by decide)]
  rfl

theorem noExecute_pteWord (c : MapCall) (w : U64) :
    Entry.noExecute (pteWord c w) = c.noExecute := by
  rw [Entry.noExecute, getLsbD_pteWord _ _ 63 (by decide)]
  rfl

theorem frame_pteWord (c : MapCall) (w : U64) :
    Entry.frame (pteWord c w) = Entry.frame c.paddr := by
  apply BitVec.eq_of_getLsbD_eq
  intro i hi
  rw [Entry.frame, BitVec.getLsbD_extractLsb', getLsbD_pteWord _ _ _ (by omega),
    if_pos (by omega), Entry.frame, BitVec.getLsbD_extractLsb']

end Bintos
