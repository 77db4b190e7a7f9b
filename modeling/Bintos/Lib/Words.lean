import Mathlib.Data.BitVec
import Mathlib.Tactic.Common

/-!
# Arithmetic of 64-bit words

Masks that clear low bits, sign extension of a truncated word, and sums of words that do not wrap.
-/

namespace Words

/-- Clearing the low `k` bits rounds down to a multiple of `2 ^ k`. -/
theorem toNat_and_not_mask (x : BitVec 64) (k : ℕ) :
    (x &&& ~~~(BitVec.ofNat 64 (2 ^ k - 1))).toNat = x.toNat / 2 ^ k * 2 ^ k := by
  have shifts : x &&& ~~~(BitVec.ofNat 64 (2 ^ k - 1)) = (x >>> k) <<< k := by
    apply BitVec.eq_of_getLsbD_eq
    intro i hi
    simp only [BitVec.getLsbD_and, BitVec.getLsbD_not, BitVec.getLsbD_ofNat,
      Nat.testBit_two_pow_sub_one, BitVec.getLsbD_shiftLeft, BitVec.getLsbD_ushiftRight]
    by_cases low : i < k
    · simp [hi, low]
    · simp [hi, low, show k + (i - k) = i by omega]
  have small : x.toNat / 2 ^ k * 2 ^ k < 2 ^ 64 :=
    (Nat.div_mul_le_self _ _).trans_lt x.isLt
  rw [shifts, BitVec.toNat_shiftLeft, BitVec.toNat_ushiftRight, Nat.shiftLeft_eq,
    Nat.shiftRight_eq_div_pow, Nat.mod_eq_of_lt small]

/-- The low bits of a word and the next ones, one after the other. -/
theorem setWidth_ushiftRight_append {w : ℕ} (x : BitVec w) (n k : ℕ) :
    (x >>> k).setWidth n ++ x.setWidth k = x.setWidth (n + k) := by
  apply BitVec.eq_of_getLsbD_eq
  intro i hi
  simp only [BitVec.getLsbD_append, BitVec.getLsbD_setWidth, BitVec.getLsbD_ushiftRight]
  by_cases low : i < k
  · simp [low, hi]
  · simp [low, hi, show i - k < n by omega, Nat.add_sub_of_le (Nat.not_lt.1 low)]

/-- A word whose low half has a clear top bit is cut to that half by `(int)`. -/
theorem toNat_signExtend_low {x : BitVec 64} (h : x.toNat % 2 ^ 32 < 2 ^ 31) :
    ((x.setWidth 32).signExtend 64).toNat = x.toNat % 2 ^ 32 := by
  have clear : (x.setWidth 32).msb = false := by
    rw [BitVec.msb_eq_decide, BitVec.toNat_setWidth]
    simpa using h
  rw [BitVec.toNat_signExtend, clear, BitVec.toNat_setWidth, BitVec.toNat_setWidth]
  simp only [Bool.false_eq_true, if_false, Nat.add_zero]
  omega

/-- A word whose low half has a set top bit becomes a huge unsigned number under `(int)`. -/
theorem le_toNat_signExtend_high {x : BitVec 64} (h : 2 ^ 31 ≤ x.toNat % 2 ^ 32) :
    2 ^ 63 ≤ ((x.setWidth 32).signExtend 64).toNat := by
  have set : (x.setWidth 32).msb = true := by
    rw [BitVec.msb_eq_decide, BitVec.toNat_setWidth]
    simpa using h
  have large : 2 ^ 63 ≤ 2 ^ 64 - 2 ^ 32 := by decide
  rw [BitVec.toNat_signExtend, set, if_pos rfl]
  exact large.trans (Nat.le_add_left _ _)

theorem toNat_foldl_add {α : Type} (f : α → BitVec 64) (l : List α) (x : BitVec 64) :
    (l.foldl (fun s a => s + f a) x).toNat =
      (x.toNat + (l.map fun a => (f a).toNat).sum) % 2 ^ 64 := by
  induction l generalizing x with
  | nil => simp [Nat.mod_eq_of_lt x.isLt]
  | cons a l ih =>
    rw [List.foldl_cons, ih, BitVec.toNat_add, List.map_cons, List.sum_cons]
    omega

end Words
