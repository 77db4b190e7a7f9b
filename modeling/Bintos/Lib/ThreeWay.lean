import Mathlib.Data.BitVec
import Mathlib.Data.Int.Notation
import Mathlib.Order.Compare
import Mathlib.Tactic.SplitIfs

/-!
# Three-way comparisons

A function like `memcmp` answers with a negative number, zero or a positive number.  `sign` is such a
number for an ordering.  On lists the comparison is lexicographic, and one step of it is the one of a loop
that stops at the first difference (`sign_compare_cons`).
-/

namespace ThreeWay

/-- The number for an ordering. -/
def sign : Ordering → ℤ
  | .lt => -1
  | .eq => 0
  | .gt => 1

@[simp] theorem sign_swap (o : Ordering) : sign o.swap = -sign o := by cases o <;> rfl

@[simp] theorem sign_eq_zero_iff {o : Ordering} : sign o = 0 ↔ o = .eq := by cases o <;> decide

@[simp] theorem sign_neg_iff {o : Ordering} : sign o < 0 ↔ o = .lt := by cases o <;> decide

@[simp] theorem sign_nonpos_iff {o : Ordering} : sign o ≤ 0 ↔ o.isLE := by cases o <;> decide

/-- Words are compared as unsigned numbers. -/
instance lawfulLTOrd_bitVec {w : ℕ} : Std.LawfulLTOrd (BitVec w) where
  eq_lt_iff_lt := compareOfLessAndEq_eq_lt

section Lists

variable {α : Type*} [Ord α] [LT α] [Std.LawfulLTOrd α] [Std.LawfulEqOrd α] {x y : α} {xs ys : List α}

/-- The lists are compared lexicographically. -/
theorem compare_list_eq_lt_iff : compare xs ys = .lt ↔ xs < ys := by
  induction xs generalizing ys with
  | nil => cases ys <;> simp
  | cons x xs ih =>
    cases ys with
    | nil => simp
    | cons y ys =>
      rw [List.compare_cons_cons, Ordering.then_eq_lt, List.cons_lt_cons_iff, ih,
        Std.LawfulLTCmp.eq_lt_iff_lt, Std.LawfulEqCmp.compare_eq_iff_eq]

/-- The comparison is decided at the first difference. -/
theorem sign_compare_cons [DecidableEq α] [DecidableLT α] :
    sign (compare (x :: xs) (y :: ys)) =
      if x ≠ y then if x < y then -1 else 1 else sign (compare xs ys) := by
  rw [List.compare_cons_cons]
  split_ifs with different less
  · have lesser : compare x y = .lt := Std.LawfulLTCmp.eq_lt_iff_lt.2 less
    rw [lesser]
    rfl
  · have greater : compare x y = .gt := by
      cases order : compare x y with
      | lt => exact absurd (Std.LawfulLTCmp.eq_lt_iff_lt.1 order) less
      | eq => exact absurd (Std.LawfulEqCmp.eq_of_compare order) different
      | gt => rfl
    rw [greater]
    rfl
  · have same : compare x y = .eq := Std.LawfulEqCmp.compare_eq_iff_eq.2 (not_not.1 different)
    rw [same]
    rfl

end Lists

end ThreeWay
