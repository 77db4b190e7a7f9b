import Bintos.Lib.ThreeWay
import Bintos.Stdlib.Copy

/-!
# Comparisons

`memcmp` is the three-way comparison of two ranges as lists of unsigned bytes (`memcmp_eq`), so the laws
of the lexicographic order hold of it (`memcmp_order`).
-/

namespace Bintos

open ThreeWay

/-- The `n` bytes from `p` on. -/
def bytesAt (m : Mem) (p : U64) (n : ℕ) : List U8 :=
  (List.range n).map fun i => m (p + BitVec.ofNat 64 i)

variable {m : Mem} {a b c n : U64}

theorem compareUp_eq (left i : ℕ) :
    compareUp m a b left i =
      sign (compare ((List.range' i left).map fun i => m (a + BitVec.ofNat 64 i))
        ((List.range' i left).map fun i => m (b + BitVec.ofNat 64 i))) := by
  induction left generalizing i with
  | zero => rfl
  | succ left ih =>
    rw [compareUp, ih, List.range'_succ, List.map_cons, List.map_cons, sign_compare_cons]

/-- `memcmp` compares the ranges as lists. -/
theorem memcmp_eq :
    memcmp m a b n = sign (compare (bytesAt m a n.toNat) (bytesAt m b n.toNat)) := by
  rw [memcmp, compareUp_eq, bytesAt, bytesAt, List.range_eq_range']

/-- **Comparing.**  `memcmp` answers zero for equal ranges, a negative number when the first range is
before the second in the lexicographic order of unsigned bytes, and the opposite number for the ranges in
the other order; and the order it decides is transitive. -/
theorem memcmp_order (m : Mem) (a b c n : U64) :
    (memcmp m a b n = 0 ↔ bytesAt m a n.toNat = bytesAt m b n.toNat) ∧
    (memcmp m a b n < 0 ↔ bytesAt m a n.toNat < bytesAt m b n.toNat) ∧
    memcmp m b a n = -memcmp m a b n ∧
    (memcmp m a b n ≤ 0 → memcmp m b c n ≤ 0 → memcmp m a c n ≤ 0) ∧
    (memcmp m a b n < 0 → memcmp m b c n ≤ 0 → memcmp m a c n < 0) := by
  simp only [memcmp_eq, sign_eq_zero_iff, sign_neg_iff, sign_nonpos_iff]
  refine ⟨Std.LawfulEqCmp.compare_eq_iff_eq, compare_list_eq_lt_iff, ?_, ?_, ?_⟩
  · rw [← sign_swap, ← Std.OrientedCmp.eq_swap]
  · exact Std.TransCmp.isLE_trans
  · exact Std.TransCmp.lt_of_lt_of_isLE

theorem bytesAt_eq_iff {k : ℕ} :
    bytesAt m a k = bytesAt m b k ↔
      ∀ i < k, m (a + BitVec.ofNat 64 i) = m (b + BitVec.ofNat 64 i) := by
  rw [bytesAt, bytesAt, List.map_inj_left]
  simp only [List.mem_range]

/-- A range and its copy elsewhere compare as equal. -/
theorem memcmp_memmove {dest src : U64} (fits : dest.toNat + n.toNat ≤ 2 ^ 64)
    (fits' : src.toNat + n.toNat ≤ 2 ^ 64)
    (apart : dest.toNat + n.toNat ≤ src.toNat ∨ src.toNat + n.toNat ≤ dest.toNat) :
    memcmp (memmove m dest src n) dest src n = 0 := by
  rw [memcmp_eq, sign_eq_zero_iff, Std.LawfulEqCmp.compare_eq_iff_eq, bytesAt_eq_iff,
    memmove_eq fits fits']
  intro i hi
  have small := n.isLt
  have offset : dest + BitVec.ofNat 64 i - dest = BitVec.ofNat 64 i := by ring
  have inside : Mem.InRange dest n.toNat (dest + BitVec.ofNat 64 i) := Mem.inRange_add hi small.le
  have outside : ¬ Mem.InRange dest n.toNat (src + BitVec.ofNat 64 i) := by
    rw [Mem.inRange_iff fits]
    bv_omega
  rw [copied, copied, if_pos inside, if_neg outside, offset]

end Bintos
