import Bintos.Stdlib.Source

/-!
# Copies

The ascending loop copies a range when no byte of the source is overwritten before it is read: the
destination does not begin inside the source, after its first byte.  The descending loop does when the
destination is above the source.  So `memmove` copies between any two ranges (`memmove_correct`).
-/

namespace Bintos

/-- The memory after `n` bytes from `src` on have been copied to `dest`. -/
def copied (m : Mem) (dest src : U64) (n : ℕ) : Mem := fun x =>
  if Mem.InRange dest n x then m (src + (x - dest)) else m x

section Loops

variable {m : Mem} {dest src : U64} {n i left : ℕ}

theorem copied_zero : copied m dest src 0 = m := by
  funext x
  exact if_neg (Nat.not_lt_zero _)

/-- A range is copied when its first byte is and then the rest, none of which the first byte
overwrites. -/
theorem copied_first {a b : U64} (fits : a.toNat + (left + 1) ≤ 2 ^ 64)
    (fits' : b.toNat + (left + 1) ≤ 2 ^ 64) (order : a ≤ b ∨ b.toNat + (left + 1) ≤ a.toNat) :
    copied (m.write a (m b)) (a + 1) (b + 1) left = copied m a b (left + 1) := by
  funext x
  have split := Mem.inRange_succ (p := a) (a := x) (n := left) (by omega)
  by_cases first : x = a
  · have before : ¬ Mem.InRange (a + 1) left x := by
      rw [Mem.InRange]
      bv_omega
    have address : b + (x - a) = b := by bv_omega
    rw [copied, if_neg before, copied, if_pos (split.2 (Or.inl first)), address, first,
      Mem.write_same]
  · rw [copied, copied, Mem.write_of_ne m _ first]
    by_cases later : Mem.InRange (a + 1) left x
    · have address : b + 1 + (x - (a + 1)) = b + (x - a) := by bv_omega
      have untouched : b + (x - a) ≠ a := by
        rw [Mem.InRange] at later
        bv_omega
      rw [if_pos later, if_pos (split.2 (Or.inr later)), address, Mem.write_of_ne m _ untouched]
    · rw [if_neg later, if_neg (split.not.2 (not_or.2 ⟨first, later⟩))]

theorem copyUp_eq (fits : dest.toNat + (i + left) ≤ 2 ^ 64) (fits' : src.toNat + (i + left) ≤ 2 ^ 64)
    (order : dest ≤ src ∨ src.toNat + (i + left) ≤ dest.toNat) :
    copyUp dest src left i m =
      copied m (dest + BitVec.ofNat 64 i) (src + BitVec.ofNat 64 i) left := by
  induction left generalizing i m with
  | zero => exact copied_zero.symm
  | succ left ih =>
    have next (p : U64) : p + BitVec.ofNat 64 (i + 1) = p + BitVec.ofNat 64 i + 1 := by bv_omega
    rw [copyUp, ih (by omega) (by omega) (order.imp_right fun _ => by omega), next, next]
    exact copied_first (by bv_omega) (by bv_omega) (by bv_omega)

/-- The first `i + 1` bytes are copied when the last of them is and then those below it. -/
theorem copied_last (fits : dest.toNat + (i + 1) ≤ 2 ^ 64) (order : src < dest) :
    copied (m.write (dest + BitVec.ofNat 64 i) (m (src + BitVec.ofNat 64 i))) dest src i =
      copied m dest src (i + 1) := by
  funext x
  rw [copied, copied]
  by_cases last : x = dest + BitVec.ofNat 64 i
  · have outside : ¬ Mem.InRange dest i x := by
      rw [Mem.InRange]
      bv_omega
    have inside : Mem.InRange dest (i + 1) x := by
      rw [Mem.InRange]
      bv_omega
    have address : src + (x - dest) = src + BitVec.ofNat 64 i := by bv_omega
    rw [if_neg outside, if_pos inside, address, last, Mem.write_same]
  · have same : Mem.InRange dest (i + 1) x ↔ Mem.InRange dest i x := by
      rw [Mem.InRange, Mem.InRange]
      bv_omega
    rw [Mem.write_of_ne m _ last, if_congr same rfl rfl]
    by_cases below : Mem.InRange dest i x
    · have untouched : src + (x - dest) ≠ dest + BitVec.ofNat 64 i := by
        rw [Mem.InRange] at below
        bv_omega
      rw [if_pos below, if_pos below, Mem.write_of_ne m _ untouched]
    · rw [if_neg below, if_neg below]

theorem copyDown_eq (fits : dest.toNat + i ≤ 2 ^ 64) (order : src < dest) :
    copyDown dest src i m = copied m dest src i := by
  induction i generalizing m with
  | zero => exact copied_zero.symm
  | succ i ih => rw [copyDown, ih (by omega), copied_last fits order]

end Loops

section Functions

variable {m : Mem} {dest src n : U64}

theorem memcpy_eq (fits : dest.toNat + n.toNat ≤ 2 ^ 64) (fits' : src.toNat + n.toNat ≤ 2 ^ 64)
    (order : dest ≤ src ∨ src.toNat + n.toNat ≤ dest.toNat) :
    memcpy m dest src n = copied m dest src n.toNat := by
  rw [memcpy, copyUp_eq (by omega) (by omega) (by rwa [Nat.zero_add])]
  simp

theorem memmove_eq (fits : dest.toNat + n.toNat ≤ 2 ^ 64)
    (fits' : src.toNat + n.toNat ≤ 2 ^ 64) :
    memmove m dest src n = copied m dest src n.toNat := by
  rw [memmove]
  split_ifs with up down
  · exact memcpy_eq fits fits' (Or.inl (BitVec.le_of_lt up))
  · exact copyDown_eq fits down
  · have same : dest = src := by bv_omega
    funext x
    rw [copied, same]
    split_ifs
    · congr 1
      bv_omega
    · rfl

/-- **Copying.**  `memmove` copies every byte between ranges that do not wrap, whether they overlap or
not, and changes nothing else; `memcpy` leaves the same memory when the destination does not begin
inside the source, after its first byte. -/
theorem memmove_correct (m : Mem) (fits : dest.toNat + n.toNat ≤ 2 ^ 64)
    (fits' : src.toNat + n.toNat ≤ 2 ^ 64) :
    (∀ i < n, memmove m dest src n (dest + i) = m (src + i)) ∧
      (∀ x : U64, x.toNat < dest.toNat ∨ dest.toNat + n.toNat ≤ x.toNat →
        memmove m dest src n x = m x) ∧
      (dest ≤ src ∨ src.toNat + n.toNat ≤ dest.toNat →
        memcpy m dest src n = memmove m dest src n) := by
  rw [memmove_eq fits fits']
  refine ⟨fun i hi => ?_, fun x outside => if_neg ?_, memcpy_eq fits fits'⟩
  · have offset : dest + i - dest = i := by bv_omega
    have inside : Mem.InRange dest n.toNat (dest + i) := by
      rw [Mem.InRange, offset]
      exact hi
    rw [copied, if_pos inside, offset]
  · rw [Mem.inRange_iff fits]
    omega

/-- Two overlapping ranges of two bytes. -/
theorem overlap_moved : memmove (fun x => x.setWidth 8) 5 4 2 6 = 5 :=
  (@memmove_correct 5 4 2 (fun x => x.setWidth 8) (by decide) (by decide)).1 1 (by decide)

end Functions

end Bintos
