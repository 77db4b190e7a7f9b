import Mathlib.Data.BitVec
import Mathlib.Data.List.TakeWhile
import Mathlib.Tactic.Common

/-!
# Packed records of bit-fields

A packed C record lays its members out one after the other from the lowest bit up, without gaps.
`Packed F` lists the members of such a record with their widths; `offset`, `get` and `set` follow
from the list.  Different members never overlap (`offset_disjoint`), so reading a member back after
stores to others gives what was last stored to it (`get_set_self`, `get_set_of_ne`).
-/

/-- The members `F` of a packed record, in declaration order. -/
class Packed (F : Type) [DecidableEq F] where
  /-- The members in declaration order. -/
  order : List F
  /-- The width of a member in bits. -/
  width : F → ℕ
  nodup : order.Nodup
  complete : ∀ f, f ∈ order

namespace Packed

variable {F : Type} [DecidableEq F] [Packed F]

/-- The first bit of `f` when the members of `l` follow one another from bit 0. -/
def offsetIn (l : List F) (f : F) : ℕ := ((l.takeWhile (· ≠ f)).map width).sum

/-- The first bit of the member `f`. -/
def offset (f : F) : ℕ := offsetIn order f

variable (F) in
/-- The width of the whole record. -/
def size : ℕ := ((order : List F).map width).sum

theorem offsetIn_cons_self (l : List F) (f : F) : offsetIn (f :: l) f = 0 := by
  simp [offsetIn]

theorem offsetIn_cons_of_ne (l : List F) {f g : F} (h : g ≠ f) :
    offsetIn (g :: l) f = width g + offsetIn l f := by
  simp [offsetIn, h]

theorem offsetIn_add_width_le {l : List F} {f : F} (hf : f ∈ l) :
    offsetIn l f + width f ≤ (l.map width).sum := by
  induction l with
  | nil => simp at hf
  | cons g l ih =>
    by_cases h : g = f
    · subst h
      simp [offsetIn_cons_self]
    · have hl : f ∈ l := by simpa [Ne.symm h] using hf
      have := ih hl
      rw [offsetIn_cons_of_ne l h, List.map_cons, List.sum_cons]
      omega

theorem offset_add_width_le (f : F) : offset f + width f ≤ size F :=
  offsetIn_add_width_le (complete f)

theorem offsetIn_disjoint {l : List F} (nodup : l.Nodup) {f g : F} (hf : f ∈ l) (hg : g ∈ l)
    (h : f ≠ g) :
    offsetIn l f + width f ≤ offsetIn l g ∨ offsetIn l g + width g ≤ offsetIn l f := by
  induction l with
  | nil => simp at hf
  | cons e l ih =>
    rw [List.nodup_cons] at nodup
    by_cases ef : e = f
    · subst ef
      left
      rw [offsetIn_cons_self, offsetIn_cons_of_ne l h]
      omega
    · by_cases eg : e = g
      · subst eg
        right
        rw [offsetIn_cons_self, offsetIn_cons_of_ne l ef]
        omega
      · have := ih nodup.2 (by simpa [Ne.symm ef] using hf) (by simpa [Ne.symm eg] using hg)
        rw [offsetIn_cons_of_ne l ef, offsetIn_cons_of_ne l eg]
        omega

/-- Two members occupy disjoint bits. -/
theorem offset_disjoint {f g : F} (h : f ≠ g) :
    offset f + width f ≤ offset g ∨ offset g + width g ≤ offset f :=
  offsetIn_disjoint nodup (complete f) (complete g) h

variable {N : ℕ}

/-- The value of the member `f`, zero-extended. -/
def get (f : F) (w : BitVec N) : BitVec 64 := (w.extractLsb' (offset f) (width f)).setWidth 64

/-- The record after the low bits of `v` are stored to the member `f`. -/
def set (f : F) (v : BitVec 64) (w : BitVec N) : BitVec N :=
  (w &&& ~~~((BitVec.allOnes (width f)).setWidth N <<< offset f)) |||
    ((v.setWidth (width f)).setWidth N <<< offset f)

theorem getLsbD_get (f : F) (w : BitVec N) (i : ℕ) :
    (get f w).getLsbD i =
      (decide (i < 64) && (decide (i < width f) && w.getLsbD (offset f + i))) := by
  simp [get]

theorem getLsbD_set (f : F) (v : BitVec 64) (w : BitVec N) {i : ℕ} (hi : i < N) :
    (set f v w).getLsbD i =
      if offset f ≤ i ∧ i < offset f + width f then v.getLsbD (i - offset f)
      else w.getLsbD i := by
  simp only [set, BitVec.getLsbD_or, BitVec.getLsbD_and, BitVec.getLsbD_not,
    BitVec.getLsbD_shiftLeft, BitVec.getLsbD_setWidth, BitVec.getLsbD_allOnes]
  by_cases low : i < offset f
  · simp [hi, low, Nat.not_le.mpr low]
  · by_cases high : i - offset f < width f
    · simp [hi, low, high, show i - offset f < N by omega, Nat.not_lt.mp low,
        show i < offset f + width f by omega]
    · simp [hi, low, high, show ¬ i < offset f + width f by omega]

/-- A stored value is read back, cut to the member's width. -/
theorem get_set_self (f : F) (v : BitVec 64) (w : BitVec N) (fits : size F ≤ N) :
    get f (set f v w) = (v.setWidth (width f)).setWidth 64 := by
  have bound := offset_add_width_le f
  apply BitVec.eq_of_getLsbD_eq
  intro i hi
  rw [getLsbD_get, BitVec.getLsbD_setWidth, BitVec.getLsbD_setWidth]
  by_cases inside : i < width f
  · rw [getLsbD_set f v w (by omega), if_pos (by omega)]
    simp [hi, inside]
  · simp [inside]

/-- A store to one member keeps every other member. -/
theorem get_set_of_ne {f g : F} (h : g ≠ f) (v : BitVec 64) (w : BitVec N) (fits : size F ≤ N) :
    get g (set f v w) = get g w := by
  have bound := offset_add_width_le g
  have apart := offset_disjoint h
  apply BitVec.eq_of_getLsbD_eq
  intro i hi
  rw [getLsbD_get, getLsbD_get]
  by_cases inside : i < width g
  · rw [getLsbD_set f v w (by omega), if_neg (by omega)]
  · simp [inside]

@[simp] theorem get_zero (f : F) : get f (0 : BitVec N) = 0 := by
  simp [get]

end Packed
