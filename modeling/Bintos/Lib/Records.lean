import Bintos.Lib.Lens
import Bintos.Lib.Memory
import Bintos.Lib.Packed
import Mathlib.Algebra.BigOperators.Ring.List

/-!
# Packed records in memory

When all members of a packed record have whole bytes, a member of a record in memory is a range of bytes
(`member`).  Different members of a record do not meet (`member_independent`), and neither do the members
of records that are apart (`member_independent_of_apart`).
-/

namespace Mem

/-- A range of bytes, as a little-endian number. -/
def range (a : BitVec 64) (n : ℕ) (hn : n ≤ 2 ^ 64) : Lens Mem (BitVec (8 * n)) where
  get m := m.readLE a n
  put w m := m.writeLE a n w
  get_put w m := readLE_writeLE m a hn w
  put_get m := writeLE_readLE m a n
  put_put v w m := writeLE_writeLE m a v w

/-- Ranges that do not meet are independent. -/
theorem range_independent {a b : BitVec 64} {n k : ℕ} {hn : n ≤ 2 ^ 64} {hk : k ≤ 2 ^ 64}
    (apart : ∀ x, InRange a n x → ¬ InRange b k x) : (range a n hn).Independent (range b k hk) := by
  intro v w m
  funext x
  show writeLE (writeLE m b k w) a n v x = writeLE (writeLE m a n v) b k w x
  by_cases inside : InRange a n x
  · rw [writeLE_of_not_inRange _ w (apart x inside)]
    simp only [writeLE, if_pos inside]
  · rw [writeLE_of_not_inRange _ v inside]
    simp only [writeLE, if_neg inside]

end Mem

namespace Packed

/-- All members have whole bytes, and the record fits in memory. -/
class WholeBytes (F : Type) [DecidableEq F] [Packed F] : Prop where
  whole : ∀ f : F, 8 ∣ width f
  fits : size F ≤ 2 ^ 64

variable {F : Type} [DecidableEq F] [Packed F]

variable (F) in
/-- `sizeof`: the bytes of the record. -/
def byteSize : ℕ := size F / 8

/-- The first byte of a member. -/
def firstByte (f : F) : ℕ := offset f / 8

/-- The number of bytes of a member. -/
def bytes (f : F) : ℕ := width f / 8

variable [WholeBytes F]

theorem dvd_offset (f : F) : 8 ∣ offset f := by
  refine List.dvd_sum fun n hn => ?_
  obtain ⟨g, -, rfl⟩ := List.mem_map.1 hn
  exact WholeBytes.whole g

theorem firstByte_add_bytes_le (f : F) : firstByte f + bytes f ≤ byteSize F := by
  have whole := WholeBytes.whole f
  have first := dvd_offset f
  have inside := offset_add_width_le f
  unfold firstByte bytes byteSize
  omega

theorem firstByte_disjoint {f g : F} (h : f ≠ g) :
    firstByte f + bytes f ≤ firstByte g ∨ firstByte g + bytes g ≤ firstByte f := by
  have whole := WholeBytes.whole f
  have whole' := WholeBytes.whole g
  have first := dvd_offset f
  have first' := dvd_offset g
  have apart := offset_disjoint h
  unfold firstByte bytes
  omega

theorem fits_member (f : F) : firstByte f + bytes f ≤ 2 ^ 64 := by
  have inside := firstByte_add_bytes_le f
  have fits := WholeBytes.fits (F := F)
  unfold byteSize at inside
  omega

/-- A member of the record at `p`. -/
def member (p : BitVec 64) (f : F) : Lens Mem (BitVec (8 * bytes f)) :=
  Mem.range (p + BitVec.ofNat 64 (firstByte f)) (bytes f)
    ((Nat.le_add_left _ _).trans (fits_member f))

/-- The assignment of a value to a member, which is cut to its width. -/
def assign (p : BitVec 64) (f : F) (v : BitVec 64) (m : Mem) : Mem :=
  (member p f).put (v.setWidth _) m

variable {p q : BitVec 64} {f g : F}

/-- Outside of the record nothing changes. -/
theorem assign_of_not_inRange {x : BitVec 64} (outside : ¬ Mem.InRange p (byteSize F) x) (f : F)
    (v : BitVec 64) (m : Mem) : assign p f v m x = m x := by
  apply Mem.writeLE_of_not_inRange
  rw [Mem.inRange_add_iff (fits_member f)]
  have last := firstByte_add_bytes_le f
  unfold Mem.InRange at outside
  omega

/-- Different members of one record. -/
theorem member_independent (p : BitVec 64) (h : f ≠ g) : (member p f).Independent (member p g) := by
  refine Mem.range_independent fun x inside inside' => ?_
  rw [Mem.inRange_add_iff (fits_member f)] at inside
  rw [Mem.inRange_add_iff (fits_member g)] at inside'
  have apart := firstByte_disjoint h
  omega

/-- Members of two records. -/
theorem member_independent_of_apart (f g : F) (pq : byteSize F ≤ (p - q).toNat)
    (qp : byteSize F ≤ (q - p).toNat) : (member p f).Independent (member q g) := by
  refine Mem.range_independent fun x inside inside' => ?_
  rw [Mem.inRange_add_iff (fits_member f)] at inside
  rw [Mem.inRange_add_iff (fits_member g)] at inside'
  have last := firstByte_add_bytes_le f
  have last' := firstByte_add_bytes_le g
  bv_omega

/-- The members of a zeroed record are zero. -/
theorem get_eq_zero {m : Mem} (zero : ∀ x, Mem.InRange p (byteSize F) x → m x = 0) (f : F) :
    (member p f).get m = 0 := by
  have last := firstByte_add_bytes_le f
  have fits := fits_member f
  refine Mem.readLE_eq_zero (by omega) fun x inside => zero x ?_
  rw [Mem.inRange_add_iff fits] at inside
  exact inside.2.trans_le last

@[simp] theorem get_assign_self (v : BitVec 64) (m : Mem) :
    (member p f).get (assign p f v m) = v.setWidth _ :=
  (member p f).get_put _ _

theorem get_assign_of_ne (h : g ≠ f) (v : BitVec 64) (m : Mem) :
    (member p g).get (assign p f v m) = (member p g).get m :=
  (member_independent p h).get_put _ _

theorem get_assign_of_apart (pq : byteSize F ≤ (p - q).toNat) (qp : byteSize F ≤ (q - p).toNat)
    (v : BitVec 64) (m : Mem) : (member q g).get (assign p f v m) = (member q g).get m :=
  (member_independent_of_apart g f qp pq).get_put _ _

end Packed
