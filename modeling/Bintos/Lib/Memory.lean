import Mathlib.Data.BitVec
import Mathlib.Logic.Function.Basic
import Mathlib.Tactic.Ring
import Mathlib.Tactic.Linarith

/-!
# Byte memory over a 64-bit address space

A memory is a total map from 64-bit addresses to bytes; address arithmetic wraps.  Besides single
bytes the file has ranges (`InRange`), ascending fills (`fill`) and little-endian words of eight
bytes (`readWord`, `writeWord`), each with the lemma that says what it leaves alone.
-/

/-- A byte memory. -/
abbrev Mem := BitVec 64 → BitVec 8

namespace Mem

/-- The address `a` lies in the range of `n` bytes that starts at `p` (and may wrap). -/
def InRange (p : BitVec 64) (n : ℕ) (a : BitVec 64) : Prop := (a - p).toNat < n

instance (p : BitVec 64) (n : ℕ) (a : BitVec 64) : Decidable (InRange p n a) :=
  inferInstanceAs (Decidable (_ < _))

theorem inRange_iff {p a : BitVec 64} {n : ℕ} (fits : p.toNat + n ≤ 2 ^ 64) :
    InRange p n a ↔ p.toNat ≤ a.toNat ∧ a.toNat < p.toNat + n := by
  unfold InRange
  have ha := a.isLt
  have hp := p.isLt
  rw [BitVec.toNat_sub]
  omega

theorem inRange_add {p : BitVec 64} {n i : ℕ} (hi : i < n) (hn : n ≤ 2 ^ 64) :
    InRange p n (p + BitVec.ofNat 64 i) := by
  unfold InRange
  rw [BitVec.add_comm, BitVec.add_sub_cancel, BitVec.toNat_ofNat, Nat.mod_eq_of_lt (by omega)]
  exact hi

/-- A range is its first address and the range of the rest. -/
theorem inRange_succ {p a : BitVec 64} {n : ℕ} (hn : n < 2 ^ 64) :
    InRange p (n + 1) a ↔ a = p ∨ InRange (p + 1) n a := by
  unfold InRange
  constructor
  · intro h
    by_cases first : a = p
    · exact Or.inl first
    · right
      bv_omega
  · rintro (rfl | h)
    · rw [BitVec.sub_self]
      exact Nat.succ_pos n
    · bv_omega

/-- A part of a range is given by its distance from the beginning. -/
theorem inRange_add_iff {p a : BitVec 64} {k n : ℕ} (fits : k + n ≤ 2 ^ 64) :
    InRange (p + BitVec.ofNat 64 k) n a ↔ k ≤ (a - p).toNat ∧ (a - p).toNat < k + n := by
  unfold InRange
  have distance : a - (p + BitVec.ofNat 64 k) = a - p - BitVec.ofNat 64 k := by ring
  rw [distance]
  generalize a - p = d
  bv_omega

/-! ### Single bytes and fills -/

/-- The memory after one byte store. -/
def write (m : Mem) (a : BitVec 64) (b : BitVec 8) : Mem := Function.update m a b

@[simp] theorem write_same (m : Mem) (a : BitVec 64) (b : BitVec 8) : m.write a b a = b :=
  Function.update_self ..

theorem write_of_ne (m : Mem) {a x : BitVec 64} (b : BitVec 8) (h : x ≠ a) : m.write a b x = m x :=
  Function.update_of_ne h ..

/-- The memory after the ascending loop that stores `c` to `n` bytes from `p` on. -/
def fill (m : Mem) (p : BitVec 64) (c : BitVec 8) : ℕ → Mem
  | 0 => m
  | n + 1 => (fill m p c n).write (p + BitVec.ofNat 64 n) c

theorem fill_apply (m : Mem) (p : BitVec 64) (c : BitVec 8) {n : ℕ} (hn : n ≤ 2 ^ 64)
    (a : BitVec 64) : m.fill p c n a = if InRange p n a then c else m a := by
  induction n with
  | zero => simp [fill, InRange]
  | succ n ih =>
    have far : (a = p + BitVec.ofNat 64 n) ↔ (a - p).toNat = n := by
      constructor
      · rintro rfl
        rw [BitVec.add_comm, BitVec.add_sub_cancel, BitVec.toNat_ofNat, Nat.mod_eq_of_lt (by omega)]
      · rintro rfl
        rw [BitVec.ofNat_toNat, BitVec.setWidth_eq]
        ring
    unfold fill
    by_cases h : a = p + BitVec.ofNat 64 n
    · have near := far.1 h
      rw [if_pos (by unfold InRange; omega), h, write_same]
    · rw [write_of_ne _ _ h, ih (by omega)]
      rw [far] at h
      have same : InRange p (n + 1) a ↔ InRange p n a := by
        unfold InRange
        omega
      simp only [same]

theorem fill_of_not_inRange (m : Mem) {p a : BitVec 64} (c : BitVec 8) {n : ℕ} (hn : n ≤ 2 ^ 64)
    (h : ¬ InRange p n a) : m.fill p c n a = m a := by
  rw [fill_apply m p c hn, if_neg h]

theorem fill_of_inRange (m : Mem) {p a : BitVec 64} (c : BitVec 8) {n : ℕ} (hn : n ≤ 2 ^ 64)
    (h : InRange p n a) : m.fill p c n a = c := by
  rw [fill_apply m p c hn, if_pos h]

/-! ### Little-endian words -/

/-- The little-endian number in the `n` bytes from `a` on. -/
def readLE (m : Mem) (a : BitVec 64) : (n : ℕ) → BitVec (8 * n)
  | 0 => 0#0
  | n + 1 => (m (a + BitVec.ofNat 64 n) ++ readLE m a n).cast (by ring)

theorem getLsbD_readLE (m : Mem) (a : BitVec 64) (n j : ℕ) :
    (m.readLE a n).getLsbD j =
      (decide (j < 8 * n) && (m (a + BitVec.ofNat 64 (j / 8))).getLsbD (j % 8)) := by
  induction n with
  | zero => simp [readLE]
  | succ n ih =>
    rw [readLE, BitVec.getLsbD_cast, BitVec.getLsbD_append, ih]
    by_cases low : j < 8 * n
    · simp [low, show j < 8 * (n + 1) by omega]
    · by_cases top : j < 8 * (n + 1)
      · simp [low, top, show j / 8 = n by omega, show j - 8 * n = j % 8 by omega]
      · have high : 8 ≤ j - 8 * n := by omega
        simp [low, top, BitVec.getLsbD_of_ge _ _ high]

/-- The memory after a little-endian store of the `n` bytes of `w` from `a` on. -/
def writeLE (m : Mem) (a : BitVec 64) (n : ℕ) (w : BitVec (8 * n)) : Mem := fun x =>
  if InRange a n x then w.extractLsb' (8 * (x - a).toNat) 8 else m x

theorem writeLE_of_not_inRange (m : Mem) {a x : BitVec 64} {n : ℕ} (w : BitVec (8 * n))
    (h : ¬ InRange a n x) : m.writeLE a n w x = m x := if_neg h

theorem readLE_writeLE (m : Mem) (a : BitVec 64) {n : ℕ} (hn : n ≤ 2 ^ 64) (w : BitVec (8 * n)) :
    (m.writeLE a n w).readLE a n = w := by
  apply BitVec.eq_of_getLsbD_eq
  intro j hj
  have byte : j / 8 < n := by omega
  have dist : (a + BitVec.ofNat 64 (j / 8) - a).toNat = j / 8 := by
    rw [BitVec.add_comm, BitVec.add_sub_cancel, BitVec.toNat_ofNat, Nat.mod_eq_of_lt (by omega)]
  rw [getLsbD_readLE, writeLE, if_pos (inRange_add byte hn), dist, BitVec.getLsbD_extractLsb']
  simp [hj, Nat.mod_lt, show 8 * (j / 8) + j % 8 = j by omega]

/-- A read depends on the bytes of its own range only. -/
theorem readLE_congr {m m' : Mem} {a : BitVec 64} {n : ℕ} (hn : n ≤ 2 ^ 64)
    (same : ∀ x, InRange a n x → m x = m' x) : m.readLE a n = m'.readLE a n := by
  apply BitVec.eq_of_getLsbD_eq
  intro j hj
  rw [getLsbD_readLE, getLsbD_readLE, same _ (inRange_add (by omega) hn)]

/-- The number in a zeroed range is zero. -/
theorem readLE_eq_zero {m : Mem} {a : BitVec 64} {n : ℕ} (hn : n ≤ 2 ^ 64)
    (zero : ∀ x, InRange a n x → m x = 0) : m.readLE a n = 0 := by
  have base : Mem.readLE (fun _ => 0) a n = 0 := by
    apply BitVec.eq_of_getLsbD_eq
    intro j _
    rw [getLsbD_readLE]
    simp
  rw [← base]
  exact readLE_congr hn zero

/-- The bits of a number in memory are the bits of its bytes. -/
theorem getLsbD_readLE_byte {m : Mem} {a x : BitVec 64} {n : ℕ} (inside : InRange a n x) {k : ℕ}
    (hk : k < 8) : (m.readLE a n).getLsbD (8 * (x - a).toNat + k) = (m x).getLsbD k := by
  unfold InRange at inside
  have byte : (8 * (x - a).toNat + k) / 8 = (x - a).toNat := by omega
  have bit : (8 * (x - a).toNat + k) % 8 = k := by omega
  have here : a + BitVec.ofNat 64 (x - a).toNat = x := by
    rw [BitVec.ofNat_toNat, BitVec.setWidth_eq]
    ring
  rw [getLsbD_readLE, byte, bit, here, decide_eq_true (by omega), Bool.true_and]

theorem getLsbD_writeLE (m : Mem) (a x : BitVec 64) {n : ℕ} (w : BitVec (8 * n)) {k : ℕ} (hk : k < 8) :
    (m.writeLE a n w x).getLsbD k =
      if InRange a n x then w.getLsbD (8 * (x - a).toNat + k) else (m x).getLsbD k := by
  rw [writeLE]
  split_ifs with inside
  · rw [BitVec.getLsbD_extractLsb', decide_eq_true hk, Bool.true_and]
  · rfl

/-- Overwriting a range twice keeps the second number only. -/
theorem writeLE_writeLE (m : Mem) (a : BitVec 64) {n : ℕ} (v w : BitVec (8 * n)) :
    (m.writeLE a n v).writeLE a n w = m.writeLE a n w := by
  funext x
  simp only [writeLE]
  split <;> simp [*]

/-- Storing the number that is there changes nothing. -/
theorem writeLE_readLE (m : Mem) (a : BitVec 64) (n : ℕ) : m.writeLE a n (m.readLE a n) = m := by
  funext x
  apply BitVec.eq_of_getLsbD_eq
  intro k hk
  rw [getLsbD_writeLE _ _ _ _ hk]
  split_ifs with inside
  · exact getLsbD_readLE_byte inside hk
  · rfl

/-- The 64-bit word at `a`. -/
def readWord (m : Mem) (a : BitVec 64) : BitVec 64 := m.readLE a 8

/-- The memory after a store of the 64-bit word `w` at `a`. -/
def writeWord (m : Mem) (a w : BitVec 64) : Mem := m.writeLE a 8 w

@[simp] theorem readWord_writeWord (m : Mem) (a w : BitVec 64) :
    (m.writeWord a w).readWord a = w := by
  unfold readWord writeWord
  exact readLE_writeLE m a (n := 8) (by norm_num) w

theorem writeWord_of_not_inRange (m : Mem) {a x : BitVec 64} (w : BitVec 64)
    (h : ¬ InRange a 8 x) : m.writeWord a w x = m x :=
  writeLE_of_not_inRange m (n := 8) w h

theorem readWord_congr {m m' : Mem} {a : BitVec 64} (same : ∀ x, InRange a 8 x → m x = m' x) :
    m.readWord a = m'.readWord a := by
  unfold readWord
  exact readLE_congr (by norm_num) same

/-- The bits of a word are the bits of its bytes. -/
theorem getLsbD_readWord {m : Mem} {a x : BitVec 64} (inside : InRange a 8 x) {k : ℕ} (hk : k < 8) :
    (m.readWord a).getLsbD (8 * (x - a).toNat + k) = (m x).getLsbD k :=
  getLsbD_readLE_byte inside hk

theorem getLsbD_writeWord (m : Mem) (a w x : BitVec 64) {k : ℕ} (hk : k < 8) :
    (m.writeWord a w x).getLsbD k =
      if InRange a 8 x then w.getLsbD (8 * (x - a).toNat + k) else (m x).getLsbD k :=
  getLsbD_writeLE m a x (n := 8) w hk

/-- Two word ranges that are eight bytes apart both ways do not meet. -/
theorem readWord_writeWord_of_apart (m : Mem) {a b : BitVec 64} (w : BitVec 64)
    (ab : 8 ≤ (a - b).toNat) (ba : 8 ≤ (b - a).toNat) :
    (m.writeWord a w).readWord b = m.readWord b := by
  apply readWord_congr
  intro x hx
  apply writeWord_of_not_inRange
  unfold InRange at hx ⊢
  bv_omega

/-- A word of a zeroed range is zero. -/
theorem readWord_eq_zero {m : Mem} {a : BitVec 64} (zero : ∀ x, InRange a 8 x → m x = 0) :
    m.readWord a = 0 :=
  readLE_eq_zero (n := 8) (by norm_num) zero

/-- Overwriting a word twice keeps the second value only. -/
theorem writeWord_writeWord (m : Mem) (a v w : BitVec 64) :
    (m.writeWord a v).writeWord a w = m.writeWord a w :=
  writeLE_writeLE m a (n := 8) v w

/-- Storing the word that is there changes nothing. -/
theorem writeWord_readWord (m : Mem) (a : BitVec 64) : m.writeWord a (m.readWord a) = m :=
  writeLE_readLE m a 8

end Mem
