import Bintos.Lib.Records
import Bintos.Lib.Stores

/-!
# Arrays of numbers in memory

Numbers of `n` bytes lie one after the other from the address `p` on, and a program stores them byte by
byte.  In terms of the numbers every store changes one entry of the array (`readLE_after_wordStores`).
-/

namespace Mem

/-- The bytes of a little-endian number at `a`, the last one first, each with its address. -/
def leBytes (a : BitVec 64) (n : ℕ) (w : BitVec (8 * n)) : List (BitVec 64 × BitVec 8) :=
  (List.range n).reverse.map fun i => (a + BitVec.ofNat 64 i, w.extractLsb' (8 * i) 8)

/-- The address of entry `k` of the array at `p`. -/
def entry (p : BitVec 64) (n k : ℕ) : BitVec 64 := p + BitVec.ofNat 64 (n * k)

/-- The bytes of stores to entries of the array at `p`, the last one first. -/
def wordStores (p : BitVec 64) (n : ℕ) (ws : List (ℕ × BitVec (8 * n))) :
    List (BitVec 64 × BitVec 8) :=
  ws.flatMap fun w => leBytes (entry p n w.1) n w.2

variable {p a x : BitVec 64} {n size k : ℕ} {ws : List (ℕ × BitVec (8 * n))}

/-- Byte by byte, the number is written. -/
theorem after_leBytes (hn : n ≤ 2 ^ 64) (w : BitVec (8 * n)) (m : Mem) :
    Stores.after (leBytes a n w) m = m.writeLE a n w := by
  have first (i : ℕ) (hi : i ≤ n) (x : BitVec 64) :
      Stores.after ((List.range i).reverse.map fun i => (a + BitVec.ofNat 64 i, w.extractLsb' (8 * i) 8))
        m x = if InRange a i x then w.extractLsb' (8 * (x - a).toNat) 8 else m x := by
    induction i with
    | zero => exact (if_neg (Nat.not_lt_zero _)).symm
    | succ i ih =>
      rw [List.range_succ, List.reverse_append, List.reverse_singleton, List.singleton_append,
        List.map_cons, Stores.after]
      have distance : (a + BitVec.ofNat 64 i - a).toNat = i := by
        rw [BitVec.add_comm, BitVec.add_sub_cancel, BitVec.toNat_ofNat, Nat.mod_eq_of_lt (by omega)]
      by_cases here : x = a + BitVec.ofNat 64 i
      · subst here
        rw [Function.update_self, if_pos (inRange_add (Nat.lt_succ_self i) (by omega)), distance]
      · have other : (x - a).toNat ≠ i := by
          intro same
          apply here
          rw [← same, BitVec.ofNat_toNat, BitVec.setWidth_eq]
          ring
        have near : InRange a (i + 1) x ↔ InRange a i x := by
          unfold InRange
          omega
        rw [Function.update_of_ne here, ih (by omega)]
        simp only [near]
  funext x
  exact first n le_rfl x

/-- The same stores at another place. -/
theorem map_wordStores (p d : BitVec 64) (n : ℕ) (ws : List (ℕ × BitVec (8 * n))) :
    (wordStores p n ws).map (fun b => (b.1 - d, b.2)) = wordStores (p - d) n ws := by
  have place (x y : BitVec 64) : p + x + y - d = p - d + x + y := by ring
  simp only [wordStores, leBytes, entry, List.map_flatMap, List.map_map, Function.comp_def, place]

/-- The bytes of an entry, by their distance from the beginning of the array. -/
theorem inRange_entry_iff (fits : n * size ≤ 2 ^ 64) (hk : k < size) :
    InRange (entry p n k) n x ↔ n * k ≤ (x - p).toNat ∧ (x - p).toNat < n * k + n := by
  apply inRange_add_iff
  have last : n * (k + 1) ≤ n * size := Nat.mul_le_mul_left n hk
  rw [Nat.mul_succ] at last
  omega

/-- The stores to entries are inside the array. -/
theorem inRange_of_mem_wordStores (fits : n * size ≤ 2 ^ 64) (inside : ∀ w ∈ ws, w.1 < size)
    {b : BitVec 64 × BitVec 8} (hb : b ∈ wordStores p n ws) : InRange p (n * size) b.1 := by
  simp only [wordStores, leBytes, List.mem_flatMap, List.mem_map, List.mem_reverse,
    List.mem_range] at hb
  obtain ⟨w, hw, i, hi, rfl⟩ := hb
  have last : n * (w.1 + 1) ≤ n * size := Nat.mul_le_mul_left n (inside w hw)
  rw [Nat.mul_succ] at last
  have here := (inRange_entry_iff (p := p) fits (inside w hw)).1 (inRange_add hi (by omega))
  exact here.2.trans_le last

/-- **Arrays.**  The entries after stores to the array, byte by byte. -/
theorem readLE_after_wordStores (fits : n * size ≤ 2 ^ 64) (inside : ∀ w ∈ ws, w.1 < size) (m : Mem)
    (hk : k < size) :
    readLE (Stores.after (wordStores p n ws) m) (entry p n k) n =
      Stores.after ws (fun k => m.readLE (entry p n k) n) k := by
  have small : n ≤ 2 ^ 64 := by
    have one : n * 1 ≤ n * size := Nat.mul_le_mul_left n (by omega)
    omega
  induction ws with
  | nil => rfl
  | cons w ws ih =>
    rw [List.forall_mem_cons] at inside
    have first : wordStores p n (w :: ws) = leBytes (entry p n w.1) n w.2 ++ wordStores p n ws := rfl
    rw [first, Stores.after_append, after_leBytes small, Stores.after]
    by_cases same : k = w.1
    · rw [same, Function.update_self]
      exact readLE_writeLE _ _ small _
    · rw [Function.update_of_ne same, ← ih inside.2]
      have apart : (range (entry p n k) n small).Independent (range (entry p n w.1) n small) := by
        apply range_independent
        intro x here there
        rw [inRange_entry_iff fits hk] at here
        rw [inRange_entry_iff fits inside.1] at there
        rcases Nat.lt_or_gt_of_ne same with below | above
        · have next : n * (k + 1) ≤ n * w.1 := Nat.mul_le_mul_left n below
          rw [Nat.mul_succ] at next
          omega
        · have next : n * (w.1 + 1) ≤ n * k := Nat.mul_le_mul_left n above
          rw [Nat.mul_succ] at next
          omega
      exact apart.get_put _ _

end Mem
