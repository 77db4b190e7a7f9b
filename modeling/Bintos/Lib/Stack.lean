import Bintos.Lib.Memory

/-!
# Stacks of words in memory

A stack that grows downwards is a list of 64-bit words that lie in memory one above the other, the top
first (`WordsAt`).  A push stores a word below the top and puts it in front of the list, a pop takes it
off, and a change of memory elsewhere keeps the stack.
-/

namespace Mem

/-- The words `ws` lie in memory from `p` on, in ascending order. -/
def WordsAt (m : Mem) (p : BitVec 64) (ws : List (BitVec 64)) : Prop :=
  ∀ i w, ws[i]? = some w → m.readWord (p + BitVec.ofNat 64 (8 * i)) = w

/-- The `n` words from `p` on. -/
def readWords (m : Mem) (p : BitVec 64) (n : ℕ) : List (BitVec 64) :=
  (List.range n).map fun i => m.readWord (p + BitVec.ofNat 64 (8 * i))

variable {m m' : Mem} {p w : BitVec 64} {ws : List (BitVec 64)}

theorem wordsAt_readWords (m : Mem) (p : BitVec 64) (n : ℕ) : WordsAt m p (m.readWords p n) := by
  intro i w found
  rw [readWords, List.getElem?_map, Option.map_eq_some_iff] at found
  obtain ⟨j, place, rfl⟩ := found
  rw [(List.getElem?_eq_some_iff.1 place).2.symm, List.getElem_range]

/-- A push. -/
theorem WordsAt.push (stack : WordsAt m p ws) (w : BitVec 64) (room : ws.length + 1 < 2 ^ 61) :
    WordsAt (m.writeWord (p - 8) w) (p - 8) (w :: ws) := by
  intro i v found
  cases i with
  | zero =>
    rw [List.getElem?_cons_zero, Option.some_inj] at found
    subst found
    have top : p - 8 + BitVec.ofNat 64 (8 * 0) = p - 8 := BitVec.add_zero _
    rw [top, readWord_writeWord]
  | succ i =>
    rw [List.getElem?_cons_succ] at found
    have inside := (List.getElem?_eq_some_iff.1 found).1
    have above : p - 8 + BitVec.ofNat 64 (8 * (i + 1)) = p + BitVec.ofNat 64 (8 * i) := by bv_omega
    rw [above, readWord_writeWord_of_apart, stack i v found] <;> bv_omega

/-- One more word above which a stack begins is its new top. -/
theorem WordsAt.cons (stack : WordsAt m (p + 8) ws) (room : ws.length + 1 < 2 ^ 61) :
    WordsAt m p (m.readWord p :: ws) := by
  have pushed := stack.push (m.readWord p) room
  rwa [show p + 8 - 8 = p by ring, writeWord_readWord] at pushed

/-- A pop. -/
theorem WordsAt.pop (stack : WordsAt m p (w :: ws)) :
    m.readWord p = w ∧ WordsAt m (p + 8) ws := by
  constructor
  · have top := stack 0 w rfl
    rwa [show p + BitVec.ofNat 64 (8 * 0) = p from BitVec.add_zero _] at top
  · intro i v found
    have below := stack (i + 1) v found
    rwa [show p + BitVec.ofNat 64 (8 * (i + 1)) = p + 8 + BitVec.ofNat 64 (8 * i) by bv_omega]
      at below

@[simp] theorem wordsAt_nil (m : Mem) (p : BitVec 64) : WordsAt m p [] := by
  intro i w found
  simp at found

theorem wordsAt_cons : WordsAt m p (w :: ws) ↔ m.readWord p = w ∧ WordsAt m (p + 8) ws := by
  refine ⟨WordsAt.pop, fun ⟨top, below⟩ i v found => ?_⟩
  cases i with
  | zero =>
    rw [List.getElem?_cons_zero, Option.some_inj] at found
    rw [← found, ← top]
    exact congrArg m.readWord (BitVec.add_zero p)
  | succ i =>
    rw [List.getElem?_cons_succ] at found
    rw [← below i v found]
    exact congrArg m.readWord (by bv_omega)

/-- A stack only depends on its own bytes. -/
theorem WordsAt.congr (stack : WordsAt m p ws) (room : ws.length < 2 ^ 61)
    (same : ∀ x, InRange p (8 * ws.length) x → m' x = m x) : WordsAt m' p ws := by
  intro i w found
  rw [← stack i w found]
  have inside := (List.getElem?_eq_some_iff.1 found).1
  refine readWord_congr fun x word => same x ?_
  unfold InRange at word ⊢
  bv_omega

/-! ### Below a stack -/

/-- The `n` bytes below the address `p`. -/
def Below (p : BitVec 64) (n : ℕ) (x : BitVec 64) : Prop := (p - 1 - x).toNat < n

variable {x : BitVec 64} {k n : ℕ}

theorem Below.add (below : Below (p - BitVec.ofNat 64 k) n x) : Below p (k + n) x := by
  have distance : p - 1 - x = p - BitVec.ofNat 64 k - 1 - x + BitVec.ofNat 64 k := by ring
  have small := Nat.mod_le k (2 ^ 64)
  unfold Below at below ⊢
  rw [distance, BitVec.toNat_add, BitVec.toNat_ofNat]
  omega

theorem Below.mono (below : Below p k x) (le : k ≤ n) : Below p n x := Nat.lt_of_lt_of_le below le

/-- The bytes of the word that is pushed next. -/
theorem below_of_inRange (word : InRange (p - 8) 8 x) : Below p 8 x := by
  unfold InRange at word
  unfold Below
  bv_omega

end Mem
