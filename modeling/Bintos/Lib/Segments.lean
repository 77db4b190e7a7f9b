import Mathlib.Algebra.Order.BigOperators.Group.List
import Mathlib.Algebra.GroupWithZero.Nat
import Mathlib.Algebra.Order.Group.Nat
import Mathlib.Order.CompletePartialOrder
import Mathlib.Order.Interval.Finset.Nat
import Mathlib.Order.Interval.Set.Disjoint
import Mathlib.Data.List.Nodup
import Mathlib.Tactic.Common

/-!
# Sequences cut into segments

A list of segments, each with a length, stands for one long sequence: the segments' elements one
after the other.  `locate` finds the segment and the place in it that an index of the long sequence
falls on, `concat` is the long sequence itself, and `getElem?_concat` says that they agree.

The second part counts: intervals of naturals that are pairwise disjoint and lie between two bounds
have a total length of at most the distance of the bounds, and among few intervals one is long.
-/

namespace Segments

variable {α β : Type}

/-! ## Indexing -/

/-- The segment of `l` that index `i` falls on, with the index inside it. -/
def locate (len : α → ℕ) : List α → ℕ → Option (α × ℕ)
  | [], _ => none
  | a :: l, i => if i < len a then some (a, i) else locate len l (i - len a)

/-- The total length of the segments `l`. -/
def total (len : α → ℕ) (l : List α) : ℕ := (l.map len).sum

@[simp] theorem total_nil (len : α → ℕ) : total len [] = 0 := rfl

@[simp] theorem total_cons (len : α → ℕ) (a : α) (l : List α) :
    total len (a :: l) = len a + total len l := List.sum_cons

@[simp] theorem total_append (len : α → ℕ) (l l' : List α) :
    total len (l ++ l') = total len l + total len l' := by
  simp [total]

theorem le_total (len : α → ℕ) {a : α} {l : List α} (ha : a ∈ l) : len a ≤ total len l :=
  List.le_sum_of_mem (List.mem_map_of_mem ha)

theorem locate_eq_none_iff {len : α → ℕ} {l : List α} {i : ℕ} :
    locate len l i = none ↔ total len l ≤ i := by
  induction l generalizing i with
  | nil => simp [locate]
  | cons a l ih =>
    rw [locate, total_cons]
    split_ifs with h
    · exact iff_of_false (by simp) (by omega)
    · rw [ih]
      omega

theorem locate_some {len : α → ℕ} {l : List α} {i : ℕ} {p : α × ℕ}
    (h : locate len l i = some p) : p.1 ∈ l ∧ p.2 < len p.1 := by
  induction l generalizing i with
  | nil => simp [locate] at h
  | cons a l ih =>
    rw [locate] at h
    split_ifs at h with hi
    · cases h
      exact ⟨List.mem_cons_self, hi⟩
    · obtain ⟨hp, hlt⟩ := ih h
      exact ⟨List.mem_cons_of_mem a hp, hlt⟩

/-- The index inside a segment is at most the index. -/
theorem locate_le {len : α → ℕ} {l : List α} {i : ℕ} {p : α × ℕ} (h : locate len l i = some p) :
    p.2 ≤ i := by
  induction l generalizing i with
  | nil => simp [locate] at h
  | cons a l ih =>
    rw [locate] at h
    split_ifs at h with hi
    · cases h
      exact le_rfl
    · exact (ih h).trans (Nat.sub_le _ _)

/-- The segments before the one that an index falls on. -/
theorem locate_split {len : α → ℕ} {l : List α} {i : ℕ} {p : α × ℕ} (h : locate len l i = some p) :
    ∃ before after, l = before ++ p.1 :: after ∧ i = total len before + p.2 := by
  induction l generalizing i with
  | nil => simp [locate] at h
  | cons a l ih =>
    rw [locate] at h
    split_ifs at h with hi
    · cases h
      exact ⟨[], l, rfl, (Nat.zero_add i).symm⟩
    · obtain ⟨before, after, split, place⟩ := ih h
      refine ⟨a :: before, after, by rw [split, List.cons_append], ?_⟩
      rw [total_cons]
      omega

/-- Past a prefix of segments, `locate` goes on in the rest. -/
theorem locate_append {len : α → ℕ} {l l' : List α} (i : ℕ) :
    locate len (l ++ l') (total len l + i) = locate len l' i := by
  induction l with
  | nil => simp
  | cons a l ih =>
    rw [List.cons_append, locate, total_cons, if_neg (by omega), ← ih]
    congr 1
    omega

/-- The sequence that the segments `l` stand for, when `f a k` is element `k` of segment `a`. -/
def concat (len : α → ℕ) (f : α → ℕ → β) (l : List α) : List β :=
  l.flatMap fun a => (List.range (len a)).map (f a)

@[simp] theorem concat_nil (len : α → ℕ) (f : α → ℕ → β) : concat len f [] = [] := rfl

@[simp] theorem concat_cons (len : α → ℕ) (f : α → ℕ → β) (a : α) (l : List α) :
    concat len f (a :: l) = (List.range (len a)).map (f a) ++ concat len f l :=
  List.flatMap_cons

@[simp] theorem length_concat (len : α → ℕ) (f : α → ℕ → β) (l : List α) :
    (concat len f l).length = total len l := by
  induction l with
  | nil => rfl
  | cons a l ih => simp [ih]

theorem getElem?_concat (len : α → ℕ) (f : α → ℕ → β) (l : List α) (i : ℕ) :
    (concat len f l)[i]? = (locate len l i).map fun p => f p.1 p.2 := by
  induction l generalizing i with
  | nil => simp [locate]
  | cons a l ih =>
    rw [concat_cons, locate, List.getElem?_append]
    by_cases h : i < len a <;> simp [h, ih]

theorem mem_concat {len : α → ℕ} {f : α → ℕ → β} {l : List α} {b : β} :
    b ∈ concat len f l ↔ ∃ a ∈ l, ∃ k < len a, f a k = b := by
  simp [concat]

/-- Segments with distinct elements, of which no two share one, give a sequence without
repetition. -/
theorem nodup_concat {len : α → ℕ} {f : α → ℕ → β} {l : List α}
    (inside : ∀ a ∈ l, ∀ j < len a, ∀ k < len a, f a j = f a k → j = k)
    (across : l.Pairwise fun a b => ∀ j < len a, ∀ k < len b, f a j ≠ f b k) :
    (concat len f l).Nodup := by
  induction l with
  | nil => simp
  | cons a l ih =>
    rw [List.pairwise_cons] at across
    rw [concat_cons, List.nodup_append]
    refine ⟨?_, ih (fun b hb => inside b (List.mem_cons_of_mem a hb)) across.2, ?_⟩
    · refine List.Nodup.map_on ?_ List.nodup_range
      intro j hj k hk e
      exact inside a List.mem_cons_self j (List.mem_range.1 hj) k (List.mem_range.1 hk) e
    · intro x hx y hy
      obtain ⟨j, hj, rfl⟩ := List.mem_map.1 hx
      obtain ⟨b, hb, k, hk, rfl⟩ := mem_concat.1 hy
      exact across.1 b hb j (List.mem_range.1 hj) k hk

/-! ## Disjoint intervals -/

/-- Pairwise disjoint intervals between `L` and `H` have at most `H - L` points in all. -/
theorem total_le_of_disjoint {lo hi : α → ℕ} {l : List α} {L H : ℕ}
    (apart : l.Pairwise fun a b => Disjoint (Set.Ico (lo a) (hi a)) (Set.Ico (lo b) (hi b)))
    (bounds : ∀ a ∈ l, L ≤ lo a ∧ hi a ≤ H) :
    total (fun a => hi a - lo a) l ≤ H - L := by
  have count : ∃ s : Finset ℕ, s.card = total (fun a => hi a - lo a) l ∧
      ∀ n, n ∈ s ↔ ∃ a ∈ l, n ∈ Set.Ico (lo a) (hi a) := by
    clear bounds
    induction l with
    | nil => exact ⟨∅, by simp⟩
    | cons a l ih =>
      rw [List.pairwise_cons] at apart
      obtain ⟨s, card, mem⟩ := ih apart.2
      refine ⟨Finset.Ico (lo a) (hi a) ∪ s, ?_, fun n => ?_⟩
      · rw [Finset.card_union_of_disjoint, Nat.card_Ico, card, total_cons]
        rw [Finset.disjoint_left]
        intro n hn hs
        obtain ⟨b, hb, hnb⟩ := (mem n).1 hs
        exact Set.disjoint_left.1 (apart.1 b hb) (by simpa using hn) hnb
      · simp [mem]
  obtain ⟨s, card, mem⟩ := count
  rw [← card, ← Nat.card_Ico]
  apply Finset.card_le_card
  intro n hn
  obtain ⟨a, ha, hlo, hhi⟩ := (mem n).1 hn
  obtain ⟨hL, hH⟩ := bounds a ha
  exact Finset.mem_Ico.2 ⟨hL.trans hlo, hhi.trans_le hH⟩

theorem total_le_length_mul (len : α → ℕ) {l : List α} {b : ℕ} (h : ∀ a ∈ l, len a ≤ b) :
    total len l ≤ l.length * b := by
  induction l with
  | nil => simp
  | cons a l ih =>
    have head := h a List.mem_cons_self
    have tail := ih fun c hc => h c (List.mem_cons_of_mem a hc)
    rw [total_cons, List.length_cons, Nat.succ_mul]
    omega

theorem exists_longest {len : α → ℕ} {l : List α} (hl : l ≠ []) :
    ∃ a ∈ l, ∀ b ∈ l, len b ≤ len a := by
  induction l with
  | nil => exact absurd rfl hl
  | cons a l ih =>
    by_cases h : l = []
    · exact ⟨a, List.mem_cons_self, by simp [h]⟩
    · obtain ⟨m, hm, longest⟩ := ih h
      by_cases am : len a ≤ len m
      · exact ⟨m, List.mem_cons_of_mem a hm, by simpa using ⟨am, longest⟩⟩
      · refine ⟨a, List.mem_cons_self, ?_⟩
        rw [List.forall_mem_cons]
        exact ⟨le_rfl, fun b hb => (longest b hb).trans (by omega)⟩

/-- Of at most `n` segments, one holds the `n`-th part of the total. -/
theorem exists_total_le_mul (len : α → ℕ) {l : List α} {n : ℕ} (hl : l ≠ []) (hn : l.length ≤ n) :
    ∃ a ∈ l, total len l ≤ n * len a := by
  obtain ⟨a, ha, longest⟩ := exists_longest hl
  exact ⟨a, ha, (total_le_length_mul len longest).trans (Nat.mul_le_mul_right _ hn)⟩

end Segments
