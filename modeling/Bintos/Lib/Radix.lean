import Mathlib.Data.List.Basic
import Mathlib.Data.List.Infix
import Mathlib.Tactic.Common

/-!
# Radix trees in a heap

A heap gives the nodes a child at some of their indices.  `descend` follows a path of indices down
from a node.  Down to a depth the heap is a tree when different paths lead to different nodes
(`IsTree`).  `Attach` says what it takes to hang a new node without children into such a tree:
nothing else changes place (`Attach.descend_iff`), and the heap stays a tree (`Attach.isTree`).
-/

namespace Radix

variable {ν ι : Type}

/-- The child of a node at an index, where there is one. -/
abbrev Heap (ν ι : Type) := ν → ι → Option ν

/-- The node at the end of a path. -/
def descend (h : Heap ν ι) (root : ν) (path : List ι) : Option ν := path.foldlM h root

@[simp] theorem descend_nil (h : Heap ν ι) (root : ν) : descend h root [] = some root := rfl

theorem descend_concat (h : Heap ν ι) (root : ν) (p : List ι) (i : ι) :
    descend h root (p ++ [i]) = (descend h root p).bind fun n => h n i := by
  simp [descend, List.foldlM_append]

/-- The nodes above the end of a path. -/
theorem exists_parent {h : Heap ν ι} {root n : ν} {p : List ι} {i : ι}
    (found : descend h root (p ++ [i]) = some n) :
    ∃ m, descend h root p = some m ∧ h m i = some n := by
  rw [descend_concat] at found
  exact Option.bind_eq_some_iff.1 found

/-- Different paths of at most `d` indices lead to different nodes. -/
def IsTree (h : Heap ν ι) (root : ν) (d : ℕ) : Prop :=
  ∀ ⦃p q n⦄, p.length ≤ d → q.length ≤ d → descend h root p = some n →
    descend h root q = some n → p = q

theorem isTree_of_empty {h : Heap ν ι} {root : ν} (empty : ∀ i, h root i = none) (d : ℕ) :
    IsTree h root d := by
  have only_root : ∀ p n, descend h root p = some n → p = [] := by
    intro p n found
    cases p with
    | nil => rfl
    | cons i p => simp [descend, empty] at found
  intro p q n _ _ hp hq
  rw [only_root p n hp, only_root q n hq]

/-- In a tree a node has one parent, at one index. -/
theorem IsTree.parent_unique {h : Heap ν ι} {root m m' n : ν} {d : ℕ} {p q : List ι} {i j : ι}
    (tree : IsTree h root d) (hp : p.length < d) (hq : q.length < d)
    (at_p : descend h root p = some m) (at_q : descend h root q = some m')
    (child : h m i = some n) (child' : h m' j = some n) : m' = m ∧ j = i := by
  have below {p : List ι} {m : ν} {i : ι} (at_p : descend h root p = some m)
      (child : h m i = some n) : descend h root (p ++ [i]) = some n := by
    rw [descend_concat, at_p, Option.bind_some, child]
  have same : q ++ [j] = p ++ [i] := by
    apply tree _ _ (below at_q child') (below at_p child)
    · rw [List.length_append, List.length_singleton]
      omega
    · rw [List.length_append, List.length_singleton]
      omega
  obtain ⟨rfl, index⟩ := List.append_inj' same rfl
  rw [at_p, Option.some_inj] at at_q
  exact ⟨at_q.symm, List.singleton_inj.1 index⟩

/-- The heap `h'` is `h` with the new node `c`, without children, hung in below the node at the end
of `p`, at the index `i`. -/
structure Attach (h h' : Heap ν ι) (root : ν) (d : ℕ) (p : List ι) (i : ι) (c : ν) : Prop where
  short : p.length < d
  /-- the place was empty -/
  vacant : (descend h root p).bind (fun n => h n i) = none
  placed : (descend h root p).bind (fun n => h' n i) = some c
  kept : ∀ q n j, q.length < d → descend h root q = some n → q ++ [j] ≠ p ++ [i] →
    h' n j = h n j
  empty : ∀ j, h' c j = none
  fresh : ∀ q, q.length ≤ d → descend h root q ≠ some c

section Attach

variable {h h' : Heap ν ι} {root c m : ν} {d : ℕ} {p q : List ι} {i : ι}

/-- A new node changes where its own path leads and nothing else. -/
theorem Attach.descend_iff (a : Attach h h' root d p i c) (short : q.length ≤ d) :
    descend h' root q = some m ↔ descend h root q = some m ∨ (q = p ++ [i] ∧ m = c) := by
  induction q using List.reverseRecOn generalizing m with
  | nil => simp
  | append_singleton q j ih =>
    have inner : q.length < d := by
      rw [List.length_append, List.length_singleton] at short
      omega
    rw [descend_concat, descend_concat, Option.bind_eq_some_iff, Option.bind_eq_some_iff]
    constructor
    · rintro ⟨n, above, child⟩
      rcases (ih inner.le).1 above with old | ⟨-, rfl⟩
      · by_cases here : q ++ [j] = p ++ [i]
        · obtain ⟨rfl, same⟩ := List.append_inj' here rfl
          have same : j = i := List.singleton_inj.1 same
          subst same
          have placed := a.placed
          rw [old, Option.bind_some, child, Option.some_inj] at placed
          exact Or.inr ⟨rfl, placed⟩
        · rw [a.kept q n j inner old here] at child
          exact Or.inl ⟨n, old, child⟩
      · rw [a.empty j] at child
        cases child
    · rintro (⟨n, above, child⟩ | ⟨here, rfl⟩)
      · refine ⟨n, (ih inner.le).2 (Or.inl above), ?_⟩
        rw [a.kept q n j inner above, child]
        intro here
        obtain ⟨rfl, same⟩ := List.append_inj' here rfl
        have same : j = i := List.singleton_inj.1 same
        have vacant := a.vacant
        rw [above, Option.bind_some, ← same, child] at vacant
        cases vacant
      · obtain ⟨rfl, same⟩ := List.append_inj' here rfl
        have same : j = i := List.singleton_inj.1 same
        obtain ⟨n, above, child⟩ := Option.bind_eq_some_iff.1 a.placed
        exact ⟨n, (ih inner.le).2 (Or.inl above), same ▸ child⟩

theorem Attach.isTree (a : Attach h h' root d p i c) (tree : IsTree h root d) :
    IsTree h' root d := by
  intro q r n hq hr found₁ found₂
  rcases (a.descend_iff hq).1 found₁ with old₁ | ⟨rfl, rfl⟩ <;>
    rcases (a.descend_iff hr).1 found₂ with old₂ | ⟨rfl, new⟩
  · exact tree hq hr old₁ old₂
  · exact absurd old₁ (new ▸ a.fresh q hq)
  · exact absurd old₂ (a.fresh r hr)
  · rfl

end Attach

/-- A change that no node above the depth sees leaves every path alone. -/
theorem descend_congr {h h' : Heap ν ι} {root : ν} {d : ℕ}
    (same : ∀ q n j, q.length < d → descend h root q = some n → h' n j = h n j) {q : List ι}
    (short : q.length ≤ d) : descend h' root q = descend h root q := by
  induction q using List.reverseRecOn with
  | nil => rfl
  | append_singleton q j ih =>
    have inner : q.length < d := by
      rw [List.length_append, List.length_singleton] at short
      omega
    rw [descend_concat, descend_concat, ih inner.le]
    cases above : descend h root q with
    | none => rfl
    | some n => exact same q n j inner above

theorem IsTree.congr {h h' : Heap ν ι} {root : ν} {d : ℕ} (tree : IsTree h root d)
    (same : ∀ q n j, q.length < d → descend h root q = some n → h' n j = h n j) :
    IsTree h' root d := by
  intro p q n hp hq found₁ found₂
  rw [descend_congr same hp] at found₁
  rw [descend_congr same hq] at found₂
  exact tree hp hq found₁ found₂

end Radix
