import Mathlib.Logic.Function.Basic
import Mathlib.Tactic.Common

/-!
# Parts of a state

A lens is a part of a state that can be read and overwritten.  Two parts are independent when stores to
them commute; then a store to one leaves the other alone (`Independent.get_put`).  Parts that are
pairwise independent form an array (`LensArray`).
-/

/-- A part of type `ν` of a state of type `σ`. -/
structure Lens (σ ν : Type*) where
  get : σ → ν
  put : ν → σ → σ
  get_put : ∀ v s, get (put v s) = v
  put_get : ∀ s, put (get s) s = s
  put_put : ∀ v w s, put w (put v s) = put w s

namespace Lens

variable {σ ν μ ν' μ' : Type*}

/-- Stores to the two parts commute. -/
def Independent (l : Lens σ ν) (k : Lens σ μ) : Prop :=
  ∀ v w s, l.put v (k.put w s) = k.put w (l.put v s)

theorem Independent.symm {l : Lens σ ν} {k : Lens σ μ} (h : l.Independent k) : k.Independent l :=
  fun w v s => (h v w s).symm

/-- A store to an independent part is not seen. -/
theorem Independent.get_put {l : Lens σ ν} {k : Lens σ μ} (h : l.Independent k) (w : μ) (s : σ) :
    l.get (k.put w s) = l.get s :=
  calc l.get (k.put w s) = l.get (k.put w (l.put (l.get s) s)) := by rw [l.put_get]
    _ = l.get (l.put (l.get s) (k.put w s)) := by rw [h]
    _ = l.get s := l.get_put _ _

/-- A part of a part. -/
def comp (l : Lens σ ν) (k : Lens ν μ) : Lens σ μ where
  get s := k.get (l.get s)
  put v s := l.put (k.put v (l.get s)) s
  get_put v s := by rw [l.get_put, k.get_put]
  put_get s := by rw [k.put_get, l.put_get]
  put_put v w s := by rw [l.get_put, k.put_put, l.put_put]

theorem Independent.comp {l : Lens σ ν} {l' : Lens σ ν'} (h : l.Independent l') (k : Lens ν μ)
    (k' : Lens ν' μ') : (l.comp k).Independent (l'.comp k') := by
  intro v w s
  show l.put (k.put v (l.get (l'.put _ s))) (l'.put _ s) =
    l'.put (k'.put w (l'.get (l.put _ s))) (l.put _ s)
  rw [h.get_put, h.symm.get_put, h]

/-- Independent parts of one part. -/
theorem Independent.inside (l : Lens σ ν) {k : Lens ν μ} {k' : Lens ν μ'} (h : k.Independent k') :
    (l.comp k).Independent (l.comp k') := by
  intro v w s
  show l.put (k.put v (l.get (l.put _ s))) (l.put _ s) =
    l.put (k'.put w (l.get (l.put _ s))) (l.put _ s)
  rw [l.get_put, l.get_put, l.put_put, l.put_put, h]

/-- The value of a function at one argument. -/
def value {α β : Type*} [DecidableEq α] (a : α) : Lens (α → β) β where
  get m := m a
  put b m := Function.update m a b
  get_put _ _ := Function.update_self ..
  put_get _ := Function.update_eq_self ..
  put_put _ _ _ := Function.update_idem ..

theorem value_independent {α β : Type*} [DecidableEq α] {a b : α} (h : a ≠ b) :
    (value a : Lens (α → β) β).Independent (value b) := by
  intro v w m
  exact (Function.update_comm h v w m).symm

end Lens

/-- Parts of a state that do not overlap, one for each index. -/
structure LensArray (σ ι ν : Type*) where
  cell : ι → Lens σ ν
  apart : ∀ {i j}, i ≠ j → (cell i).Independent (cell j)

namespace LensArray

variable {σ ι ν : Type*} [DecidableEq ι] (a : LensArray σ ι ν)

/-- The array that the state holds. -/
def toFun (s : σ) : ι → ν := fun i => (a.cell i).get s

/-- A store to a cell changes that entry of the array. -/
theorem toFun_put (i : ι) (v : ν) (s : σ) :
    a.toFun ((a.cell i).put v s) = Function.update (a.toFun s) i v := by
  funext j
  by_cases same : j = i
  · subst same
    rw [Function.update_self]
    exact (a.cell j).get_put v s
  · rw [Function.update_of_ne same]
    exact (a.apart same).get_put v s

end LensArray
