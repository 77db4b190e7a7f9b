import Mathlib.Data.List.Basic
import Mathlib.Data.List.Induction
import Mathlib.Logic.Function.Basic

/-!
# Lists of stores

A program that only stores to a memory is described by the list of its stores, each an address and a
value, with the last store first.  `after ws m` is the memory `m` after the stores `ws`.  Of a run that
stores step by step the last store to an address counts (`foldl_update`).
-/

namespace Stores

variable {α β : Type*} [DecidableEq α]

/-- The memory `m` after the stores of the list. -/
def after : List (α × β) → (α → β) → α → β
  | [], m => m
  | (a, b) :: ws, m => Function.update (after ws m) a b

@[simp] theorem after_nil (m : α → β) : after [] m = m := rfl

theorem after_append (vs ws : List (α × β)) (m : α → β) :
    after (vs ++ ws) m = after vs (after ws m) := by
  induction vs with
  | nil => rfl
  | cons v vs ih => rw [List.cons_append, after, after, ih]

theorem after_of_not_mem {m : α → β} {a : α} {ws : List (α × β)} (past : ∀ w ∈ ws, w.1 ≠ a) :
    after ws m a = m a := by
  induction ws with
  | nil => rfl
  | cons w ws ih =>
    rw [List.forall_mem_cons] at past
    rw [after, Function.update_of_ne past.1.symm, ih past.2]

theorem after_congr {m m' : α → β} {a : α} (same : m a = m' a) (ws : List (α × β)) :
    after ws m a = after ws m' a := by
  induction ws with
  | nil => exact same
  | cons w ws ih => simp only [after, Function.update_apply, ih]

/-- One store to each of `n` consecutive addresses. -/
theorem after_range (p n : ℕ) (f : ℕ → β) (m : ℕ → β) (a : ℕ) :
    after ((List.range n).map fun i => (p + i, f i)) m a =
      if p ≤ a ∧ a < p + n then f (a - p) else m a := by
  induction n generalizing m with
  | zero => exact (if_neg (by omega)).symm
  | succ n ih =>
    rw [List.range_succ, List.map_append, after_append, ih]
    by_cases inside : p ≤ a ∧ a < p + n
    · rw [if_pos inside, if_pos (by omega)]
    · rw [if_neg inside]
      by_cases last : a = p + n
      · subst last
        rw [if_pos (by omega), Nat.add_sub_cancel_left]
        exact Function.update_self ..
      · rw [if_neg (by omega)]
        exact Function.update_of_ne last ..

/-- A program whose steps store to an array leaves in each entry what the last step for it stored. -/
theorem foldl_update {σ γ : Type*} {step : σ → γ → σ} (view : σ → α → β) (key : γ → α) (value : γ → β)
    (stores : ∀ s c, view (step s c) = Function.update (view s) (key c) (value c)) (s : σ)
    (steps : List γ) (a : α) :
    view (steps.foldl step s) a =
      ((steps.filter (key · = a)).getLast?.map value).getD (view s a) := by
  induction steps using List.reverseRecOn with
  | nil => rfl
  | append_singleton steps c ih =>
    rw [List.foldl_append, List.foldl_cons, List.foldl_nil, stores, Function.update_apply,
      List.filter_append, List.filter_singleton]
    by_cases last : key c = a
    · simp [last]
    · simp [last, Ne.symm last, ih]

end Stores
