import Mathlib.Data.Nat.Find
import Mathlib.Logic.Function.Iterate

/-!
# Loops with a budget

`whileLoop cond body fuel s` runs `while (cond) body` from the state `s` for at most `fuel` tests of the
condition, and gives the state in which the condition failed.  A loop that ends does so after a number
of rounds that does not depend on the budget (`whileLoop_eq_some_iff`).
-/

variable {σ : Type*} {cond : σ → Bool} {body : σ → σ} {fuel : ℕ} {s t : σ}

/-- `while (cond) body`, with a budget for the tests of the condition. -/
def whileLoop (cond : σ → Bool) (body : σ → σ) : ℕ → σ → Option σ
  | 0, _ => none
  | fuel + 1, s => if cond s then whileLoop cond body fuel (body s) else some s

/-- The loop ends in the first state in which the condition fails. -/
theorem whileLoop_eq_some_iff :
    whileLoop cond body fuel s = some t ↔
      ∃ n < fuel, body^[n] s = t ∧ cond t = false ∧ ∀ k < n, cond (body^[k] s) = true := by
  induction fuel generalizing s with
  | zero => simp [whileLoop]
  | succ fuel ih =>
    rw [whileLoop]
    by_cases again : cond s = true
    · rw [if_pos again, ih]
      constructor
      · rintro ⟨n, hn, last, done, before⟩
        refine ⟨n + 1, by omega, last, done, fun k hk => ?_⟩
        cases k with
        | zero => exact again
        | succ k => exact before k (by omega)
      · rintro ⟨n, hn, last, done, before⟩
        cases n with
        | zero =>
          subst last
          exact absurd again (by rw [Function.iterate_zero, id] at done; simp [done])
        | succ n => exact ⟨n, by omega, last, done, fun k hk => before (k + 1) (by omega)⟩
    · rw [if_neg again, Option.some.injEq]
      constructor
      · rintro rfl
        exact ⟨0, by omega, rfl, Bool.eq_false_iff.2 again, fun k hk => absurd hk (Nat.not_lt_zero k)⟩
      · rintro ⟨n, hn, last, -, before⟩
        cases n with
        | zero => exact last
        | succ n => exact absurd (before 0 (Nat.succ_pos n)) again

/-- A loop whose condition fails after some number of rounds ends. -/
theorem exists_whileLoop (ends : ∃ n, cond (body^[n] s) = false) :
    ∃ n, cond (body^[n] s) = false ∧ (∀ k < n, cond (body^[k] s) = true) ∧
      ∀ fuel, n < fuel → whileLoop cond body fuel s = some (body^[n] s) := by
  classical
  have before : ∀ k < Nat.find ends, cond (body^[k] s) = true := fun k hk =>
    Bool.not_eq_false _ ▸ Nat.find_min ends hk
  exact ⟨Nat.find ends, Nat.find_spec ends, before, fun fuel enough =>
    whileLoop_eq_some_iff.2 ⟨_, enough, rfl, Nat.find_spec ends, before⟩⟩
