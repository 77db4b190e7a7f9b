import Mathlib.Data.Nat.Digits.Lemmas

/-!
# Numerals

A numeral is a text of digits, the most significant one first, without superfluous leading zeros
(`IsNumeral`).  A loop that divides by the base until nothing is left finds the digits of a number in
the opposite order (`digits_step`); reversed they are its numeral (`isNumeral_digits`).
-/

namespace Numeral

variable {γ : Type*}

/-- The digits of a number, the least significant one first; zero has one digit. -/
def digits (b n : ℕ) : List ℕ := if n = 0 then [0] else Nat.digits b n

/-- The number that a text stands for in base `b`, if all its characters are digits. -/
def read (value : γ → Option ℕ) (b : ℕ) (text : List γ) : Option ℕ :=
  text.foldlM (fun n c => (value c).map fun d => n * b + d) 0

/-- The text is the canonical numeral of the number in base `b`. -/
structure IsNumeral (value : γ → Option ℕ) (b : ℕ) (text : List γ) (n : ℕ) : Prop where
  nonempty : text ≠ []
  /-- only zero itself begins with a zero -/
  leading : text.head?.bind value = some 0 → text.length = 1
  read : read value b text = some n

section Digits

variable {b : ℕ}

/-- One round of the loop that divides by the base. -/
theorem digits_step (base : 1 < b) (n : ℕ) :
    digits b n = n % b :: if n / b = 0 then [] else digits b (n / b) := by
  by_cases small : n / b = 0
  · rw [if_pos small, digits]
    split_ifs with zero
    · rw [zero, Nat.zero_mod]
    · rw [Nat.digits_eq_cons_digits_div base zero, small, Nat.digits_zero]
  · have zero : n ≠ 0 := by
      rintro rfl
      exact small (Nat.zero_div b)
    rw [if_neg small, digits, if_neg zero, Nat.digits_eq_cons_digits_div base zero, digits,
      if_neg small]

theorem digits_ne_nil (b n : ℕ) : digits b n ≠ [] := by
  rw [digits]
  split_ifs with zero
  · exact List.cons_ne_nil _ _
  · exact Nat.digits_ne_nil_iff_ne_zero.2 zero

theorem digits_lt (base : 1 < b) {n d : ℕ} (hd : d ∈ digits b n) : d < b := by
  rw [digits] at hd
  split_ifs at hd
  · rw [List.mem_singleton.1 hd]
    exact Nat.zero_lt_of_lt base
  · exact Nat.digits_lt_base base hd

theorem ofDigits_digits (b n : ℕ) : Nat.ofDigits b (digits b n) = n := by
  rw [digits]
  split_ifs with zero
  · rw [zero]
    exact Nat.ofDigits_singleton
  · exact Nat.ofDigits_digits b n

/-- The most significant digit is zero for zero only. -/
theorem length_digits_of_getLast (n : ℕ) (last : (digits b n).getLast? = some 0) :
    (digits b n).length = 1 := by
  rw [digits] at last ⊢
  split_ifs at last ⊢ with zero
  · rfl
  · rw [List.getLast?_eq_getLast_of_ne_nil (Nat.digits_ne_nil_iff_ne_zero.2 zero),
      Option.some.injEq] at last
    exact absurd last (Nat.getLast_digit_ne_zero b zero)

end Digits

section Reading

variable {b : ℕ} {char : ℕ → γ} {value : γ → Option ℕ}

theorem foldlM_map (decode : ∀ d < b, value (char d) = some d) {ds : List ℕ} (small : ∀ d ∈ ds, d < b)
    (n : ℕ) :
    (ds.map char).foldlM (fun n c => (value c).map fun d => n * b + d) n =
      some (ds.foldl (fun n d => n * b + d) n) := by
  induction ds generalizing n with
  | nil => rfl
  | cons d ds ih =>
    rw [List.forall_mem_cons] at small
    rw [List.map_cons, List.foldlM_cons, decode d small.1]
    exact ih small.2 _

/-- The digits in the opposite order are the numeral of the number. -/
theorem isNumeral_digits (base : 1 < b) (decode : ∀ d < b, value (char d) = some d) (n : ℕ) :
    IsNumeral value b ((digits b n).map char).reverse n := by
  have small : ∀ d ∈ (digits b n).reverse, d < b := fun d hd => digits_lt base (List.mem_reverse.1 hd)
  refine ⟨?_, fun zero => ?_, ?_⟩
  · simp [digits_ne_nil]
  · rw [List.length_reverse, List.length_map]
    refine length_digits_of_getLast n ?_
    rw [List.head?_reverse, List.getLast?_map] at zero
    have last := List.getLast?_eq_getLast_of_ne_nil (digits_ne_nil b n)
    rw [last, Option.map_some, Option.bind_some,
      decode _ (digits_lt base (List.getLast_mem _))] at zero
    rw [last, zero]
  · rw [read, ← List.map_reverse, foldlM_map decode small, List.foldl_reverse]
    have whole := ofDigits_digits b n
    rw [Nat.ofDigits_eq_foldr] at whole
    simp only [Nat.cast_id, add_comm, mul_comm] at whole ⊢
    exact congrArg some whole

end Reading

end Numeral
