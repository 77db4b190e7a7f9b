import Mathlib.Data.List.TakeWhile

/-!
# Texts with fields

A template is a text with gaps for fields.  `fill` puts texts into the gaps, and `cut` finds them again
when every field is followed by a character that is not in it (`cut_fill`).
-/

namespace Template

variable {γ : Type*}

/-- A character of a template, or the place of a field. -/
inductive Slot (γ : Type*) where
  | char (a : γ)
  | field
  deriving DecidableEq

/-- The template with texts for its fields, the first one first. -/
def fill : List (Slot γ) → List (List γ) → List γ
  | [], _ => []
  | .char a :: ps, ts => a :: fill ps ts
  | .field :: ps, [] => fill ps []
  | .field :: ps, t :: ts => t ++ fill ps ts

/-- The characters that come before the first field. -/
def literal (text : List γ) : List (Slot γ) := text.map .char

/-- Every field is followed by a character that is not in it, or comes last. -/
def Delimited : List (Slot γ) → List (List γ) → Prop
  | [], ts => ts = []
  | .char _ :: ps, ts => Delimited ps ts
  | .field :: _, [] => False
  | [.field], _ :: ts => ts = []
  | .field :: .char a :: ps, t :: ts => a ∉ t ∧ Delimited ps ts
  | .field :: .field :: _, _ :: _ => False

variable [DecidableEq γ]

/-- The texts of the fields; a field goes up to the character that follows it in the template. -/
def cut : List (Slot γ) → List γ → Option (List (List γ))
  | [], [] => some []
  | [], _ :: _ => none
  | .char _ :: _, [] => none
  | .char a :: ps, c :: text => if a = c then cut ps text else none
  | [.field], text => some [text]
  | .field :: .char a :: ps, text =>
    match text.dropWhile (· ≠ a) with
    | [] => none
    | _ :: rest => (cut ps rest).map (text.takeWhile (· ≠ a) :: ·)
  | .field :: .field :: _, _ => none

variable {a : γ} {ps : List (Slot γ)} {text : List γ} {ts : List (List γ)}

theorem cut_literal (text rest : List γ) (ps : List (Slot γ)) :
    cut (literal text ++ ps) (text ++ rest) = cut ps rest := by
  induction text with
  | nil => rfl
  | cons a text ih =>
    show (if a = a then cut (literal text ++ ps) (text ++ rest) else none) = _
    rw [if_pos rfl, ih]

/-- **Cutting.**  The fields of a text are found again. -/
theorem cut_fill (delimited : Delimited ps ts) : cut ps (fill ps ts) = some ts := by
  induction ps, ts using Delimited.induct with
  | case1 ts =>
    rw [show ts = [] from delimited]
    rfl
  | case2 a ps ts ih =>
    show (if a = a then cut ps (fill ps ts) else none) = _
    rw [if_pos rfl]
    exact ih delimited
  | case3 ps => exact delimited.elim
  | case4 t ts =>
    rw [show ts = [] from delimited, fill, fill, List.append_nil]
    rfl
  | case5 a ps t ts ih =>
    obtain ⟨past, rest⟩ := delimited
    have all : ∀ c ∈ t, decide (c ≠ a) = true := fun c hc => by
      rw [decide_eq_true_iff]
      rintro rfl
      exact past hc
    have stop : decide (a ≠ a) = false := by simp
    rw [fill, fill, cut, List.dropWhile_append_of_pos all, List.takeWhile_append_of_pos all,
      List.dropWhile_cons_of_neg (by simp), List.takeWhile_cons_of_neg (by simp), List.append_nil]
    simp only [ih rest, Option.map_some]
  | case6 ps t ts => exact delimited.elim

end Template
