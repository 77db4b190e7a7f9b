import Mathlib.Data.List.Basic

/-!
# Transducers

A transducer reads a text from left to right.  In each state it turns a character into a list of
outputs and a new state, and at the end of the text it turns the state into a last list of outputs.
-/

/-- A transducer with states `σ`, characters `α` and outputs `β`. -/
structure Transducer (σ α β : Type*) where
  step : σ → α → σ
  emit : σ → α → List β
  flush : σ → List β

namespace Transducer

variable {σ α β : Type*} (t : Transducer σ α β)

/-- The state after a text. -/
def state (q : σ) (text : List α) : σ := text.foldl t.step q

/-- What is put out before the end of the text. -/
def emits : σ → List α → List β
  | _, [] => []
  | q, c :: text => t.emit q c ++ emits (t.step q c) text

/-- The output for a text. -/
def run (q : σ) (text : List α) : List β := t.emits q text ++ t.flush (t.state q text)

theorem run_cons (q : σ) (c : α) (text : List α) :
    t.run q (c :: text) = t.emit q c ++ t.run (t.step q c) text :=
  List.append_assoc ..

/-- A text is read where the text before it ended. -/
theorem run_append (q : σ) (text more : List α) :
    t.run q (text ++ more) = t.emits q text ++ t.run (t.state q text) more := by
  induction text generalizing q with
  | nil => rfl
  | cons c text ih => rw [List.cons_append, run_cons, ih, emits, List.append_assoc]; rfl

/-- Where nothing is open at the end, a text puts out the same with and without a text after it. -/
theorem run_append_of_flush {q : σ} {text : List α} (closed : t.flush (t.state q text) = [])
    (more : List α) : t.run q (text ++ more) = t.run q text ++ t.run (t.state q text) more := by
  rw [run_append]
  show _ = t.emits q text ++ t.flush (t.state q text) ++ _
  rw [closed, List.append_nil]

end Transducer
