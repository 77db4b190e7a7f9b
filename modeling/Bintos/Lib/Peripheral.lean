import Mathlib.Data.List.Basic

/-!
# Devices

The state of a device changes with the accesses of a program, and by itself between them.  What happens
between two accesses is up to the surroundings `env`, which give the events that come after the accesses
made so far, with the last access first.  So a statement about all `env` is one about every order in
which the accesses and the events can come.
-/

/-- What an access and what an event does to the state of a device. -/
structure Peripheral (σ A E : Type*) where
  access : σ → A → σ
  event : σ → E → σ

namespace Peripheral

variable {σ A E : Type*} (P : Peripheral σ A E)

/-- The state after some events. -/
def settle (s : σ) (events : List E) : σ := events.foldl P.event s

/-- The state that the next access finds. -/
def now (env : List A → List E) (s : σ) : List A → σ
  | [] => P.settle s (env [])
  | a :: h => P.settle (P.access (now env s h) a) (env (a :: h))

theorem now_cons (env : List A → List E) (s : σ) (a : A) (h : List A) :
    P.now env s (a :: h) = P.settle (P.access (P.now env s h) a) (env (a :: h)) := rfl

variable {P} {s : σ} {events : List E} {e : E}

/-- What every event keeps holds after the events. -/
theorem settle_induction {I : σ → Prop} (start : I s)
    (step : ∀ t, ∀ e ∈ events, I t → I (P.event t e)) : I (P.settle s events) := by
  induction events generalizing s with
  | nil => exact start
  | cons e events ih =>
    exact ih (step s e List.mem_cons_self start) fun t e he => step t e (List.mem_cons_of_mem _ he)

/-- What every event keeps and one event brings about holds after events with this one. -/
theorem settle_of_mem {I J : σ → Prop} (start : I s) (he : e ∈ events)
    (keeps : ∀ t, ∀ e ∈ events, I t → I (P.event t e)) (brings : ∀ t, I t → J (P.event t e))
    (stays : ∀ t, ∀ e ∈ events, J t → J (P.event t e)) : J (P.settle s events) := by
  induction events generalizing s with
  | nil => cases he
  | cons d events ih =>
    rcases List.mem_cons.1 he with rfl | later
    · show J (P.settle (P.event s e) events)
      exact settle_induction (brings s start) fun t d hd => stays t d (List.mem_cons_of_mem _ hd)
    · exact ih (keeps s d List.mem_cons_self start) later
        (fun t e he => keeps t e (List.mem_cons_of_mem _ he))
        fun t e he => stays t e (List.mem_cons_of_mem _ he)

end Peripheral
