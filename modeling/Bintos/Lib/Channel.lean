import Mathlib.Data.List.Basic

/-!
# Programs that write to a channel

A program works on a state and sends items on a channel that it never looks at.  So what it does to its
state depends on its state only, and what it sends is a list of items.  `Emits` says this of one run, for
every channel that takes the items, and `Follows` of a program that does the same as one without
a channel.
-/

namespace Channel

variable {ε ε' σ τ ι β γ : Type}

/-- A computation on the state, with other names for its errors. -/
def onState (f : ε' → ε) (x : EStateM ε' σ β) : EStateM ε (σ × τ) β := fun p =>
  match x.run p.1 with
  | .ok b s => .ok b (s, p.2)
  | .error e s => .error (f e) (s, p.2)

/-- A computation on the channel, with other names for its errors. -/
def onChannel (f : ε' → ε) (x : EStateM ε' τ β) : EStateM ε (σ × τ) β := fun p =>
  match x.run p.2 with
  | .ok b t => .ok b (p.1, t)
  | .error e t => .error (f e) (p.1, t)

theorem run_onState (f : ε' → ε) (x : EStateM ε' σ β) (p : σ × τ) :
    (onState f x).run p = match x.run p.1 with
      | .ok b s => .ok b (s, p.2)
      | .error e s => .error (f e) (s, p.2) := rfl

theorem run_onChannel (f : ε' → ε) (x : EStateM ε' τ β) (p : σ × τ) :
    (onChannel f x).run p = match x.run p.2 with
      | .ok b t => .ok b (p.1, t)
      | .error e t => .error (f e) (p.1, t) := rfl

theorem onChannel_bind (f : ε' → ε) (x : EStateM ε' τ β) (g : β → EStateM ε' τ γ) :
    (onChannel f (x >>= g) : EStateM ε (σ × τ) γ) = onChannel f x >>= fun b => onChannel f (g b) := by
  funext p
  show (onChannel f (x >>= g)).run p = (onChannel f x >>= fun b => onChannel f (g b)).run p
  rw [EStateM.run_bind, run_onChannel, run_onChannel, EStateM.run_bind]
  cases x.run p.2 <;> rfl

/-- A result on the state, with the channel in the state `t`. -/
def result (t : τ) : EStateM.Result ε σ β → EStateM.Result ε (σ × τ) β
  | .ok b s => .ok b (s, t)
  | .error e s => .error e (s, t)

/-- A result with other names for its errors. -/
def rename (f : ε' → ε) : EStateM.Result ε' σ β → EStateM.Result ε σ β
  | .ok b s => .ok b s
  | .error e s => .error (f e) s

/-- From the state `s` on the program comes to `r` and sends `out`, on every channel that takes
these items. -/
def Emits (send : ι → EStateM ε' τ Unit) (x : EStateM ε (σ × τ) β) (s : σ) (out : List ι)
    (r : EStateM.Result ε σ β) : Prop :=
  ∀ t t', (out.forM send).run t = .ok () t' → x.run (s, t) = result t' r

section Emits

variable {send : ι → EStateM ε' τ Unit} {x : EStateM ε (σ × τ) β} {f : β → EStateM ε (σ × τ) γ}
  {s s' : σ} {out out' : List ι} {b : β} {e : ε} {r : EStateM.Result ε σ γ} {t t' : τ}

/-- A channel that takes a list takes its parts one after the other. -/
theorem run_forM_append_eq_ok :
    ((out ++ out').forM send).run t = .ok () t' ↔
      ∃ u, (out.forM send).run t = .ok () u ∧ (out'.forM send).run u = .ok () t' := by
  have parts : (out ++ out').forM send = out.forM send >>= fun _ => out'.forM send := List.forM_append
  rw [parts, EStateM.run_bind]
  cases (out.forM send).run t with
  | ok _ u => simp
  | error e u => simp

theorem Emits.pure (b : β) (s : σ) :
    Emits send (pure b : EStateM ε (σ × τ) β) s [] (.ok b s) := by
  intro t t' sent
  cases sent
  rfl

theorem Emits.throw (e : ε) (s : σ) :
    Emits send (MonadExcept.throw e : EStateM ε (σ × τ) β) s [] (.error e s) := by
  intro t t' sent
  cases sent
  rfl

theorem Emits.bind (first : Emits send x s out (.ok b s')) (rest : Emits send (f b) s' out' r) :
    Emits send (x >>= f) s (out ++ out') r := by
  intro t t' sent
  obtain ⟨u, here, later⟩ := run_forM_append_eq_ok.1 sent
  rw [EStateM.run_bind, first t u here]
  exact rest u t' later

/-- The first part sends nothing. -/
theorem Emits.bind_nil (first : Emits send x s [] (.ok b s')) (rest : Emits send (f b) s' out r) :
    Emits send (x >>= f) s out r :=
  first.bind rest

theorem Emits.bind_error (first : Emits send x s out (.error e s')) :
    Emits send (x >>= f) s out (.error e s') := by
  intro t t' sent
  rw [EStateM.run_bind, first t t' sent]
  rfl

/-- A computation on the state sends nothing. -/
theorem emits_onState {ε'' : Type} (g : ε'' → ε) (x : EStateM ε'' σ β) (s : σ) :
    Emits send (onState g x) s [] (rename g (x.run s)) := by
  intro t t' sent
  cases sent
  rw [run_onState]
  cases x.run s <;> rfl

/-- An item is sent. -/
theorem emits_send (g : ε' → ε) (a : ι) (s : σ) :
    Emits send (onChannel g (send a)) s [a] (.ok () s) := by
  intro t t' sent
  have taken : (send a).run t = .ok () t' := by
    have sent : (send a >>= fun _ => [].forM send).run t = .ok () t' := sent
    rw [EStateM.run_bind] at sent
    cases here : (send a).run t with
    | ok _ u =>
      rw [here] at sent
      exact sent
    | error e u =>
      rw [here] at sent
      cases sent
  rw [run_onChannel, taken]
  rfl

end Emits

/-- Every run of `x` is one of `y`, with some items sent on the way. -/
def Follows (send : ι → EStateM ε' τ Unit) {ε'' : Type} (g : ε'' → ε) (x : EStateM ε (σ × τ) β)
    (y : EStateM ε'' σ β) : Prop :=
  ∀ s, ∃ out, Emits send x s out (rename g (y.run s))

section Follows

variable {send : ι → EStateM ε' τ Unit} {ε'' : Type} {g : ε'' → ε} {x : EStateM ε (σ × τ) β}
  {y : EStateM ε'' σ β} {f : β → EStateM ε (σ × τ) γ} {h : β → EStateM ε'' σ γ}

theorem Follows.onState (g : ε'' → ε) (y : EStateM ε'' σ β) : Follows send g (onState g y) y := fun s =>
  ⟨[], emits_onState g y s⟩

theorem Follows.pure (b : β) :
    Follows send g (pure b : EStateM ε (σ × τ) β) (pure b : EStateM ε'' σ β) := fun s =>
  ⟨[], Emits.pure b s⟩

theorem Follows.of_send (g : ε'' → ε) (k : ε' → ε) (a : ι) :
    Follows send g (onChannel k (send a)) (Pure.pure () : EStateM ε'' σ Unit) := fun s =>
  ⟨[a], emits_send k a s⟩

theorem Follows.bind (first : Follows send g x y) (rest : ∀ b, Follows send g (f b) (h b)) :
    Follows send g (x >>= f) (y >>= h) := by
  intro s
  obtain ⟨out, emits⟩ := first s
  rw [EStateM.run_bind]
  cases run : y.run s with
  | ok b s' =>
    rw [run] at emits
    obtain ⟨out', later⟩ := rest b s'
    exact ⟨out ++ out', emits.bind later⟩
  | error e s' =>
    rw [run] at emits
    exact ⟨out, emits.bind_error⟩

/-- Something is sent before. -/
theorem Follows.after (k : ε' → ε) (a : ι) (rest : Follows send g x y) :
    Follows send g (onChannel k (send a) >>= fun _ => x) y :=
  (Follows.of_send g k a).bind fun _ => rest

/-- Something is done afterwards that only sends. -/
theorem Follows.before {f : β → EStateM ε (σ × τ) β} (first : Follows send g x y)
    (rest : ∀ b, Follows send g (f b) (Pure.pure b : EStateM ε'' σ β)) :
    Follows send g (x >>= f) y := by
  have both := first.bind rest
  rwa [bind_pure] at both

theorem Follows.foldlM {κ : Type} {step : β → κ → EStateM ε (σ × τ) β}
    {step' : β → κ → EStateM ε'' σ β} {l : List κ}
    (follows : ∀ b, ∀ i ∈ l, Follows send g (step b i) (step' b i)) (b : β) :
    Follows send g (l.foldlM step b) (l.foldlM step' b) := by
  induction l generalizing b with
  | nil => exact .pure b
  | cons i l ih =>
    rw [List.foldlM_cons, List.foldlM_cons]
    exact (follows b i List.mem_cons_self).bind fun b' =>
      ih (fun b i hi => follows b i (List.mem_cons_of_mem _ hi)) b'

end Follows

end Channel
