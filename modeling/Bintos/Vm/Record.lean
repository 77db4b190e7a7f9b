import Bintos.Vm.Refine

/-!
# A record of the allocator's answers

`recorded` is an allocator that also keeps the answers it gave.  No kernel function reads the record, so
a run with it is a run of the allocator itself (`Forgets`), and it is a source of frames whenever the
allocator is one (`FrameSource.recorded`).
-/

namespace Bintos

section Record

variable {α β γ : Type}

/-- The machine with a record of the answers given so far, the last one first. -/
def Machine.recording (s : Machine α) (answers : List U64) : Machine (α × List U64) :=
  { s with alloc := (s.alloc, answers) }

/-- The machine without the record. -/
def Machine.plain (s : Machine (α × List U64)) : Machine α := { s with alloc := s.alloc.1 }

/-- The answers in the record. -/
def Machine.answers (s : Machine (α × List U64)) : List U64 := s.alloc.2

@[simp] theorem Machine.plain_recording (s : Machine α) (l : List U64) :
    (s.recording l).plain = s := rfl

@[simp] theorem Machine.answers_recording (s : Machine α) (l : List U64) :
    (s.recording l).answers = l := rfl

theorem Machine.recording_plain (s : Machine (α × List U64)) :
    s.plain.recording s.answers = s := rfl

/-- The allocator with a record of its answers. -/
def recorded (frameAlloc : Bool → Kern α U64) (zeroed : Bool) : Kern (α × List U64) U64 := fun s =>
  match (frameAlloc zeroed).run s.plain with
  | .ok a t => .ok a (t.recording (a :: s.answers))
  | .error e t => .error e (t.recording s.answers)

/-! ### Forgetting the record -/

/-- A result without the record. -/
def plainResult : EStateM.Result Stop (Machine (α × List U64)) β →
    EStateM.Result Stop (Machine α) β
  | .ok b t => .ok b t.plain
  | .error e t => .error e t.plain

/-- The first computation is the second one, but for the record. -/
def Forgets (x : Kern (α × List U64) β) (y : Kern α β) : Prop :=
  ∀ s, y.run s.plain = plainResult (x.run s)

theorem Forgets.bind {x : Kern (α × List U64) β} {y : Kern α β} {f : β → Kern (α × List U64) γ}
    {g : β → Kern α γ} (first : Forgets x y) (rest : ∀ b, Forgets (f b) (g b)) :
    Forgets (x >>= f) (y >>= g) := by
  intro s
  rw [EStateM.run_bind, EStateM.run_bind, first s]
  cases x.run s with
  | ok b t => exact rest b t
  | error e t => rfl

/-- What reads the machine may read the shared part. -/
theorem Forgets.get_bind {f : Machine (α × List U64) → Kern (α × List U64) β}
    {g : Machine α → Kern α β} (rest : ∀ t, Forgets (f t) (g t.plain)) :
    Forgets (get >>= f) (get >>= g) := fun s => rest s s

theorem forgets_recorded (frameAlloc : Bool → Kern α U64) (zeroed : Bool) :
    Forgets (recorded frameAlloc zeroed) (frameAlloc zeroed) := by
  intro s
  show _ = plainResult (match (frameAlloc zeroed).run s.plain with
    | .ok a t => .ok a (t.recording (a :: s.answers))
    | .error e t => .error e (t.recording s.answers))
  cases (frameAlloc zeroed).run s.plain <;> rfl

variable {f : Bool → Kern (α × List U64) U64} {g : Bool → Kern α U64}

theorem forgets_storeFields {F : Type} [DecidableEq F] [Packed F] (entry : U64)
    (l : List (F × U64)) :
    Forgets (l.forM fun a => storeField entry a.1 a.2 : Kern (α × List U64) Unit)
      (l.forM fun a => storeField entry a.1 a.2) := by
  intro s
  rw [run_storeFields, run_storeFields]
  rfl

theorem Forgets.nextTable {F : Type} [DecidableEq F] [Packed F] (h : ∀ z, Forgets (f z) (g z))
    (present ptr : F) (link : U64 → List (F × U64)) (entry : U64) :
    Forgets (nextTable f present ptr link entry) (nextTable g present ptr link entry) := by
  refine Forgets.bind (fun s => ?_) fun held => ?_
  · rw [run_loadField, run_loadField]
    rfl
  split_ifs
  · refine (h true).bind fun table => (forgets_storeFields entry _).bind fun _ => ?_
    exact .get_bind fun t s => rfl
  · refine Forgets.bind (fun s => ?_) fun frame => .get_bind fun t s => rfl
    rw [run_loadField, run_loadField]
    rfl

theorem Forgets.mapPage (h : ∀ z, Forgets (f z) (g z)) (c : MapCall) :
    Forgets (mapPage f c) (mapPage g c) :=
  .get_bind fun _ => .get_bind fun _ => (Forgets.nextTable h _ _ _ _).bind fun _ =>
    (Forgets.nextTable h _ _ _ _).bind fun _ => (Forgets.nextTable h _ _ _ _).bind fun _ =>
      forgets_storeFields _ _

theorem Forgets.mapPages (h : ∀ z, Forgets (f z) (g z)) (calls : List MapCall) :
    Forgets (mapPages f calls) (mapPages g calls) := by
  induction calls with
  | nil => exact fun _ => rfl
  | cons c calls ih => exact (Forgets.mapPage h c).bind fun _ => ih

/-- A run that returns comes with a record. -/
theorem Forgets.exists_record {x : Kern (α × List U64) β} {y : Kern α β} (h : Forgets x y)
    {s s' : Machine α} {b : β} (returns : y.run s = .ok b s') (l : List U64) :
    ∃ l', x.run (s.recording l) = .ok b (s'.recording l') := by
  have run := h (s.recording l)
  rw [Machine.plain_recording, returns] at run
  cases result : x.run (s.recording l) with
  | ok b' t =>
    rw [result] at run
    cases run
    exact ⟨t.answers, rfl⟩
  | error e t =>
    rw [result] at run
    cases run

/-- The condition on the tables that a call reuses does not see the record. -/
theorem Forgets.lowRun (h : ∀ z, Forgets (f z) (g z)) {calls : List MapCall}
    {s : Machine (α × List U64)} (low : LowRun g s.plain calls) : LowRun f s calls := by
  induction calls generalizing s with
  | nil => trivial
  | cons c calls ih =>
    refine ⟨low.1, fun s' returns => ih (low.2 s'.plain ?_)⟩
    rw [Forgets.mapPage h c s, returns]
    rfl

/-! ### The source of frames -/

theorem run_recorded_eq_ok {frameAlloc : Bool → Kern α U64} {zeroed : Bool} {a : U64}
    {s s' : Machine (α × List U64)} : (recorded frameAlloc zeroed).run s = .ok a s' ↔
      (frameAlloc zeroed).run s.plain = .ok a s'.plain ∧ s'.answers = a :: s.answers := by
  rw [EStateM.run, recorded]
  cases (frameAlloc zeroed).run s.plain with
  | error e t => simp
  | ok b t =>
    simp only [EStateM.Result.ok.injEq]
    constructor
    · rintro ⟨rfl, rfl⟩
      exact ⟨⟨rfl, rfl⟩, rfl⟩
    · rintro ⟨⟨rfl, rfl⟩, record⟩
      refine ⟨rfl, ?_⟩
      rw [← record, Machine.recording_plain]

/-- A source of frames with a record, which has handed out the frames in the record and those of `base`
before. -/
def FrameSource.recorded {frameAlloc : Bool → Kern α U64} (source : FrameSource frameAlloc)
    (base : List U64) : FrameSource (recorded frameAlloc) where
  Inv taken s := source.Inv taken s.plain ∧ taken = s.answers ++ base
  grant := by
    rintro taken s a s' ⟨inv, rfl⟩ returns
    obtain ⟨returns, record⟩ := run_recorded_eq_ok.1 returns
    obtain ⟨grants, inv'⟩ := source.grant inv returns
    refine ⟨⟨grants.aligned, grants.low, grants.fresh, grants.zeroed, grants.kept, grants.hhdmoff,
      grants.pml4Addr⟩, inv', ?_⟩
    rw [record, List.cons_append]
  write := by
    rintro taken s s' ⟨inv, rfl⟩ same offset kept
    refine ⟨source.write inv (congrArg Prod.fst same) offset kept, ?_⟩
    rw [Machine.answers, Machine.answers, same]

end Record

end Bintos
