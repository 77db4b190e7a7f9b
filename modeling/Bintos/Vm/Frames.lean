import Bintos.Vm.Fields

/-!
# What `mapPage` needs of a frame allocator

`Grants` is one allocation of a fresh zeroed frame.  A `FrameSource` is an allocator all of whose
successful calls are such allocations, as long as nobody else writes outside the frames that it has
handed out.  `popFrame` hands out the frames of a list and is such an allocator for any list of distinct
frames.
-/

namespace Bintos

section Grants

variable {α : Type}

/-- The allocation of the frame `a`, when the frames of `taken` are in use. -/
structure Grants (taken : List U64) (s : Machine α) (a : U64) (s' : Machine α) : Prop where
  aligned : PageAligned a
  low : a.toNat < 2 ^ 52
  fresh : a ∉ taken
  zeroed : ∀ x, Mem.InRange a 4096 x → s'.mem x = 0
  kept : ∀ b ∈ taken, ∀ x, Mem.InRange b 4096 x → s'.mem x = s.mem x
  hhdmoff : s'.hhdmoff = s.hhdmoff
  pml4Addr : s'.pml4Addr = s.pml4Addr

/-- An allocator that hands out fresh zeroed frames while its invariant holds. -/
structure FrameSource (frameAlloc : Bool → Kern α U64) where
  /-- The allocator is in order and has handed out the frames of the list. -/
  Inv : List U64 → Machine α → Prop
  grant : ∀ {taken s a s'}, Inv taken s → (frameAlloc true).run s = .ok a s' →
    Grants taken s a s' ∧ Inv (a :: taken) s'
  /-- Stores to frames that are handed out do not disturb the allocator. -/
  write : ∀ {taken} {s s' : Machine α}, Inv taken s → s'.alloc = s.alloc →
    s'.hhdmoff = s.hhdmoff →
    (∀ x, (∀ b ∈ taken, ¬ Mem.InRange b 4096 x) → s'.mem x = s.mem x) → Inv taken s'

/-- A computation that ended with a failure of the allocator, at most `n` frames having been handed
out. -/
def FrameSource.Stops {frameAlloc : Bool → Kern α U64} (source : FrameSource frameAlloc) (n : ℕ)
    {β : Type} (r : EStateM.Result Stop (Machine α) β) : Prop :=
  ∃ taken t e t', taken.length ≤ n ∧ source.Inv taken t ∧
    (frameAlloc true).run t = .error e t' ∧ r = .error e t'

/-- The allocator returns as long as at most `n` frames have been handed out. -/
def FrameSource.Supplies {frameAlloc : Bool → Kern α U64} (source : FrameSource frameAlloc)
    (n : ℕ) : Prop :=
  ∀ taken t, taken.length ≤ n → source.Inv taken t → ∃ a t', (frameAlloc true).run t = .ok a t'

section Stops

variable {frameAlloc : Bool → Kern α U64} {source : FrameSource frameAlloc} {m n : ℕ} {β γ : Type}
  {r : EStateM.Result Stop (Machine α) β}

theorem FrameSource.Stops.mono (stops : source.Stops m r) (le : m ≤ n) : source.Stops n r := by
  obtain ⟨taken, t, e, t', few, rest⟩ := stops
  exact ⟨taken, t, e, t', few.trans le, rest⟩

/-- What comes after a failure is not run. -/
theorem FrameSource.Stops.exists_error (stops : source.Stops n r) :
    ∃ e t, r = .error e t ∧ ∀ γ : Type,
      source.Stops n (.error e t : EStateM.Result Stop (Machine α) γ) := by
  obtain ⟨taken, t, e, t', few, inv, call, rfl⟩ := stops
  exact ⟨e, t', rfl, fun γ => ⟨taken, t, e, t', few, inv, call, rfl⟩⟩

theorem FrameSource.Stops.ne_ok (stops : source.Stops n r) {b : β} {s' : Machine α} :
    r ≠ .ok b s' := by
  obtain ⟨taken, t, e, t', few, inv, call, rfl⟩ := stops
  intro returned
  cases returned

theorem FrameSource.Supplies.not_stops (supplies : source.Supplies n) : ¬ source.Stops n r := by
  rintro ⟨taken, t, e, t', few, inv, call, -⟩
  obtain ⟨a, t'', returns⟩ := supplies taken t few inv
  rw [call] at returns
  cases returns

end Stops

end Grants

/-! ### Frames from a list -/

/-- Hand out the first frame of the list, and halt at its end. -/
def popFrame (zeroed : Bool) : Kern (List U64) U64 := do
  match (← get).alloc with
  | [] => throw .halted
  | a :: rest =>
    modify fun s => { s with alloc := rest }
    if zeroed then
      memset (a + (← get).hhdmoff) 0 frameAllocationSize
    return a

theorem run_popFrame_cons {a : U64} {rest : List U64} {s : Machine (List U64)}
    (list : s.alloc = a :: rest) :
    (popFrame true).run s = .ok a { s.touch ⟨.clear, a + s.hhdmoff, frameAllocationSize.toNat⟩ with
      mem := s.mem.fill a 0 frameAllocationSize.toNat
      alloc := rest } := by
  simp [popFrame, list, Machine.v2p, Machine.touch]

theorem run_popFrame_nil {s : Machine (List U64)} (list : s.alloc = []) :
    (popFrame true).run s = .error .halted s := by
  simp only [popFrame, EStateM.run_bind, EStateM.run_get, list]
  rfl

/-- The list holds distinct frames that are not taken, and with those that are it makes `all`. -/
structure Supply (all taken : List U64) (s : Machine (List U64)) : Prop where
  frames : ∀ a ∈ s.alloc, PageAligned a ∧ a.toNat < 2 ^ 52 ∧ a ∉ taken
  distinct : s.alloc.Nodup
  aligned : ∀ b ∈ taken, PageAligned b
  order : taken.reverse ++ s.alloc = all

theorem Supply.grant {all taken : List U64} {s s' : Machine (List U64)} {a : U64}
    (supply : Supply all taken s) (returns : (popFrame true).run s = .ok a s') :
    Grants taken s a s' ∧ Supply all (a :: taken) s' := by
  cases list : s.alloc with
  | nil => simp [run_popFrame_nil list] at returns
  | cons b rest =>
    rw [run_popFrame_cons list, EStateM.Result.ok.injEq] at returns
    obtain ⟨rfl, rfl⟩ := returns
    have member : b ∈ s.alloc := list ▸ List.mem_cons_self
    have distinct := list ▸ supply.distinct
    rw [List.nodup_cons] at distinct
    obtain ⟨aligned, low, fresh⟩ := supply.frames b member
    refine ⟨⟨aligned, low, fresh, fun x hx => ?_, fun c hc x hx => ?_, rfl, rfl⟩, fun c hc => ?_,
      distinct.2, fun c hc => ?_, ?_⟩
    · exact Mem.fill_of_inRange _ _ (by decide) hx
    · refine Mem.fill_of_not_inRange _ _ (by decide) ?_
      exact pages_apart (supply.aligned c hc) aligned (fun same => fresh (same ▸ hc)) hx
    · have frame := supply.frames c (list ▸ List.mem_cons_of_mem b hc)
      refine ⟨frame.1, frame.2.1, fun taken => ?_⟩
      rcases List.mem_cons.1 taken with rfl | old
      · exact distinct.1 hc
      · exact frame.2.2 old
    · rcases List.mem_cons.1 hc with rfl | old
      · exact aligned
      · exact supply.aligned c old
    · rw [← supply.order, list, List.reverse_cons, List.append_assoc, List.singleton_append]

/-- The allocator of the frames `all`. -/
def popSource (all : List U64) : FrameSource popFrame where
  Inv := Supply all
  grant := Supply.grant
  write supply list _ _ :=
    ⟨list ▸ supply.frames, list ▸ supply.distinct, supply.aligned, list ▸ supply.order⟩

theorem popSource_supplies {all : List U64} {n : ℕ} (more : n < all.length) :
    (popSource all).Supplies n := by
  intro taken t few supply
  have supply : Supply all taken t := supply
  cases list : t.alloc with
  | nil =>
    have length := congrArg List.length supply.order
    rw [list, List.append_nil, List.length_reverse] at length
    omega
  | cons a rest => exact ⟨a, _, run_popFrame_cons list⟩

end Bintos
