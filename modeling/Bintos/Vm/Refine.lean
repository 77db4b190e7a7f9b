import Bintos.Vm.Step

/-!
# Page tables as a map

A sequence of `mapPage` calls acts on the map from virtual pages to page-table entries like a sequence
of overwrites (`mapPages_cases`), as long as no call reuses a table at or above `2 ^ 40`.  The walk of
the processor reads that map (`walk_eq`), so from a zeroed PML4 it yields what the last call for the
page requested (`MapsPages.walk_eq`).
-/

namespace Bintos

section Refine

variable {α : Type}

/-- Calls of `map_page`, one after the other. -/
def mapPages (frameAlloc : Bool → Kern α U64) (calls : List MapCall) : Kern α Unit :=
  calls.forM (mapPage frameAlloc)

/-- No call of the sequence reuses a table at or above `2 ^ 40`. -/
def LowRun (frameAlloc : Bool → Kern α U64) : Machine α → List MapCall → Prop
  | _, [] => True
  | s, c :: calls => ReusesLow s c.vaddr ∧
      ∀ s', (mapPage frameAlloc c).run s = .ok () s' → LowRun frameAlloc s' calls

/-- The last of the calls for a page. -/
def lastCallFor (calls : List MapCall) (key : List (BitVec 9) × BitVec 9) : Option MapCall :=
  calls.reverse.find? fun c => pageKey c.vaddr = key

/-- The page-table entry of a page after some calls. -/
def pteAfter (calls : List MapCall) (key : List (BitVec 9) × BitVec 9) (w : U64) : U64 :=
  calls.foldl (fun w c => if key = pageKey c.vaddr then pteWord c w else w) w

/-- Only the last call for a page matters. -/
theorem pteAfter_eq (calls : List MapCall) (key : List (BitVec 9) × BitVec 9) (w : U64) :
    match lastCallFor calls key with
    | none => pteAfter calls key w = w
    | some c => ∃ w', pteAfter calls key w = pteWord c w' := by
  induction calls using List.reverseRecOn with
  | nil => rfl
  | append_singleton calls c ih =>
    have last : lastCallFor (calls ++ [c]) key =
        if pageKey c.vaddr = key then some c else lastCallFor calls key := by
      rw [lastCallFor, List.reverse_append, List.reverse_singleton, List.singleton_append,
        List.find?_cons]
      by_cases same : pageKey c.vaddr = key <;> simp [same, lastCallFor]
    have step : pteAfter (calls ++ [c]) key w =
        if key = pageKey c.vaddr then pteWord c (pteAfter calls key w) else pteAfter calls key w := by
      rw [pteAfter, List.foldl_append, List.foldl_cons, List.foldl_nil]
      rfl
    rw [last, step]
    by_cases same : pageKey c.vaddr = key
    · rw [if_pos same, if_pos same.symm]
      exact ⟨_, rfl⟩
    · rw [if_neg same, if_neg (Ne.symm same)]
      exact ih

/-! ### Runs -/

section Run

variable {frameAlloc : Bool → Kern α U64} {taken taken' : List U64} {s s' : Machine α}
  {calls calls' : List MapCall}

theorem run_mapPages_cons (frameAlloc : Bool → Kern α U64) (c : MapCall) (calls : List MapCall)
    (s : Machine α) : (mapPages frameAlloc (c :: calls)).run s =
      match (mapPage frameAlloc c).run s with
      | .ok _ t => (mapPages frameAlloc calls).run t
      | .error e t => .error e t := by
  show (mapPage frameAlloc c >>= fun _ => mapPages frameAlloc calls).run s = _
  rw [EStateM.run_bind]
  cases (mapPage frameAlloc c).run s <;> rfl

theorem mapPages_append (frameAlloc : Bool → Kern α U64) (calls calls' : List MapCall) :
    mapPages frameAlloc (calls ++ calls') =
      mapPages frameAlloc calls >>= fun _ => mapPages frameAlloc calls' := by
  simp only [mapPages, List.forM_eq_forM, List.forM_append]

theorem run_mapPages_append (frameAlloc : Bool → Kern α U64) (calls calls' : List MapCall)
    (s : Machine α) : (mapPages frameAlloc (calls ++ calls')).run s =
      match (mapPages frameAlloc calls).run s with
      | .ok _ t => (mapPages frameAlloc calls').run t
      | .error e t => .error e t := by
  rw [mapPages_append, EStateM.run_bind]
  cases (mapPages frameAlloc calls).run s <;> rfl

theorem lowRun_append : LowRun frameAlloc s (calls ++ calls') ↔ LowRun frameAlloc s calls ∧
    ∀ s', (mapPages frameAlloc calls).run s = .ok () s' → LowRun frameAlloc s' calls' := by
  induction calls generalizing s with
  | nil =>
    constructor
    · intro low
      refine ⟨trivial, fun s' returns => ?_⟩
      obtain ⟨-, rfl⟩ := EStateM.Result.ok.inj returns
      exact low
    · exact fun low => low.2 s rfl
  | cons c calls ih =>
    rw [List.cons_append, LowRun, LowRun, run_mapPages_cons, and_assoc]
    refine and_congr_right fun _ => ?_
    cases (mapPage frameAlloc c).run s with
    | ok u t => simp [ih]
    | error e t => simp

/-- What a sequence of calls keeps and what it changes. -/
structure MapsPages (taken : List U64) (s : Machine α) (calls : List MapCall) (taken' : List U64)
    (s' : Machine α) : Prop where
  tables : TableTree taken' s'
  kept : ∀ b ∈ taken, b ∈ taken'
  size : taken'.length ≤ taken.length + 3 * calls.length
  hhdmoff : s'.hhdmoff = s.hhdmoff
  pml4Addr : s'.pml4Addr = s.pml4Addr
  old : ∀ ⦃q table⦄, q.length ≤ 3 → tableAt s q = some table → tableAt s' q = some table
  found : ∀ c ∈ calls, ∀ ⦃q⦄, q ∈ way c.vaddr → tableAt s' q ≠ none
  ptes : ∀ q j, q.length = 3 → pteAt s' q j = pteAfter calls (q, j) (pteAt s q j)

/-- **Sequences of calls.**  The tables stay a tree, and the page-table entries change as the calls
say, unless the allocator stops. -/
theorem mapPages_cases (source : FrameSource frameAlloc) (inv : source.Inv taken s)
    (tables : TableTree taken s) (low : LowRun frameAlloc s calls) :
    (∃ taken' s', (mapPages frameAlloc calls).run s = .ok () s' ∧ source.Inv taken' s' ∧
      MapsPages taken s calls taken' s') ∨
    source.Stops (taken.length + 3 * calls.length) ((mapPages frameAlloc calls).run s) := by
  induction calls generalizing taken s with
  | nil =>
    exact Or.inl ⟨taken, s, rfl, inv, tables, fun _ h => h, le_rfl, rfl, rfl, fun _ _ _ h => h, by simp,
      fun _ _ _ => rfl⟩
  | cons c calls ih =>
    obtain ⟨here, later⟩ := low
    rw [run_mapPages_cons, List.length_cons]
    rcases mapPage_cases source inv tables here with ⟨taken₁, s₁, call, inv₁, step⟩ | stops
    · have size := step.size
      rw [call]
      rcases ih inv₁ step.tables (later s₁ call) with ⟨taken', s', run, inv', rest⟩ | stops
      · refine Or.inl ⟨taken', s', run, inv', rest.tables, fun b hb => rest.kept b (step.kept b hb),
          ?_, rest.hhdmoff.trans step.hhdmoff, rest.pml4Addr.trans step.pml4Addr,
          fun q table hq found => rest.old hq (step.old hq found), fun c' hc' q on_way => ?_,
          fun q j hq => ?_⟩
        · have := rest.size
          rw [List.length_cons]
          omega
        · rcases List.mem_cons.1 hc' with rfl | later
          · obtain ⟨table, found⟩ := Option.ne_none_iff_exists'.1 (step.found on_way)
            rw [rest.old (length_of_mem_way on_way) found]
            exact Option.some_ne_none table
          · exact rest.found c' later on_way
        · rw [rest.ptes q j hq, step.ptes q j hq]
          rfl
      · exact Or.inr (stops.mono (by omega))
    · obtain ⟨e, t, call, failed⟩ := stops.exists_error
      rw [call]
      exact Or.inr ((failed Unit).mono (by omega))

/-- The tables that two of the calls go through are there and below `2 ^ 40`. -/
def SharedLow (calls : List MapCall) (s : Machine α) : Prop :=
  ∀ ⦃c c'⦄, [c, c'].Sublist calls → ∀ ⦃q⦄, q ∈ way c.vaddr → q ∈ way c'.vaddr →
    ∃ table, tableAt s q = some table ∧ table.toNat < 2 ^ 40

/-- The later one of the two calls reuses the table. -/
theorem LowRun.sharedLow (low : LowRun frameAlloc s calls) (source : FrameSource frameAlloc)
    (inv : source.Inv taken s) (tables : TableTree taken s)
    (returns : (mapPages frameAlloc calls).run s = .ok () s') : SharedLow calls s' := by
  intro c c' both q on_way on_way'
  obtain ⟨before, rest, rfl, hc, hc'⟩ := List.cons_sublist_iff.1 both
  obtain ⟨middle, later, rfl⟩ := List.append_of_mem (List.singleton_sublist.1 hc')
  rw [← List.append_assoc] at low returns
  obtain ⟨first, second⟩ := lowRun_append.1 low
  rw [run_mapPages_append] at returns
  rcases mapPages_cases source inv tables first with ⟨taken₁, s₁, run₁, inv₁, after₁⟩ | stops
  swap
  · obtain ⟨e, t, run₁, -⟩ := stops.exists_error
    rw [run₁] at returns
    cases returns
  simp only [run₁] at returns
  have second := second s₁ run₁
  rcases mapPages_cases source inv₁ after₁.tables second with ⟨taken₂, s₂, run₂, -, after₂⟩ | stops
  · rw [returns, EStateM.Result.ok.injEq] at run₂
    obtain ⟨-, rfl⟩ := run₂
    obtain ⟨table, found⟩ := Option.ne_none_iff_exists'.1
      (after₁.found c (List.mem_append_left middle hc) on_way)
    exact ⟨table, after₂.old (length_of_mem_way on_way) found, second.1 q on_way' table found⟩
  · exact absurd returns stops.ne_ok

/-- With all frames below `2 ^ 40` no call reuses a higher table. -/
theorem lowRun_of_frames (source : FrameSource frameAlloc) (inv : source.Inv taken s)
    (tables : TableTree taken s)
    (frames : ∀ taken t, source.Inv taken t → ∀ b ∈ taken, b.toNat < 2 ^ 40) :
    LowRun frameAlloc s calls := by
  induction calls generalizing taken s with
  | nil => trivial
  | cons c calls ih =>
    have here : ReusesLow s c.vaddr := by
      intro q on_way table found
      exact frames taken s inv table (tables.owned (length_of_mem_way on_way) found)
    refine ⟨here, fun s' returns => ?_⟩
    rcases mapPage_cases source inv tables here with ⟨taken₁, s₁, call, inv₁, step⟩ | stops
    · rw [returns, EStateM.Result.ok.injEq] at call
      obtain ⟨-, rfl⟩ := call
      exact ih inv₁ step.tables
    · exact absurd returns stops.ne_ok

/-! ### The walk of the processor -/

/-- The translation that a page-table entry stands for, below tables made by `map_page`. -/
def pteTranslation (w : U64) : Option Translation :=
  if Entry.present w then
    some ⟨Entry.frame w, Entry.writable w, Entry.noExecute w, Entry.writethru w, false⟩
  else none

theorem presentEntry_eq (tables : TableTree taken s) {p : List (BitVec 9)} {table : U64}
    (short : p.length < 3) (here : tableAt s p = some table) (i : BitVec 9) :
    (tableAt s (p ++ [i]) = none ∧ presentEntry s.mem table i = none) ∨
    ∃ f, presentEntry s.mem table i = some (tableEntry f) ∧
      tableAt s (p ++ [i]) = some (Entry.target (tableEntry f)) := by
  rw [tableAt_concat, here, Option.bind_some, child]
  rcases tables.entries short here i with zero | ⟨f, entry⟩
  · left
    rw [presentEntry, zero]
    exact ⟨rfl, rfl⟩
  · right
    refine ⟨f, ?_⟩
    rw [presentEntry, entry, if_pos (present_tableEntry f)]
    exact ⟨rfl, rfl⟩

/-- The walk of an address reads its page-table entry. -/
theorem walk_eq (tables : TableTree taken s) (v : U64) :
    walk s.mem s.pml4Addr v = pteTranslation (pteAt s (path v) (index 0 v)) := by
  have nowhere (absent : tableAt s (path v) = none) :
      pteTranslation (pteAt s (path v) (index 0 v)) = none := by
    rw [pteAt_eq, absent, Option.map_none, Option.getD_none]
    rfl
  have below (p : List (BitVec 9)) (i : BitVec 9) (absent : tableAt s p = none) :
      tableAt s (p ++ [i]) = none := by
    rw [tableAt_concat, absent, Option.bind_none]
  rcases presentEntry_eq tables (p := []) (by decide) rfl (index 3 v) with
    ⟨at₁, walk₁⟩ | ⟨f₁, walk₁, at₁⟩
  · rw [nowhere (below [index 3 v, index 2 v] (index 1 v) (below [index 3 v] (index 2 v) at₁))]
    simp [walk, walk₁]
  rcases presentEntry_eq tables (p := [index 3 v]) (by simp) at₁ (index 2 v) with
    ⟨at₂, walk₂⟩ | ⟨f₂, walk₂, at₂⟩
  · rw [nowhere (below [index 3 v, index 2 v] (index 1 v) at₂)]
    simp [walk, walk₁, walk₂]
  rcases presentEntry_eq tables (p := [index 3 v, index 2 v]) (by simp) at₂ (index 1 v) with
    ⟨at₃, walk₃⟩ | ⟨f₃, walk₃, at₃⟩
  · rw [nowhere at₃]
    simp [walk, walk₁, walk₂, walk₃]
  have entry : pteAt s (path v) (index 0 v) =
      word s.mem (Entry.target (tableEntry f₃)) (index 0 v) := by
    rw [pteAt_eq, show tableAt s (path v) = _ from at₃, Option.map_some, Option.getD_some]
  rw [entry, pteTranslation]
  by_cases present : Entry.present (word s.mem (Entry.target (tableEntry f₃)) (index 0 v)) = true
  · have walk₀ : presentEntry s.mem (Entry.target (tableEntry f₃)) (index 0 v) = some _ :=
      if_pos present
    simp [walk, walk₁, walk₂, walk₃, walk₀, present, writable_tableEntry, user_tableEntry,
      noExecute_tableEntry]
  · have walk₀ : presentEntry s.mem (Entry.target (tableEntry f₃)) (index 0 v) = none :=
      if_neg present
    simp [walk, walk₁, walk₂, walk₃, walk₀, present]

/-- A zeroed PML4 has no tables below it. -/
theorem tableAt_of_zeroed (aligned : PageAligned s.pml4Addr)
    (zeroed : ∀ x, Mem.InRange s.pml4Addr 4096 x → s.mem x = 0) {q : List (BitVec 9)}
    (below : q ≠ []) : tableAt s q = none := by
  cases q with
  | nil => exact absurd rfl below
  | cons i q =>
    have empty : child s.mem s.pml4Addr i = none := child_of_zero (word_eq_zero aligned zeroed i)
    simp [tableAt, Radix.descend, empty]

/-- A zeroed PML4 is a tree of tables without page-table entries. -/
theorem tableTree_of_zeroed (aligned : PageAligned s.pml4Addr)
    (zeroed : ∀ x, Mem.InRange s.pml4Addr 4096 x → s.mem x = 0) :
    TableTree [s.pml4Addr] s ∧ ∀ q j, q.length = 3 → pteAt s q j = 0 := by
  have empty : ∀ i, child s.mem s.pml4Addr i = none := fun i =>
    child_of_zero (word_eq_zero aligned zeroed i)
  have root_only : ∀ q n, tableAt s q = some n → n = s.pml4Addr := by
    intro q n found
    by_cases below : q = []
    · subst below
      exact (Option.some_inj.1 found).symm
    · rw [tableAt_of_zeroed aligned zeroed below] at found
      cases found
  refine ⟨⟨Radix.isTree_of_empty empty 3, ?_, ?_, ?_⟩, ?_⟩
  · intro p n _ found
    rw [root_only p n found]
    exact List.mem_singleton_self _
  · intro b hb
    rw [List.mem_singleton.1 hb]
    exact aligned
  · intro p n _ found i
    rw [root_only p n found]
    exact Or.inl (word_eq_zero aligned zeroed i)
  · intro q j full
    have below : q ≠ [] := by
      rintro rfl
      cases full
    rw [pteAt_eq, tableAt_of_zeroed aligned zeroed below, Option.map_none, Option.getD_none]

/-- What a call requests for the pages it maps. -/
def MapCall.translation (c : MapCall) : Translation :=
  ⟨Entry.frame c.paddr, c.writable, c.noExecute, c.writethru, false⟩

theorem pteTranslation_pteWord (c : MapCall) (w : U64) :
    pteTranslation (pteWord c w) = some c.translation := by
  rw [pteTranslation, if_pos (present_pteWord c w), frame_pteWord, writable_pteWord,
    noExecute_pteWord, writethru_pteWord]
  rfl

/-- From a zeroed PML4, the walk of any address gives what the last call for its page requested. -/
theorem MapsPages.walk_eq (after : MapsPages taken s calls taken' s')
    (empty : ∀ q j, q.length = 3 → pteAt s q j = 0) (v : U64) :
    walk s'.mem s'.pml4Addr v = (lastCallFor calls (pageKey v)).map MapCall.translation := by
  have full : (path v).length = 3 := rfl
  rw [Bintos.walk_eq after.tables, after.ptes _ _ full, empty _ _ full]
  have last := pteAfter_eq calls (pageKey v) 0
  cases call : lastCallFor calls (pageKey v) with
  | none =>
    rw [call] at last
    rw [show pteAfter calls (path v, index 0 v) 0 = 0 from last]
    rfl
  | some c =>
    rw [call] at last
    obtain ⟨w, entry⟩ := last
    rw [show pteAfter calls (path v, index 0 v) 0 = pteWord c w from entry]
    exact pteTranslation_pteWord c w

end Run

end Refine

end Bintos
