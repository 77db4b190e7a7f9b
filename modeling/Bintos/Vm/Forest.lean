import Mathlib.Data.Finset.Card
import Bintos.Vm.LastCall
import Bintos.Vm.Record

/-!
# The tables as a tree of allocated frames

After calls of `mapPage` from a zeroed PML4 the tables below it are the frames that the allocator
returned, each in one place, and there are as many of them as the addresses have different
prefixes (`mapPages_exactTree`), as long as no call reuses a table at or above `2 ^ 40`.  Such a reuse can
leave a frame that was never allocated in an entry above the last level (`highTable_not_exactTree`).
-/

namespace Bintos

section Forest

variable {α : Type} {s s' : Machine α} {made taken' : List U64} {W : Finset (List (BitVec 9))}
  {calls : List MapCall} {c : MapCall}

/-- The tables `k` levels below the PML4. -/
def tablesAt (s : Machine α) (k : ℕ) : Set U64 := {t | ∃ p, p.length = k ∧ tableAt s p = some t}

/-- The number of different PML4 indices, of different pairs of a PML4 and a PDPT index, and of different
triples of a PML4, a PDPT and a PD index. -/
def tablesNeeded (calls : List MapCall) : ℕ :=
  (calls.toFinset.image fun c => pml4Index c.vaddr).card +
  (calls.toFinset.image fun c => (pml4Index c.vaddr, pdptIndex c.vaddr)).card +
  (calls.toFinset.image fun c => (pml4Index c.vaddr, pdptIndex c.vaddr, pdIndex c.vaddr)).card

/-- The tables are a tree of the frames in `answers`, and all of these are tables that the calls need. -/
structure ExactTree (calls : List MapCall) (answers : List U64) (s : Machine α) : Prop where
  /-- one present entry, of one table of the level above, points to the table -/
  parent : ∀ k < 3, ∀ t ∈ tablesAt s (k + 1), ∃ table ∈ tablesAt s k, ∃ i,
    child s.mem table i = some t ∧ ∀ l < 3, ∀ table' ∈ tablesAt s l, ∀ j,
      child s.mem table' j = some t → table' = table ∧ j = i
  levels : ∀ k ≤ 3, ∀ l ≤ 3, ∀ t ∈ tablesAt s k, t ∈ tablesAt s l → k = l
  /-- the present entries above the last level point to allocated frames -/
  obtained : ∀ k < 3, ∀ table ∈ tablesAt s k, ∀ i t, child s.mem table i = some t → t ∈ answers
  used : ∀ t ∈ answers, ∃ k < 3, t ∈ tablesAt s (k + 1)
  count : answers.length = tablesNeeded calls

/-! ### The paths of the tables -/

/-- The paths of the tables below the PML4 that calls go through. -/
def ways (calls : List MapCall) : Finset (List (BitVec 9)) :=
  (calls.flatMap fun c => way c.vaddr).toFinset

theorem nodup_way (v : U64) : (way v).Nodup := by simp [way]

theorem ne_nil_of_mem_way {v : U64} {q : List (BitVec 9)} (on_way : q ∈ way v) : q ≠ [] := by
  rintro rfl
  simp [way] at on_way

theorem ways_cons (c : MapCall) (calls : List MapCall) :
    ways (c :: calls) = ways calls ∪ (way c.vaddr).toFinset := by
  ext q
  simp [ways, or_comm]

theorem card_image_pair {γ δ ε : Type} [DecidableEq δ] [DecidableEq ε] (S : Finset γ)
    {f : γ → δ} {g : γ → ε} (same : ∀ a b, f a = f b → g a = g b) :
    (S.image fun a => (f a, g a)).card = (S.image f).card := by
  have first : (S.image fun a => (f a, g a)).image Prod.fst = S.image f := by
    rw [Finset.image_image]
    rfl
  rw [← first]
  apply (Finset.card_image_of_injOn _).symm
  intro x hx y hy eq
  obtain ⟨a, -, rfl⟩ := Finset.mem_image.1 hx
  obtain ⟨b, -, rfl⟩ := Finset.mem_image.1 hy
  exact Prod.ext eq (same a b eq)

/-- Images have as many elements when they tell the same elements apart. -/
theorem card_image_eq_of_iff {γ δ ε : Type} [DecidableEq δ] [DecidableEq ε] (S : Finset γ)
    {f : γ → δ} {g : γ → ε} (same : ∀ a b, f a = f b ↔ g a = g b) :
    (S.image f).card = (S.image g).card := by
  have swap : (S.image fun a => (g a, f a)).card = (S.image fun a => (f a, g a)).card := by
    rw [← Finset.card_image_of_injective _ Prod.swap_injective, Finset.image_image]
    rfl
  rw [← card_image_pair S fun a b => (same a b).1, ← swap,
    card_image_pair S fun a b => (same a b).2]

theorem setWidth_index_inj {i j : BitVec 9} :
    i.setWidth 64 = (j.setWidth 64 : U64) ↔ i = j := by
  constructor
  · intro same
    have narrow := congrArg (BitVec.setWidth 9) same
    simpa using narrow
  · rintro rfl
    rfl

/-- The paths are counted by the indices of the source. -/
theorem card_ways (calls : List MapCall) : (ways calls).card = tablesNeeded calls := by
  have split : ways calls = ((calls.toFinset.image fun c => [index 3 c.vaddr]) ∪
      calls.toFinset.image fun c => [index 3 c.vaddr, index 2 c.vaddr]) ∪
      calls.toFinset.image fun c => [index 3 c.vaddr, index 2 c.vaddr, index 1 c.vaddr] := by
    ext q
    simp only [ways, way, List.mem_toFinset, List.mem_flatMap, List.mem_cons, List.not_mem_nil,
      or_false, Finset.mem_union, Finset.mem_image]
    constructor
    · rintro ⟨c, hc, rfl | rfl | rfl⟩
      · exact Or.inl (Or.inl ⟨c, hc, rfl⟩)
      · exact Or.inl (Or.inr ⟨c, hc, rfl⟩)
      · exact Or.inr ⟨c, hc, rfl⟩
    · rintro ((⟨c, hc, rfl⟩ | ⟨c, hc, rfl⟩) | ⟨c, hc, rfl⟩)
      · exact ⟨c, hc, Or.inl rfl⟩
      · exact ⟨c, hc, Or.inr (Or.inl rfl)⟩
      · exact ⟨c, hc, Or.inr (Or.inr rfl)⟩
  rw [split, Finset.card_union_of_disjoint, Finset.card_union_of_disjoint, tablesNeeded]
  · simp only [pml4Index_eq, pdptIndex_eq, pdIndex_eq]
    congr 1
    · congr 1
      · apply card_image_eq_of_iff
        intro a b
        rw [setWidth_index_inj, List.singleton_inj]
      · apply card_image_eq_of_iff
        intro a b
        rw [Prod.mk.injEq, setWidth_index_inj, setWidth_index_inj]
        simp
    · apply card_image_eq_of_iff
      intro a b
      rw [Prod.mk.injEq, Prod.mk.injEq, setWidth_index_inj, setWidth_index_inj,
        setWidth_index_inj]
      simp
  · simp [Finset.disjoint_left]
  · rw [Finset.disjoint_union_left]
    simp [Finset.disjoint_left]

/-! ### Counting the tables along a run -/

/-- The tables below the PML4 are at the paths in `W`, and they are the frames of `made`. -/
structure Built (W : Finset (List (BitVec 9))) (made : List U64) (s : Machine α) : Prop where
  tables : TableTree (made ++ [s.pml4Addr]) s
  there_iff : ∀ ⦃q⦄, q.length ≤ 3 → (tableAt s q ≠ none ↔ q = [] ∨ q ∈ W)
  used : ∀ b ∈ made, ∃ q ∈ W, q.length ≤ 3 ∧ tableAt s q = some b
  size : made.length = W.card

theorem built_of_zeroed (aligned : PageAligned s.pml4Addr)
    (zeroed : ∀ x, Mem.InRange s.pml4Addr 4096 x → s.mem x = 0) : Built ∅ [] s where
  tables := (tableTree_of_zeroed aligned zeroed).1
  there_iff q _ := by
    by_cases below : q = []
    · simp [below, tableAt]
    · simp [below, tableAt_of_zeroed aligned zeroed below]
  used := by simp
  size := rfl

/-- The tables that a call makes. -/
def madeBy (s : Machine α) (c : MapCall) (s' : Machine α) : List U64 :=
  ((way c.vaddr).filter (tableAt s · = none)).reverse.filterMap (tableAt s')

theorem mem_madeBy {b : U64} (hb : b ∈ madeBy s c s') :
    ∃ q ∈ way c.vaddr, tableAt s' q = some b := by
  obtain ⟨q, hq, found⟩ := List.mem_filterMap.1 hb
  exact ⟨q, (List.mem_filter.1 (List.mem_reverse.1 hq)).1, found⟩

/-- A call makes as many tables as its way adds to the paths. -/
theorem Built.length_madeBy (built : Built W made s)
    (step : MapsPage (made ++ [s.pml4Addr]) s c taken' s') :
    (madeBy s c s').length = ((way c.vaddr).toFinset \ W).card := by
  have missing : (way c.vaddr).filter (tableAt s · = none) = (way c.vaddr).filter (· ∉ W) := by
    apply List.filter_congr
    intro q on_way
    have there := built.there_iff (length_of_mem_way on_way)
    rw [or_iff_right (ne_nil_of_mem_way on_way)] at there
    rw [decide_eq_decide, ← there, not_not]
  have new : (way c.vaddr).toFinset \ W = ((way c.vaddr).filter (· ∉ W)).toFinset := by
    ext q
    simp
  rw [madeBy, missing, new, List.toFinset_card_of_nodup ((nodup_way c.vaddr).filter _),
    List.length_filterMap_eq_countP, ← List.length_reverse, List.countP_eq_length]
  intro q hq
  apply Option.isSome_iff_ne_none.2
  exact step.found (List.mem_filter.1 (List.mem_reverse.1 hq)).1

/-- **One call.** -/
theorem Built.step (built : Built W made s)
    (step : MapsPage (made ++ [s.pml4Addr]) s c taken' s') :
    taken' = madeBy s c s' ++ made ++ [s'.pml4Addr] ∧
      Built (W ∪ (way c.vaddr).toFinset) (madeBy s c s' ++ made) s' := by
  have grown : taken' = madeBy s c s' ++ made ++ [s'.pml4Addr] := by
    rw [step.grown, step.pml4Addr, List.append_assoc]
    rfl
  refine ⟨grown, grown ▸ step.tables, fun q short => ?_, fun b hb => ?_, ?_⟩
  · rw [Finset.mem_union, List.mem_toFinset, ← or_assoc, ← built.there_iff short]
    constructor
    · intro there
      obtain ⟨table, found⟩ := Option.ne_none_iff_exists'.1 there
      rcases step.new short found with before | ⟨-, on_way⟩
      · exact Or.inl (by rw [before]; exact Option.some_ne_none table)
      · exact Or.inr on_way
    · rintro (there | on_way)
      · obtain ⟨table, found⟩ := Option.ne_none_iff_exists'.1 there
        rw [step.old short found]
        exact Option.some_ne_none table
      · exact step.found on_way
  · rcases List.mem_append.1 hb with new | before
    · obtain ⟨q, on_way, found⟩ := mem_madeBy new
      exact ⟨q, Finset.mem_union_right W (List.mem_toFinset.2 on_way), length_of_mem_way on_way,
        found⟩
    · obtain ⟨q, hq, short, found⟩ := built.used b before
      exact ⟨q, Finset.mem_union_left _ hq, short, step.old short found⟩
  · rw [List.length_append, built.length_madeBy step, built.size, Finset.card_sdiff_add_card,
      Finset.union_comm]

variable {frameAlloc : Bool → Kern α U64}

/-- **Sequences of calls.** -/
theorem Built.run (source : FrameSource frameAlloc) (inv : source.Inv (made ++ [s.pml4Addr]) s)
    (built : Built W made s) (low : LowRun frameAlloc s calls)
    (returns : (mapPages frameAlloc calls).run s = .ok () s') :
    ∃ made', source.Inv (made' ++ [s'.pml4Addr]) s' ∧ Built (W ∪ ways calls) made' s' := by
  induction calls generalizing W made s with
  | nil =>
    obtain ⟨-, rfl⟩ := EStateM.Result.ok.inj returns
    refine ⟨made, inv, ?_⟩
    rw [show ways [] = ∅ from rfl, Finset.union_empty]
    exact built
  | cons c calls ih =>
    rw [run_mapPages_cons] at returns
    rcases mapPage_cases source inv built.tables low.1 with ⟨taken₁, s₁, call, inv₁, step⟩ | stops
    · rw [call] at returns
      rw [ways_cons, Finset.union_comm (ways calls), ← Finset.union_assoc]
      obtain ⟨grown, next⟩ := built.step step
      exact ih (grown ▸ inv₁) next (low.2 s₁ call) returns
    · obtain ⟨e, t, call, -⟩ := stops.exists_error
      rw [call] at returns
      cases returns

/-! ### The tree -/

/-- A built tree is the exact tree of its frames. -/
theorem Built.exactTree (built : Built (ways calls) made s) : ExactTree calls made s := by
  have tree := built.tables.tree
  have short_path {q : List (BitVec 9)} (needed : q ∈ ways calls) : q ≠ [] := by
    obtain ⟨c, -, on_way⟩ := List.mem_flatMap.1 (List.mem_toFinset.1 needed)
    exact ne_nil_of_mem_way on_way
  refine ⟨?_, ?_, ?_, ?_, built.size.trans (card_ways calls)⟩
  · rintro k hk t ⟨q, length, found⟩
    obtain ⟨p, i, rfl⟩ : ∃ p i, q = p ++ [i] := by
      apply (List.eq_nil_or_concat' q).resolve_left
      rintro rfl
      cases length
    have above : p.length = k := by simpa using length
    obtain ⟨table, at_p, next⟩ := Radix.exists_parent found
    refine ⟨table, ⟨p, above, at_p⟩, i, next, ?_⟩
    rintro l hl table' ⟨q, rfl, at_q⟩ j next'
    exact tree.parent_unique (above ▸ hk) hl at_p at_q next next'
  · rintro k hk l hl t ⟨p, rfl, at_p⟩ ⟨q, rfl, at_q⟩
    rw [tree hk hl at_p at_q]
  · rintro k hk table ⟨p, rfl, at_p⟩ i t next
    have found : tableAt s (p ++ [i]) = some t := by
      rw [tableAt_concat, at_p, Option.bind_some, next]
    have short : (p ++ [i]).length ≤ 3 := by
      rw [List.length_append, List.length_singleton]
      exact hk
    rcases List.mem_append.1 (built.tables.owned short found) with there | root
    · exact there
    · have at_root : tableAt s [] = some t := by
        rw [List.mem_singleton.1 root]
        rfl
      exact absurd (tree short (by decide) found at_root) (by simp)
  · intro t ht
    obtain ⟨q, needed, short, found⟩ := built.used t ht
    have below := List.length_pos_iff.2 (short_path needed)
    exact ⟨q.length - 1, by omega, q, by omega, found⟩

/-- **The tables are a tree of the allocated frames.**  As long as no call reuses a table at or above
`2 ^ 40`, the calls return and their tables are a tree without leaks, unless the allocator stops. -/
theorem mapPages_exactTree {source : FrameSource frameAlloc} (start : ZeroedPml4 source s)
    (low : LowRun frameAlloc s calls) :
    (∃ s' answers, (mapPages frameAlloc calls).run s = .ok () s' ∧
      (mapPages (recorded frameAlloc) calls).run (s.recording []) = .ok () (s'.recording answers) ∧
      ExactTree calls answers s') ∨
    source.Stops (1 + 3 * calls.length) ((mapPages frameAlloc calls).run s) := by
  rcases start.mapPages_cases low with ⟨_, s', returns, -, maps, -⟩ | stops
  swap
  · exact Or.inr stops
  have forgets := Forgets.mapPages (forgets_recorded frameAlloc) calls
  obtain ⟨answers, run⟩ := forgets.exists_record returns []
  have low' : LowRun (recorded frameAlloc) (s.recording []) calls :=
    Forgets.lowRun (forgets_recorded frameAlloc) low
  have built : Built ∅ [] (s.recording []) := built_of_zeroed start.aligned start.zeroed
  obtain ⟨made, ⟨-, record⟩, after⟩ :=
    built.run (source.recorded [s.pml4Addr]) ⟨start.inv, rfl⟩ low' run
  rw [Finset.empty_union] at after
  have root : (s'.recording answers).pml4Addr = s.pml4Addr := maps.pml4Addr
  rw [root, List.append_left_inj] at record
  have tree := after.exactTree
  rw [record] at tree
  exact Or.inl ⟨s', answers, returns, run, tree.parent, tree.levels, tree.obtained, tree.used,
    tree.count⟩

/-- The four calls need six tables, three of them for three calls. -/
theorem sharingCalls_exactTree : ∃ s' answers,
    (mapPages popFrame sharingCalls).run thirteenFrames = .ok () s' ∧
      (mapPages (recorded popFrame) sharingCalls).run (thirteenFrames.recording []) =
        .ok () (s'.recording answers) ∧
      ExactTree sharingCalls answers s' :=
  (mapPages_exactTree zeroedPml4_thirteenFrames (lowRun_thirteenFrames _)).resolve_right
    (popSource_supplies (by decide)).not_stops

/-- The answers to the first call are frames of the pool. -/
theorem answers_highFirst {s : Machine (List U64)} {answers : List U64}
    (run : (mapPage (recorded popFrame) highFirst).run ((poolStart highFrames).recording []) =
      .ok () (s.recording answers)) : ∀ a ∈ answers, a ∈ highFrames := by
  have start := zeroedPml4_highFrames
  have low : LowRun (recorded popFrame) ((poolStart highFrames).recording []) [highFirst] :=
    Forgets.lowRun (forgets_recorded popFrame) ⟨reusesLow_highFirst, fun _ _ => trivial⟩
  have returns : (mapPages (recorded popFrame) [highFirst]).run
      ((poolStart highFrames).recording []) = .ok () (s.recording answers) := by
    rw [run_mapPages_cons, run]
    rfl
  have built : Built ∅ [] ((poolStart highFrames).recording []) :=
    built_of_zeroed start.aligned start.zeroed
  obtain ⟨made, ⟨supply, record⟩, -⟩ := built.run
    ((popSource (0x1000 :: highFrames)).recorded [0x1000]) ⟨start.inv, rfl⟩ low returns
  have supply : Supply (0x1000 :: highFrames) _ s := supply
  have order := supply.order
  rw [record, Machine.answers_recording, List.reverse_append, List.reverse_singleton,
    List.singleton_append, List.cons_append, List.cons.injEq] at order
  intro a ha
  rw [← order.2]
  exact List.mem_append_left _ (List.mem_reverse.2 ha)

/-- The second call leaves the frame `0x8000` in an entry of the PML4. -/
theorem highTable_not_exactTree : ∃ s' answers,
    (mapPages popFrame [highFirst, highSecond]).run (poolStart highFrames) = .ok () s' ∧
      (mapPages (recorded popFrame) [highFirst, highSecond]).run
        ((poolStart highFrames).recording []) = .ok () (s'.recording answers) ∧
      ¬ ExactTree [highFirst, highSecond] answers s' := by
  obtain ⟨s, first, root, tables, at₁, -, -, -⟩ := highFirst_spec
  have forgets := Forgets.mapPage (forgets_recorded popFrame)
  obtain ⟨answers, first'⟩ := (forgets highFirst).exists_record first []
  obtain ⟨present, back⟩ := highEntry_back tables root at₁
  obtain ⟨t, second', root', pool, stored⟩ :=
    run_highSecond (recorded popFrame) (s := s.recording answers) present back
  have second := forgets highSecond (s.recording answers)
  rw [second', Machine.plain_recording] at second
  have same : t.answers = answers := congrArg Prod.snd pool
  refine ⟨t.plain, answers, ?_, ?_, fun tree => ?_⟩
  · rw [run_mapPages_cons, first]
    show (mapPages popFrame [highSecond]).run s = _
    rw [run_mapPages_cons, second]
    rfl
  · rw [run_mapPages_cons, first']
    show (mapPages (recorded popFrame) [highSecond]).run (s.recording answers) = _
    rw [run_mapPages_cons, second', ← same, Machine.recording_plain]
    rfl
  · have held : word t.mem t.pml4Addr 5#9 = pteWord highSecond (word s.mem s.pml4Addr 5#9) := by
      rw [stored, root']
      exact Mem.readWord_writeWord ..
    have entry : child t.mem t.pml4Addr 5#9 = some 0x8000 := by
      rw [child, presentEntry, held, if_pos (present_pteWord _ _), Option.map_some, Entry.target,
        frame_pteWord]
      rfl
    have pooled := answers_highFirst first' 0x8000
      (tree.obtained 0 (by decide) t.pml4Addr ⟨[], rfl, rfl⟩ 5#9 0x8000 entry)
    exact absurd pooled (by decide)

end Forest

end Bintos
