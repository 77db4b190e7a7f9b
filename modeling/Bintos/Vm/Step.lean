import Bintos.Vm.Frames

/-!
# One call of `mapPage` on a tree of tables

`TableTree` is the invariant of the page tables: down to the page tables they are a tree of frames that
are in use, and every entry above the last level is empty or points to its table.  From such a state
each level of a call either finds its table or hangs a new one in (`nextTable_cases`), and the call as a
whole changes one page-table entry (`mapPage_cases`).
-/

namespace Bintos

section Step

variable {α F : Type} [DecidableEq F] [Packed F]

/-! ### Runs of the member accesses -/

theorem run_loadField (entry : U64) (f : F) (s : Machine α) :
    (loadField entry f).run s =
      .ok (Packed.get f (s.mem.readWord (s.v2p entry))) (s.touch ⟨.table, entry, 8⟩) := by
  simp [loadField]

/-- The machine after assignments to members of one entry. -/
def storeFields (entry : U64) (l : List (F × U64)) (s : Machine α) : Machine α :=
  { s with
    mem := s.mem.writeWord (s.v2p entry) (assign l (s.mem.readWord (s.v2p entry)))
    trace := List.replicate (2 * l.length) ⟨.table, entry, 8⟩ ++ s.trace }

theorem run_storeFields (entry : U64) (l : List (F × U64)) (s : Machine α) :
    (l.forM fun a => storeField entry a.1 a.2).run s = .ok () (storeFields entry l s) := by
  induction l generalizing s with
  | nil =>
    show EStateM.Result.ok () s = _
    rw [storeFields, assign, List.foldl_nil, Mem.writeWord_readWord]
    rfl
  | cons a l ih =>
    have first : (storeField entry a.1 a.2).run s = .ok () (storeFields entry [a] s) := by
      simp [storeField, storeFields, assign, Machine.touch, Machine.v2p, List.replicate]
    show ((storeField entry a.1 a.2 >>= fun _ =>
      l.forM fun a => storeField entry a.1 a.2).run s) = _
    rw [EStateM.run_bind, first]
    show ((l.forM fun a => storeField entry a.1 a.2).run (storeFields entry [a] s)) = _
    rw [ih]
    simp [storeFields, assign, Machine.v2p, Mem.writeWord_writeWord, Nat.mul_add,
      List.replicate_add]

theorem run_nextTable (frameAlloc : Bool → Kern α U64) (present ptr : F)
    (link : U64 → List (F × U64)) (entry : U64) (s : Machine α) :
    (nextTable frameAlloc present ptr link entry).run s =
      if Packed.get present (s.mem.readWord (s.v2p entry)) = 0 then
        match (frameAlloc true).run (s.touch ⟨.table, entry, 8⟩) with
        | .ok a t => .ok (a + t.hhdmoff) (storeFields entry (link (a >>> 12)) t)
        | .error e t => .error e t
      else .ok ((((Packed.get ptr (s.mem.readWord (s.v2p entry))).setWidth 40 <<< 12).setWidth 64) +
        s.hhdmoff) ((s.touch ⟨.table, entry, 8⟩).touch ⟨.table, entry, 8⟩) := by
  simp only [nextTable, EStateM.run_bind, run_loadField]
  split_ifs with absent
  · simp only [EStateM.run_bind]
    cases (frameAlloc true).run (s.touch ⟨.table, entry, 8⟩) with
    | error e t => rfl
    | ok a t =>
      simp only [run_storeFields, EStateM.run_get]
      rfl
  · simp only [EStateM.run_bind, run_loadField, EStateM.run_get]
    rfl

end Step

/-! ### The tree of tables -/

section Tree

variable {α : Type} {taken taken' : List U64} {s s' : Machine α} {table : U64}
  {p q : List (BitVec 9)} {i j : BitVec 9}

/-- The table at the end of a path from the PML4. -/
def tableAt (s : Machine α) (p : List (BitVec 9)) : Option U64 :=
  Radix.descend (child s.mem) s.pml4Addr p

/-- The page-table entry at the end of a path. -/
def pteAt (s : Machine α) (p : List (BitVec 9)) (i : BitVec 9) : U64 := leafAt s.mem s.pml4Addr p i

theorem pteAt_eq (s : Machine α) (p : List (BitVec 9)) (i : BitVec 9) :
    pteAt s p i = ((tableAt s p).map (word s.mem · i)).getD 0 := rfl

/-- The tables of `s` are a tree of frames in `taken`, and their entries above the last level are
empty or point to tables. -/
structure TableTree (taken : List U64) (s : Machine α) : Prop where
  tree : Radix.IsTree (child s.mem) s.pml4Addr 3
  owned : ∀ ⦃p table⦄, p.length ≤ 3 → tableAt s p = some table → table ∈ taken
  aligned : ∀ b ∈ taken, PageAligned b
  entries : ∀ ⦃p table⦄, p.length < 3 → tableAt s p = some table → ∀ i,
    word s.mem table i = 0 ∨ ∃ f, word s.mem table i = tableEntry f

/-- What a level of a call does: the table for index `i` of the table at `p` is `next`, the other
tables are where they were, and so are all page-table entries. -/
structure Linked (taken : List U64) (s : Machine α) (p : List (BitVec 9)) (i : BitVec 9) (next : U64)
    (taken' : List U64) (s' : Machine α) : Prop where
  tables : TableTree taken' s'
  grown : taken' = if tableAt s (p ++ [i]) = none then next :: taken else taken
  hhdmoff : s'.hhdmoff = s.hhdmoff
  pml4Addr : s'.pml4Addr = s.pml4Addr
  tableAt_iff : ∀ ⦃q table⦄, q.length ≤ 3 →
    (tableAt s' q = some table ↔ tableAt s q = some table ∨ (q = p ++ [i] ∧ table = next))
  ptes : ∀ q j, q.length = 3 → pteAt s' q j = pteAt s q j

theorem tableAt_concat (s : Machine α) (p : List (BitVec 9)) (i : BitVec 9) :
    tableAt s (p ++ [i]) = (tableAt s p).bind fun table => child s.mem table i :=
  Radix.descend_concat ..

/-- An absent entry above the last level is zero. -/
theorem TableTree.word_eq_zero (tables : TableTree taken s) (short : p.length < 3)
    (here : tableAt s p = some table) (absent : Entry.present (word s.mem table i) = false) :
    word s.mem table i = 0 := by
  rcases tables.entries short here i with zero | ⟨f, entry⟩
  · exact zero
  · rw [entry, present_tableEntry] at absent
    cases absent

/-- The same table is not at the end of another path. -/
theorem TableTree.ne_of_path_ne (tables : TableTree taken s) {table' : U64} (hp : p.length ≤ 3)
    (hq : q.length ≤ 3) (here : tableAt s p = some table) (there : tableAt s q = some table')
    (other : p ≠ q) : table' ≠ table := by
  rintro rfl
  exact other (tables.tree hp hq here there)

/-- A change that no entry on the way sees keeps the tables in their places. -/
theorem TableTree.congr (tables : TableTree taken s) (root : s'.pml4Addr = s.pml4Addr)
    (same : ∀ ⦃q table⦄, q.length < 3 → tableAt s q = some table → ∀ j,
      word s'.mem table j = word s.mem table j) :
    TableTree taken s' ∧ ∀ q, q.length ≤ 3 → tableAt s' q = tableAt s q := by
  have kept : ∀ q n j, q.length < 3 → Radix.descend (child s.mem) s.pml4Addr q = some n →
      child s'.mem n j = child s.mem n j := fun q n j short at_q =>
    child_congr (same short at_q j)
  have places : ∀ q, q.length ≤ 3 → tableAt s' q = tableAt s q := by
    intro q short
    rw [tableAt, root]
    exact Radix.descend_congr kept short
  refine ⟨⟨?_, ?_, tables.aligned, ?_⟩, places⟩
  · rw [root]
    exact tables.tree.congr kept
  · intro q table short at_q
    exact tables.owned short (places q short ▸ at_q)
  · intro q table short at_q j
    rw [places q short.le] at at_q
    rw [same short at_q j]
    exact tables.entries short at_q j

/-- A page-table entry whose table was there is as before, and those of a new table are zero. -/
theorem pteAt_of_places {r : List (BitVec 9)} {a : U64}
    (places : ∀ n, tableAt s' q = some n ↔ tableAt s q = some n ∨ (q = r ∧ n = a))
    (kept : ∀ n, tableAt s q = some n → word s'.mem n j = word s.mem n j)
    (new : word s'.mem a j = 0) : pteAt s' q j = pteAt s q j := by
  rw [pteAt_eq, pteAt_eq]
  cases before : tableAt s q with
  | some n =>
    rw [(places n).2 (Or.inl before), Option.map_some, Option.map_some, kept n before]
  | none =>
    cases after : tableAt s' q with
    | none => rw [Option.map_none, Option.map_none, Option.getD_none]
    | some n =>
      rcases (places n).1 after with found | ⟨-, rfl⟩
      · rw [before] at found
        cases found
      · rw [Option.map_some, Option.map_none, Option.getD_some, Option.getD_none]
        exact new

section Link

variable {a : U64}

/-- An entry of a table that is not the one written to. -/
theorem TableTree.word_of_ne (tables : TableTree taken s) (short : p.length < 3)
    (here : tableAt s p = some table) {w : U64}
    (old : ∀ b ∈ taken, ∀ j, word s'.mem b j = if b = table ∧ j = i then w else word s.mem b j)
    {n : U64} (hq : q.length ≤ 3) (at_q : tableAt s q = some n) (other : q ++ [j] ≠ p ++ [i]) :
    word s'.mem n j = word s.mem n j := by
  rw [old n (tables.owned hq at_q), if_neg]
  rintro ⟨rfl, rfl⟩
  exact other (by rw [tables.tree hq short.le at_q here])

/-- In terms of trees, a new zeroed table hung in at an empty entry. -/
theorem TableTree.attach (tables : TableTree taken s) (short : p.length < 3)
    (here : tableAt s p = some table) (zero : word s.mem table i = 0)
    (aligned : PageAligned a) (low : a.toNat < 2 ^ 52) (fresh : a ∉ taken)
    (old : ∀ b ∈ taken, ∀ j, word s'.mem b j =
      if b = table ∧ j = i then tableEntry ((a >>> 12).setWidth 40) else word s.mem b j)
    (new : ∀ j, word s'.mem a j = 0) :
    Radix.Attach (child s.mem) (child s'.mem) s.pml4Addr 3 p i a where
  short := short
  vacant := by
    show (tableAt s p).bind _ = _
    rw [here, Option.bind_some, child_of_zero zero]
  placed := by
    have entry : word s'.mem table i = tableEntry ((a >>> 12).setWidth 40) := by
      rw [old table (tables.owned short.le here), if_pos ⟨rfl, rfl⟩]
    show (tableAt s p).bind _ = _
    rw [here, Option.bind_some, child, presentEntry, entry, present_tableEntry, if_pos rfl,
      Option.map_some, target_tableEntry aligned low]
  kept q n j hq at_q other := child_congr (tables.word_of_ne short here old hq.le at_q other)
  empty j := child_of_zero (new j)
  fresh q hq at_q := fresh (tables.owned hq at_q)

/-- A new zeroed table hung in at an empty entry. -/
theorem TableTree.link (tables : TableTree taken s) (short : p.length < 3)
    (here : tableAt s p = some table) (zero : word s.mem table i = 0)
    (aligned : PageAligned a) (low : a.toNat < 2 ^ 52) (fresh : a ∉ taken)
    (root : s'.pml4Addr = s.pml4Addr) (offset : s'.hhdmoff = s.hhdmoff)
    (old : ∀ b ∈ taken, ∀ j, word s'.mem b j =
      if b = table ∧ j = i then tableEntry ((a >>> 12).setWidth 40) else word s.mem b j)
    (new : ∀ j, word s'.mem a j = 0) :
    Linked taken s p i a (a :: taken) s' := by
  have attach := tables.attach short here zero aligned low fresh old new
  have vacant : tableAt s (p ++ [i]) = none := by
    rw [tableAt_concat, here, Option.bind_some, child_of_zero zero]
  have places : ∀ ⦃q n⦄, q.length ≤ 3 →
      (tableAt s' q = some n ↔ tableAt s q = some n ∨ (q = p ++ [i] ∧ n = a)) := by
    intro q n hq
    rw [tableAt, root]
    exact attach.descend_iff hq
  refine ⟨⟨?_, ?_, ?_, ?_⟩, by rw [if_pos vacant], offset, root, places, ?_⟩
  · rw [root]
    exact attach.isTree tables.tree
  · intro q n hq at_q
    rcases (places hq).1 at_q with before | ⟨-, rfl⟩
    · exact List.mem_cons_of_mem a (tables.owned hq before)
    · exact List.mem_cons_self
  · intro b hb
    rcases List.mem_cons.1 hb with rfl | before
    · exact aligned
    · exact tables.aligned b before
  · intro q n hq at_q j
    rcases (places hq.le).1 at_q with before | ⟨-, rfl⟩
    · rw [old n (tables.owned hq.le before)]
      split_ifs
      · exact Or.inr ⟨_, rfl⟩
      · exact tables.entries hq before j
    · exact Or.inl (new j)
  · intro q j hq
    have other : q ++ [j] ≠ p ++ [i] := by
      intro same
      have := congrArg List.length same
      simp only [List.length_append, List.length_singleton] at this
      omega
    exact pteAt_of_places (fun _ => places hq.le)
      (fun n at_q => tables.word_of_ne short here old hq.le at_q other) (new j)

end Link

/-- The 40-bit shift of a pointer is the address modulo `2 ^ 40`. -/
theorem toNat_shift_frame (w : U64) :
    ((Entry.frame w <<< 12).setWidth 64).toNat = (Entry.target w).toNat % 2 ^ 40 := by
  have frame := (Entry.frame w).isLt
  have full : (Entry.target w).toNat = (Entry.frame w).toNat * 2 ^ 12 := by
    rw [Entry.target, BitVec.toNat_shiftLeft, BitVec.toNat_setWidth, Nat.shiftLeft_eq]
    omega
  rw [full, BitVec.toNat_setWidth, BitVec.toNat_shiftLeft, Nat.shiftLeft_eq]
  omega

theorem shift_frame_eq_target {w : U64} (low : (Entry.target w).toNat < 2 ^ 40) :
    (Entry.frame w <<< 12).setWidth 64 = Entry.target w := by
  apply BitVec.eq_of_toNat_eq
  rw [toNat_shift_frame, Nat.mod_eq_of_lt low]

/-- A level of a call whose entry is present. -/
theorem run_nextTable_present {F : Type} [DecidableEq F] [Packed F] {present ptr : F}
    {link : U64 → List (F × U64)} (links : Links present ptr link)
    (frameAlloc : Bool → Kern α U64) {entry : U64}
    (address : entry = table + s.hhdmoff + 8 * i.setWidth 64)
    (here : Entry.present (word s.mem table i) = true) :
    (nextTable frameAlloc present ptr link entry).run s =
      .ok ((Entry.frame (word s.mem table i) <<< 12).setWidth 64 + s.hhdmoff)
        ((s.touch ⟨.table, entry, 8⟩).touch ⟨.table, entry, 8⟩) := by
  have place : s.v2p entry = entryAddr table i := address ▸ v2p_entry s table i
  have held : ¬ Packed.get present (word s.mem table i) = 0 := by
    intro zero
    rw [(links.present_iff _).1 zero] at here
    cases here
  rw [run_nextTable, place, ← links.frame]
  exact if_neg held

/-- A level of a call whose entry is absent. -/
theorem run_nextTable_absent {F : Type} [DecidableEq F] [Packed F] {present ptr : F}
    {link : U64 → List (F × U64)} (links : Links present ptr link)
    (frameAlloc : Bool → Kern α U64) {entry : U64}
    (address : entry = table + s.hhdmoff + 8 * i.setWidth 64)
    (absent : Entry.present (word s.mem table i) = false) :
    (nextTable frameAlloc present ptr link entry).run s =
      match (frameAlloc true).run (s.touch ⟨.table, entry, 8⟩) with
      | .ok a t => .ok (a + t.hhdmoff) (storeFields entry (link (a >>> 12)) t)
      | .error e t => .error e t := by
  have place : s.v2p entry = entryAddr table i := address ▸ v2p_entry s table i
  have vacant : Packed.get present (s.mem.readWord (s.v2p entry)) = 0 :=
    (links.present_iff _).2 (place ▸ absent)
  rw [run_nextTable, if_pos vacant]

theorem TableTree.touch (tables : TableTree taken s) (a : Access) : TableTree taken (s.touch a) :=
  ⟨tables.tree, tables.owned, tables.aligned, tables.entries⟩

/-- **One level of a call.**  It finds the table or hangs a new one in, or the allocator stops. -/
theorem nextTable_cases {F : Type} [DecidableEq F] [Packed F] {present ptr : F}
    {link : U64 → List (F × U64)} (links : Links present ptr link)
    {frameAlloc : Bool → Kern α U64} (source : FrameSource frameAlloc) (inv : source.Inv taken s)
    (tables : TableTree taken s) (short : p.length < 3) (here : tableAt s p = some table)
    {entry : U64} (address : entry = table + s.hhdmoff + 8 * i.setWidth 64)
    (low : ∀ next, tableAt s (p ++ [i]) = some next → next.toNat < 2 ^ 40) :
    (∃ next taken' s', (nextTable frameAlloc present ptr link entry).run s =
        .ok (next + s'.hhdmoff) s' ∧ source.Inv taken' s' ∧ Linked taken s p i next taken' s') ∨
    source.Stops taken.length ((nextTable frameAlloc present ptr link entry).run s) := by
  have place : s.v2p entry = entryAddr table i := address ▸ v2p_entry s table i
  have owned := tables.owned short.le here
  have aligned := tables.aligned table owned
  by_cases absent : Entry.present (word s.mem table i) = false
  · have zero := tables.word_eq_zero short here absent
    rw [run_nextTable_absent links frameAlloc address absent]
    have ready : source.Inv taken (s.touch ⟨.table, entry, 8⟩) :=
      source.write inv rfl rfl fun _ _ => rfl
    cases call : (frameAlloc true).run (s.touch ⟨.table, entry, 8⟩) with
    | error e t => exact Or.inr ⟨taken, _, e, t, le_rfl, ready, call, rfl⟩
    | ok a t =>
      obtain ⟨grants, inv'⟩ := source.grant ready call
      have offset : t.hhdmoff = s.hhdmoff := grants.hhdmoff
      have kept : ∀ b ∈ taken, ∀ j, word t.mem b j = word s.mem b j := fun b hb j =>
        word_congr (tables.aligned b hb) (grants.kept b hb) j
      have stored : (storeFields entry (link (a >>> 12)) t).mem =
          t.mem.writeWord (entryAddr table i) (tableEntry ((a >>> 12).setWidth 40)) := by
        have there : t.v2p entry = entryAddr table i := by
          rw [address, ← offset]
          exact v2p_entry t table i
        have empty : t.mem.readWord (entryAddr table i) = 0 := (kept table owned i).trans zero
        rw [storeFields, there, empty, links.assign]
      refine Or.inl ⟨a, a :: taken, storeFields entry (link (a >>> 12)) t, rfl, ?_, ?_⟩
      · refine source.write inv' rfl rfl fun x outside => ?_
        rw [stored]
        exact writeWord_entry_of_not_inRange aligned i _
          (outside table (List.mem_cons_of_mem a owned))
      · refine tables.link short here zero grants.aligned grants.low grants.fresh grants.pml4Addr
          offset (fun b hb j => ?_) fun j => ?_
        · rw [stored, word_writeWord aligned (tables.aligned b hb), kept b hb]
        · rw [stored, word_writeWord aligned grants.aligned, if_neg]
          · exact word_eq_zero grants.aligned grants.zeroed j
          · rintro ⟨rfl, -⟩
            exact grants.fresh owned
  · have present' : Entry.present (word s.mem table i) = true := by simpa using absent
    have found : tableAt s (p ++ [i]) = some (Entry.target (word s.mem table i)) := by
      rw [tableAt_concat, here, Option.bind_some, child, presentEntry, present', if_pos rfl,
        Option.map_some]
    rw [run_nextTable_present links frameAlloc address present',
      shift_frame_eq_target (low _ found)]
    refine Or.inl ⟨Entry.target (word s.mem table i), taken,
      (s.touch ⟨.table, entry, 8⟩).touch ⟨.table, entry, 8⟩, rfl, ?_, (tables.touch _).touch _, ?_,
      rfl, rfl, ?_, fun _ _ _ => rfl⟩
    · exact source.write inv rfl rfl fun _ _ => rfl
    · rw [if_neg]
      rw [found]
      exact Option.some_ne_none _
    · intro q n _
      constructor
      · exact Or.inl
      · rintro (before | ⟨rfl, rfl⟩)
        · exact before
        · exact found

/-! ### A whole call -/

/-- The paths of the tables below the PML4 on the way to the page of `v`. -/
def way (v : U64) : List (List (BitVec 9)) :=
  [[index 3 v], [index 3 v, index 2 v], [index 3 v, index 2 v, index 1 v]]

theorem length_of_mem_way {v : U64} (on_way : q ∈ way v) : q.length ≤ 3 := by
  simp only [way, List.mem_cons, List.not_mem_nil, or_false] at on_way
  rcases on_way with rfl | rfl | rfl <;> simp

/-- Every table that exists on the way to the page of `v`, below the PML4, is below `2 ^ 40`. -/
def ReusesLow (s : Machine α) (v : U64) : Prop :=
  ∀ q ∈ way v, ∀ table, tableAt s q = some table → table.toNat < 2 ^ 40

/-- What a call of `map_page` does: it changes the page-table entry of its page, and the tables that
are missing on the way there are new frames. -/
structure MapsPage (taken : List U64) (s : Machine α) (c : MapCall) (taken' : List U64)
    (s' : Machine α) : Prop where
  tables : TableTree taken' s'
  grown : taken' =
    ((way c.vaddr).filter (tableAt s · = none)).reverse.filterMap (tableAt s') ++ taken
  hhdmoff : s'.hhdmoff = s.hhdmoff
  pml4Addr : s'.pml4Addr = s.pml4Addr
  old : ∀ ⦃q table⦄, q.length ≤ 3 → tableAt s q = some table → tableAt s' q = some table
  new : ∀ ⦃q table⦄, q.length ≤ 3 → tableAt s' q = some table →
    tableAt s q = some table ∨ (tableAt s q = none ∧ q ∈ way c.vaddr)
  found : ∀ ⦃q⦄, q ∈ way c.vaddr → tableAt s' q ≠ none
  ptes : ∀ q j, q.length = 3 → pteAt s' q j =
    if (q, j) = pageKey c.vaddr then pteWord c (pteAt s q j) else pteAt s q j

/-- A call has at most three tables to make. -/
theorem MapsPage.size {c : MapCall} (step : MapsPage taken s c taken' s') :
    taken'.length ≤ taken.length + 3 := by
  rw [step.grown, List.length_append]
  have made := List.length_filterMap_le (tableAt s')
    ((way c.vaddr).filter (tableAt s · = none)).reverse
  have missing := List.length_filter_le (fun q => decide (tableAt s q = none)) (way c.vaddr)
  rw [List.length_reverse] at made
  have three : (way c.vaddr).length = 3 := rfl
  omega

theorem MapsPage.kept {c : MapCall} (step : MapsPage taken s c taken' s') :
    ∀ b ∈ taken, b ∈ taken' := by
  intro b hb
  rw [step.grown]
  exact List.mem_append_right _ hb

theorem Linked.tableAt_eq {next : U64} (linked : Linked taken s p i next taken' s')
    (hq : q.length ≤ 3) (other : q ≠ p ++ [i]) : tableAt s' q = tableAt s q := by
  refine Option.ext fun table => ?_
  rw [linked.tableAt_iff hq]
  exact or_iff_left fun h => other h.1

/-- A level of a call leaves the tables below `2 ^ 40` on the rest of the way. -/
theorem Linked.low {next : U64} (linked : Linked taken s p i next taken' s')
    (low : ∀ table, tableAt s (p ++ [i] ++ [j]) = some table → table.toNat < 2 ^ 40)
    (short : p.length < 2) :
    ∀ table, tableAt s' (p ++ [i] ++ [j]) = some table → table.toNat < 2 ^ 40 := by
  intro table found
  have length : (p ++ [i] ++ [j]).length ≤ 3 := by
    simp only [List.length_append, List.length_singleton]
    omega
  rcases (linked.tableAt_iff length).1 found with before | ⟨same, -⟩
  · exact low table before
  · have := congrArg List.length same
    simp at this

theorem Linked.found {next : U64} (linked : Linked taken s p i next taken' s')
    (short : (p ++ [i]).length ≤ 3) : tableAt s' (p ++ [i]) = some next :=
  (linked.tableAt_iff short).2 (Or.inr ⟨rfl, rfl⟩)

theorem Linked.size {next : U64} (linked : Linked taken s p i next taken' s') :
    taken'.length ≤ taken.length + 1 := by
  rw [linked.grown]
  split_ifs <;> simp

theorem Linked.kept {next : U64} (linked : Linked taken s p i next taken' s') :
    ∀ b ∈ taken, b ∈ taken' := by
  intro b hb
  rw [linked.grown]
  split_ifs
  · exact List.mem_cons_of_mem next hb
  · exact hb

/-- The stores to a page-table entry. -/
theorem TableTree.storePte (tables : TableTree taken s) (full : p.length = 3)
    (here : tableAt s p = some table) (w : U64) (root : s'.pml4Addr = s.pml4Addr)
    (stored : s'.mem = s.mem.writeWord (entryAddr table i) w) :
    TableTree taken s' ∧ (∀ q, q.length ≤ 3 → tableAt s' q = tableAt s q) ∧
      ∀ q j, q.length = 3 → pteAt s' q j = if q = p ∧ j = i then w else pteAt s q j := by
  have aligned := tables.aligned table (tables.owned full.le here)
  have words : ∀ ⦃q n⦄, q.length ≤ 3 → tableAt s q = some n → ∀ j,
      word s'.mem n j = if q = p ∧ j = i then w else word s.mem n j := by
    intro q n hq at_q j
    rw [stored, word_writeWord aligned (tables.aligned n (tables.owned hq at_q))]
    by_cases path : q = p
    · subst path
      rw [here, Option.some_inj] at at_q
      simp [at_q]
    · have other := tables.ne_of_path_ne full.le hq here at_q (Ne.symm path)
      simp [path, other]
  obtain ⟨tables', places⟩ := tables.congr root fun q n hq at_q j => by
    rw [words hq.le at_q, if_neg]
    rintro ⟨rfl, -⟩
    omega
  refine ⟨tables', places, fun q j hq => ?_⟩
  rw [pteAt_eq, pteAt_eq, places q hq.le]
  cases at_q : tableAt s q with
  | some n =>
    rw [Option.map_some, Option.map_some, words hq.le at_q]
    split_ifs <;> rfl
  | none =>
    rw [if_neg]
    · rw [Option.map_none, Option.map_none]
    · rintro ⟨rfl, -⟩
      rw [here] at at_q
      cases at_q

/-- The levels of a call, one after the other. -/
theorem run_mapPage {α : Type} (frameAlloc : Bool → Kern α U64) (c : MapCall) (s : Machine α) :
    (mapPage frameAlloc c).run s =
      match (pdptFor frameAlloc (s.pml4Addr + s.hhdmoff + 8 * (index 3 c.vaddr).setWidth 64)).run s with
      | .ok pdpt s₁ =>
        match (pdFor frameAlloc (pdpt + 8 * (index 2 c.vaddr).setWidth 64)).run s₁ with
        | .ok pd s₂ =>
          match (ptFor frameAlloc (pd + 8 * (index 1 c.vaddr).setWidth 64)).run s₂ with
          | .ok pt s₃ => .ok () (storeFields (pt + 8 * (index 0 c.vaddr).setWidth 64)
              (pteAssignments c) s₃)
          | .error e t => .error e t
        | .error e t => .error e t
      | .error e t => .error e t := by
  simp only [mapPage, EStateM.run_bind, EStateM.run_get, pml4Index_eq, pdptIndex_eq, pdIndex_eq,
    ptIndex_eq, run_storeFields]
  cases (pdptFor frameAlloc (s.pml4Addr + s.hhdmoff + 8 * (index 3 c.vaddr).setWidth 64)).run s with
  | error e t => rfl
  | ok pdpt s₁ =>
    dsimp only
    cases (pdFor frameAlloc (pdpt + 8 * (index 2 c.vaddr).setWidth 64)).run s₁ with
    | error e t => rfl
    | ok pd s₂ =>
      dsimp only
      cases (ptFor frameAlloc (pd + 8 * (index 1 c.vaddr).setWidth 64)).run s₂ <;> rfl

/-- A call whose levels all return. -/
theorem run_mapPage_of_ok {α : Type} {frameAlloc : Bool → Kern α U64} {c : MapCall}
    {s s₁ s₂ s₃ : Machine α} {pdpt pd pt : U64}
    (run₁ : (pdptFor frameAlloc
      (s.pml4Addr + s.hhdmoff + 8 * (index 3 c.vaddr).setWidth 64)).run s = .ok pdpt s₁)
    (run₂ : (pdFor frameAlloc (pdpt + 8 * (index 2 c.vaddr).setWidth 64)).run s₁ = .ok pd s₂)
    (run₃ : (ptFor frameAlloc (pd + 8 * (index 1 c.vaddr).setWidth 64)).run s₂ = .ok pt s₃) :
    (mapPage frameAlloc c).run s =
      .ok () (storeFields (pt + 8 * (index 0 c.vaddr).setWidth 64) (pteAssignments c) s₃) := by
  rw [run_mapPage, run₁]
  dsimp only
  rw [run₂]
  dsimp only
  rw [run₃]

section Levels

variable {v t₁ t₂ t₃ : U64} {taken₁ taken₂ taken₃ : List U64} {s₁ s₂ s₃ s₄ : Machine α}

/-- After three levels the tables are the old ones and the three on the way. -/
theorem tableAt_of_linked (link₁ : Linked taken s [] (index 3 v) t₁ taken₁ s₁)
    (link₂ : Linked taken₁ s₁ [index 3 v] (index 2 v) t₂ taken₂ s₂)
    (link₃ : Linked taken₂ s₂ [index 3 v, index 2 v] (index 1 v) t₃ taken₃ s₃) {n : U64}
    (hq : q.length ≤ 3) :
    tableAt s₃ q = some n ↔ tableAt s q = some n ∨ (q = [index 3 v] ∧ n = t₁) ∨
      (q = [index 3 v, index 2 v] ∧ n = t₂) ∨ (q = path v ∧ n = t₃) := by
  rw [link₃.tableAt_iff hq, link₂.tableAt_iff hq, link₁.tableAt_iff hq, or_assoc, or_assoc]
  rfl

/-- The frames in use after three levels are the old ones and the tables that were missing. -/
theorem grown_of_linked (link₁ : Linked taken s [] (index 3 v) t₁ taken₁ s₁)
    (link₂ : Linked taken₁ s₁ [index 3 v] (index 2 v) t₂ taken₂ s₂)
    (link₃ : Linked taken₂ s₂ [index 3 v, index 2 v] (index 1 v) t₃ taken₃ s₃)
    (at₁ : tableAt s₄ [index 3 v] = some t₁) (at₂ : tableAt s₄ [index 3 v, index 2 v] = some t₂)
    (at₃ : tableAt s₄ (path v) = some t₃) :
    taken₃ = ((way v).filter (tableAt s · = none)).reverse.filterMap (tableAt s₄) ++ taken := by
  have same₂ := link₁.tableAt_eq (q := [index 3 v, index 2 v]) (by simp) (by simp)
  have same₃ := (link₂.tableAt_eq (q := path v) (by simp [path]) (by simp [path])).trans
    (link₁.tableAt_eq (by simp [path]) (by simp [path]))
  have grown₂ : taken₂ = if tableAt s [index 3 v, index 2 v] = none then t₂ :: taken₁ else taken₁ :=
    same₂ ▸ link₂.grown
  have grown₃ : taken₃ = if tableAt s (path v) = none then t₃ :: taken₂ else taken₂ :=
    same₃ ▸ link₃.grown
  rw [path] at at₃ grown₃
  rw [grown₃, grown₂, link₁.grown]
  simp only [way, List.nil_append]
  by_cases none₁ : tableAt s [index 3 v] = none <;>
  by_cases none₂ : tableAt s [index 3 v, index 2 v] = none <;>
  by_cases none₃ : tableAt s [index 3 v, index 2 v, index 1 v] = none <;>
  simp [none₁, none₂, none₃, at₁, at₂, at₃]

/-- Three levels and the stores to the page-table entry make a call. -/
theorem mapsPage_of_linked {c : MapCall} (link₁ : Linked taken s [] (index 3 c.vaddr) t₁ taken₁ s₁)
    (link₂ : Linked taken₁ s₁ [index 3 c.vaddr] (index 2 c.vaddr) t₂ taken₂ s₂)
    (link₃ : Linked taken₂ s₂ [index 3 c.vaddr, index 2 c.vaddr] (index 1 c.vaddr) t₃ taken₃ s₃)
    (offset : s₄.hhdmoff = s₃.hhdmoff) (root : s₄.pml4Addr = s₃.pml4Addr)
    (stored : s₄.mem = s₃.mem.writeWord (entryAddr t₃ (index 0 c.vaddr))
      (pteWord c (word s₃.mem t₃ (index 0 c.vaddr)))) : MapsPage taken s c taken₃ s₄ := by
  have full : (path c.vaddr).length = 3 := rfl
  have here₃ : tableAt s₃ (path c.vaddr) = some t₃ := link₃.found (by simp)
  obtain ⟨tables', places, ptes⟩ := link₃.tables.storePte full here₃ _ root stored
  have steps : ∀ ⦃q n⦄, q.length ≤ 3 → (tableAt s₄ q = some n ↔ tableAt s q = some n ∨
      (q = [index 3 c.vaddr] ∧ n = t₁) ∨ (q = [index 3 c.vaddr, index 2 c.vaddr] ∧ n = t₂) ∨
      (q = path c.vaddr ∧ n = t₃)) := fun q n hq => by
    rw [places q hq, tableAt_of_linked link₁ link₂ link₃ hq]
  have at₁ : tableAt s₄ [index 3 c.vaddr] = some t₁ :=
    (steps (by simp)).2 (Or.inr (Or.inl ⟨rfl, rfl⟩))
  have at₂ : tableAt s₄ [index 3 c.vaddr, index 2 c.vaddr] = some t₂ :=
    (steps (by simp)).2 (Or.inr (Or.inr (Or.inl ⟨rfl, rfl⟩)))
  have at₃ : tableAt s₄ (path c.vaddr) = some t₃ :=
    (steps full.le).2 (Or.inr (Or.inr (Or.inr ⟨rfl, rfl⟩)))
  refine ⟨tables', grown_of_linked link₁ link₂ link₃ at₁ at₂ at₃, ?_, ?_, ?_, ?_, ?_, ?_⟩
  · exact offset.trans (link₃.hhdmoff.trans (link₂.hhdmoff.trans link₁.hhdmoff))
  · exact root.trans (link₃.pml4Addr.trans (link₂.pml4Addr.trans link₁.pml4Addr))
  · exact fun q n hq before => (steps hq).2 (Or.inl before)
  · intro q n hq after
    cases before : tableAt s q with
    | some m =>
      have same := (steps hq).2 (Or.inl before)
      rw [same] at after
      exact Or.inl after
    | none =>
      rw [steps hq, before] at after
      rcases after with found | ⟨rfl, -⟩ | ⟨rfl, -⟩ | ⟨rfl, -⟩
      · cases found
      · exact Or.inr ⟨rfl, by simp [way]⟩
      · exact Or.inr ⟨rfl, by simp [way]⟩
      · exact Or.inr ⟨rfl, by simp [way, path]⟩
  · intro q on_way absent
    have nowhere : ∀ n, ¬ tableAt s₄ q = some n := by simp [absent]
    simp only [way, List.mem_cons, List.not_mem_nil, or_false] at on_way
    rcases on_way with rfl | rfl | rfl
    · exact nowhere t₁ at₁
    · exact nowhere t₂ at₂
    · exact nowhere t₃ at₃
  · intro q j hq
    have before : pteAt s₃ q j = pteAt s q j :=
      (link₃.ptes q j hq).trans ((link₂.ptes q j hq).trans (link₁.ptes q j hq))
    rw [ptes q j hq, ← before]
    by_cases here : q = path c.vaddr ∧ j = index 0 c.vaddr
    · obtain ⟨rfl, rfl⟩ := here
      rw [if_pos ⟨rfl, rfl⟩, if_pos (show (path c.vaddr, index 0 c.vaddr) = pageKey c.vaddr from rfl),
        pteAt_eq, here₃]
      rfl
    · rw [if_neg here, if_neg (by rw [pageKey, Prod.mk.injEq]; exact here)]

end Levels

/-- **One call.**  It maps its page, or the allocator stops. -/
theorem mapPage_cases {frameAlloc : Bool → Kern α U64} (source : FrameSource frameAlloc)
    (inv : source.Inv taken s) (tables : TableTree taken s) {c : MapCall}
    (low : ReusesLow s c.vaddr) :
    (∃ taken' s', (mapPage frameAlloc c).run s = .ok () s' ∧ source.Inv taken' s' ∧
      MapsPage taken s c taken' s') ∨
    source.Stops (taken.length + 2) ((mapPage frameAlloc c).run s) := by
  have low₁ : ∀ next, tableAt s ([] ++ [index 3 c.vaddr]) = some next → next.toNat < 2 ^ 40 :=
    fun next found => low _ (by simp [way]) next found
  have low₂ : ∀ next, tableAt s ([] ++ [index 3 c.vaddr] ++ [index 2 c.vaddr]) = some next →
      next.toNat < 2 ^ 40 := fun next found => low _ (by simp [way]) next found
  have low₃ : ∀ next, tableAt s ([index 3 c.vaddr] ++ [index 2 c.vaddr] ++ [index 1 c.vaddr]) =
      some next → next.toNat < 2 ^ 40 := fun next found => low _ (by simp [way]) next found
  rw [run_mapPage, pdptFor, pdFor, ptFor]
  -- the PML4
  rcases nextTable_cases links_pml4e source inv tables (p := []) (by decide) rfl rfl low₁ with
    ⟨t₁, taken₁, s₁, run₁, inv₁, link₁⟩ | stops
  swap
  · obtain ⟨e, t, run₁, failed⟩ := stops.exists_error
    simp only [run₁]
    exact Or.inr ((failed Unit).mono (by omega))
  simp only [run₁]
  have here₁ : tableAt s₁ [index 3 c.vaddr] = some t₁ := link₁.found (by simp)
  have low₂ := link₁.low low₂ (by decide)
  -- the PDPT
  rcases nextTable_cases links_pdpe source inv₁ link₁.tables (p := [index 3 c.vaddr]) (by simp) here₁
    rfl low₂ with ⟨t₂, taken₂, s₂, run₂, inv₂, link₂⟩ | stops
  swap
  · obtain ⟨e, t, run₂, failed⟩ := stops.exists_error
    simp only [run₂]
    exact Or.inr ((failed Unit).mono (by have := link₁.size; omega))
  simp only [run₂]
  have here₂ : tableAt s₂ [index 3 c.vaddr, index 2 c.vaddr] = some t₂ := link₂.found (by simp)
  have low₃ : ∀ next, tableAt s₂ ([index 3 c.vaddr] ++ [index 2 c.vaddr] ++ [index 1 c.vaddr]) =
      some next → next.toNat < 2 ^ 40 := by
    refine link₂.low (fun next found => ?_) (by simp)
    rcases (link₁.tableAt_iff (by simp)).1 found with before | ⟨same, -⟩
    · exact low₃ next before
    · cases same
  -- the page directory
  rcases nextTable_cases links_pde source inv₂ link₂.tables (p := [index 3 c.vaddr, index 2 c.vaddr])
    (by simp) here₂ rfl low₃ with ⟨t₃, taken₃, s₃, run₃, inv₃, link₃⟩ | stops
  swap
  · obtain ⟨e, t, run₃, failed⟩ := stops.exists_error
    simp only [run₃]
    exact Or.inr ((failed Unit).mono (by have := link₁.size; have := link₂.size; omega))
  simp only [run₃]
  -- the page table
  have stored : (storeFields (t₃ + s₃.hhdmoff + 8 * (index 0 c.vaddr).setWidth 64)
      (pteAssignments c) s₃).mem = s₃.mem.writeWord (entryAddr t₃ (index 0 c.vaddr))
        (pteWord c (word s₃.mem t₃ (index 0 c.vaddr))) := by
    rw [storeFields, v2p_entry]
    rfl
  have owned : t₃ ∈ taken₃ := link₃.tables.owned (by simp) (link₃.found (by simp))
  refine Or.inl ⟨taken₃, _, rfl, ?_, mapsPage_of_linked link₁ link₂ link₃ rfl rfl stored⟩
  refine source.write inv₃ rfl rfl fun x outside => ?_
  rw [stored]
  exact writeWord_entry_of_not_inRange (link₃.tables.aligned t₃ owned) _ _ (outside t₃ owned)

end Tree

end Bintos
