import Bintos.Vm.Forest
import Bintos.Vm.Misplaced

/-!
# Calls that run out of frames

`frame_alloc` returns `(uint64_t)-1` when no frame is left, and `map_page` uses it as the address of a
table.  Whichever of the allocations of a call is the first to fail, an entry below the failed one is
written outside the frames of the allocator (`mapPage_writes_misplaced`).  So no page tables and no
address survive the failure, unless the memory there is what the stores would leave behind anyway
(`failure_not_survived`).
-/

namespace Bintos

/-! ### The allocator -/

/-- `frame_alloc` over a pool of frames: the next frame, and `(uint64_t)-1` when the pool is empty. -/
def poolFrame (zeroed : Bool) : Kern (List U64) U64 := do
  if (← get).alloc = [] then
    return -1
  else
    popFrame zeroed

theorem run_poolFrame_nil {s : Machine (List U64)} (empty : s.alloc = []) :
    (poolFrame true).run s = .ok (-1) s := by
  simp only [poolFrame, EStateM.run_bind, EStateM.run_get, empty]
  rfl

theorem run_poolFrame_of_ne_nil {s : Machine (List U64)} (more : s.alloc ≠ []) :
    (poolFrame true).run s = (popFrame true).run s := by
  simp only [poolFrame, EStateM.run_bind, EStateM.run_get, if_neg more]

/-- A frame that a pool may hold. -/
def IsPoolFrame (a : U64) : Prop := PageAligned a ∧ 0 < a.toNat ∧ a.toNat < 2 ^ 52

/-! ### Runs that differ in one byte -/

/-- The machines differ in one byte of a misplaced entry only, and the first bit of the second one is
clear there. -/
structure Twin (i : BitVec 9) (s t : Machine (List U64)) : Prop where
  same : ∀ y, y ≠ misplaced i → t.mem y = s.mem y
  clear : (t.mem (misplaced i)).getLsbD 0 = false
  hhdmoff : t.hhdmoff = s.hhdmoff
  pml4Addr : t.pml4Addr = s.pml4Addr
  alloc : t.alloc = s.alloc

section Twin

variable {F : Type} [DecidableEq F] [Packed F] {l : List (F × U64)} {s t : Machine (List U64)}
  {e table a : U64} {i j : BitVec 9} {rest : List U64}

/-- Aligned words differ in their last byte only. -/
theorem Twin.bits (twin : Twin i s t) (he : e.toNat % 8 = 0) {k : ℕ} (hk : k < 56) :
    (t.mem.readWord e).getLsbD k = (s.mem.readWord e).getLsbD k := by
  have other : e + BitVec.ofNat 64 (k / 8) ≠ misplaced i := by
    intro same
    have last := misplaced_mod i
    rw [← same] at last
    bv_omega
  rw [Mem.readWord, Mem.getLsbD_readLE, Mem.readWord, Mem.getLsbD_readLE, twin.same _ other]

theorem Twin.present (twin : Twin i s t) (he : e.toNat % 8 = 0) :
    Entry.present (t.mem.readWord e) = Entry.present (s.mem.readWord e) :=
  twin.bits he (by decide)

theorem Twin.frame (twin : Twin i s t) (he : e.toNat % 8 = 0) :
    Entry.frame (t.mem.readWord e) = Entry.frame (s.mem.readWord e) := by
  apply BitVec.eq_of_getLsbD_eq
  intro k hk
  rw [Entry.frame, Entry.frame, BitVec.getLsbD_extractLsb', BitVec.getLsbD_extractLsb',
    twin.bits he (by omega)]

theorem Twin.touch (twin : Twin i s t) (x y : Access) : Twin i (s.touch x) (t.touch y) :=
  ⟨twin.same, twin.clear, twin.hhdmoff, twin.pml4Addr, twin.alloc⟩

theorem Twin.storeFields (twin : Twin i s t) (marks : Marks l) (he : (s.v2p e).toNat % 8 = 0) :
    Twin i (storeFields e l s) (storeFields e l t) := by
  have place : t.v2p e = s.v2p e := by rw [Machine.v2p, Machine.v2p, twin.hhdmoff]
  refine ⟨fun y other => ?_, ?_, twin.hhdmoff, twin.pml4Addr, twin.alloc⟩
  · show assigned t.mem (t.v2p e) l y = assigned s.mem (s.v2p e) l y
    apply BitVec.eq_of_getLsbD_eq
    intro k hk
    rw [place, assigned, assigned, Mem.getLsbD_writeWord _ _ _ _ hk,
      Mem.getLsbD_writeWord _ _ _ _ hk, twin.same y other]
    split_ifs with inside
    · apply assign_congr
      · unfold Mem.InRange at inside
        omega
      · rw [Mem.getLsbD_readWord inside hk, Mem.getLsbD_readWord inside hk, twin.same y other]
    · rfl
  · show (assigned t.mem (t.v2p e) l (misplaced i)).getLsbD 0 = false
    rw [place, marks.kept_of_aligned he (misplaced_mod i), twin.clear]

/-- The machine after the pool has handed out its first frame. -/
def popped (s : Machine (List U64)) (a : U64) (rest : List U64) : Machine (List U64) :=
  { s.touch ⟨.clear, a + s.hhdmoff, frameAllocationSize.toNat⟩ with
    mem := s.mem.fill a 0 frameAllocationSize.toNat
    alloc := rest }

theorem Twin.popped (twin : Twin i s t) (frame : IsPoolFrame a) :
    Twin i (popped s a rest) (popped t a rest) := by
  have outside := misplaced_not_inRange frame.1 frame.2.1 frame.2.2 i
  refine ⟨fun y other => ?_, ?_, twin.hhdmoff, twin.pml4Addr, rfl⟩
  · show t.mem.fill a 0 4096 y = s.mem.fill a 0 4096 y
    rw [Mem.fill_apply _ _ _ (by decide), Mem.fill_apply _ _ _ (by decide), twin.same y other]
  · show (t.mem.fill a 0 4096 (misplaced i)).getLsbD 0 = false
    rw [Mem.fill_of_not_inRange _ _ (by decide) outside, twin.clear]

end Twin

/-! ### One level -/

section Level

variable {F : Type} [DecidableEq F] [Packed F] {present ptr : F} {link : U64 → List (F × U64)}
  {s t u : Machine (List U64)} {entry table a v : U64} {i j : BitVec 9} {rest : List U64}

/-- A level that finds no entry and no frame. -/
theorem run_nextTable_empty (links : Links present ptr link)
    (address : entry = table + s.hhdmoff + 8 * i.setWidth 64)
    (absent : Entry.present (word s.mem table i) = false) (empty : s.alloc = []) :
    ∃ u, (nextTable popFrame present ptr link entry).run s = .error .halted u := by
  have nothing : (s.touch ⟨.table, entry, 8⟩).alloc = [] := empty
  refine ⟨s.touch ⟨.table, entry, 8⟩, ?_⟩
  rw [run_nextTable_absent links popFrame address absent, run_popFrame_nil nothing]

/-- With `(uint64_t)-1` for the frame, such a level goes on at the last address. -/
theorem nextTable_empty (links : Links present ptr link)
    (address : entry = table + s.hhdmoff + 8 * i.setWidth 64)
    (absent : Entry.present (word s.mem table i) = false) (empty : s.alloc = []) :
    ∃ u, (nextTable poolFrame present ptr link entry).run s = .ok (-1 + u.hhdmoff) u ∧
      u.alloc = [] ∧ u.mem = assigned s.mem (entryAddr table i) (link ((-1 : U64) >>> 12)) := by
  have place : s.v2p entry = entryAddr table i := address ▸ v2p_entry s table i
  have nothing : (s.touch ⟨.table, entry, 8⟩).alloc = [] := empty
  refine ⟨storeFields entry (link ((-1 : U64) >>> 12)) (s.touch ⟨.table, entry, 8⟩), ?_, empty, ?_⟩
  · rw [run_nextTable_absent links poolFrame address absent, run_poolFrame_nil nothing]
    rfl
  · rw [← place]
    rfl

/-- A level that finds no entry and gets a frame. -/
theorem run_nextTable_popped (links : Links present ptr link)
    (address : entry = table + s.hhdmoff + 8 * i.setWidth 64)
    (absent : Entry.present (word s.mem table i) = false) (pool : s.alloc = a :: rest) :
    (nextTable popFrame present ptr link entry).run s =
      .ok (a + s.hhdmoff)
        (storeFields entry (link (a >>> 12)) (popped (s.touch ⟨.table, entry, 8⟩) a rest)) := by
  have first : (s.touch ⟨.table, entry, 8⟩).alloc = a :: rest := pool
  rw [run_nextTable_absent links popFrame address absent, run_popFrame_cons first]
  rfl

/-- As long as there are frames, the failure value makes no difference. -/
theorem run_nextTable_poolFrame
    (returns : (nextTable popFrame present ptr link entry).run s = .ok v u) :
    (nextTable poolFrame present ptr link entry).run s = .ok v u := by
  rw [run_nextTable] at returns ⊢
  split_ifs at returns ⊢ with absent
  · by_cases empty : (s.touch ⟨.table, entry, 8⟩).alloc = []
    · rw [run_popFrame_nil empty] at returns
      cases returns
    · rw [run_poolFrame_of_ne_nil empty]
      exact returns
  · exact returns

theorem pageAligned_shift_frame (w : U64) :
    PageAligned ((Entry.frame w <<< 12).setWidth 64) := by
  unfold PageAligned
  rw [toNat_shift_frame, Entry.target, BitVec.toNat_shiftLeft, Nat.shiftLeft_eq]
  omega

/-- **One level with twins.**  The level takes the same branch in both machines, and it goes on to the
same table, or the allocator fails in both. -/
theorem nextTable_twins (links : Links present ptr link) (marks : ∀ f, Marks (link f))
    (aligned : PageAligned table) (pool : ∀ a ∈ s.alloc, IsPoolFrame a)
    (address : entry = table + s.hhdmoff + 8 * i.setWidth 64) :
    (∃ next u, (nextTable popFrame present ptr link entry).run s = .ok (next + u.hhdmoff) u ∧
      PageAligned next ∧ (∀ a ∈ u.alloc, IsPoolFrame a) ∧ ∀ j t, Twin j s t → ∃ w,
        (nextTable popFrame present ptr link entry).run t = .ok (next + w.hhdmoff) w ∧ Twin j u w) ∨
    ((∃ u, (nextTable popFrame present ptr link entry).run s = .error .halted u) ∧
      ∀ j t, Twin j s t → Entry.present (word t.mem table i) = false ∧ t.alloc = []) := by
  have he := entryAddr_mod aligned i
  have address' {j : BitVec 9} {t : Machine (List U64)} (twin : Twin j s t) :
      entry = table + t.hhdmoff + 8 * i.setWidth 64 := by rw [address, twin.hhdmoff]
  by_cases here : Entry.present (word s.mem table i) = true
  · refine Or.inl ⟨_, (s.touch ⟨.table, entry, 8⟩).touch ⟨.table, entry, 8⟩,
      run_nextTable_present links popFrame address here, ?_, pool, ?_⟩
    · exact pageAligned_shift_frame _
    · intro j t twin
      have there : Entry.present (word t.mem table i) = true := (twin.present he).trans here
      have run := run_nextTable_present links popFrame (address' twin) there
      rw [word, twin.frame he] at run
      exact ⟨(t.touch ⟨.table, entry, 8⟩).touch ⟨.table, entry, 8⟩, run,
        (twin.touch _ _).touch _ _⟩
  · rw [Bool.not_eq_true] at here
    cases frames : s.alloc with
    | nil =>
      refine Or.inr ⟨run_nextTable_empty links address here frames, fun j t twin => ?_⟩
      exact ⟨(twin.present he).trans here, twin.alloc.trans frames⟩
    | cons a rest =>
      have frame : IsPoolFrame a := pool a (frames ▸ List.mem_cons_self)
      refine Or.inl ⟨a, storeFields entry (link (a >>> 12))
        (popped (s.touch ⟨.table, entry, 8⟩) a rest),
        run_nextTable_popped links address here frames, frame.1, ?_, ?_⟩
      · intro b hb
        exact pool b (frames ▸ List.mem_cons_of_mem a hb)
      · intro j t twin
        have there : Entry.present (word t.mem table i) = false := (twin.present he).trans here
        have place : (popped (s.touch ⟨.table, entry, 8⟩) a rest).v2p entry = entryAddr table i :=
          address ▸ v2p_entry s table i
        refine ⟨storeFields entry (link (a >>> 12)) (popped (t.touch ⟨.table, entry, 8⟩) a rest),
          run_nextTable_popped links (address' twin) there (twin.alloc.trans frames), ?_⟩
        apply Twin.storeFields _ (marks _) (place ▸ he)
        exact (twin.touch _ _).popped frame

/-! ### After the failure -/

/-- The pool is empty and the first bit of a misplaced entry is set. -/
structure Marked (j : BitVec 9) (s : Machine (List U64)) : Prop where
  empty : s.alloc = []
  set : (s.mem (misplaced j)).getLsbD 0 = true

/-- Where a level goes on: in a page, or at the last address. -/
def IsBase (table : U64) : Prop := PageAligned table ∨ table = -1

theorem IsBase.entryAddr (base : IsBase table) (i : BitVec 9) :
    (entryAddr table i).toNat % 8 = 0 ∨ ∃ j, entryAddr table i = misplaced j := by
  rcases base with aligned | rfl
  · exact Or.inl (entryAddr_mod aligned i)
  · exact Or.inr ⟨i, rfl⟩

/-- The level at which the allocator fails leaves the misplaced entries clear. -/
theorem nextTable_fails (links : Links present ptr link) (marks : ∀ f, Marks (link f))
    (aligned : PageAligned table) (address : entry = table + s.hhdmoff + 8 * i.setWidth 64)
    (absent : Entry.present (word s.mem table i) = false) (empty : s.alloc = [])
    (clear : (s.mem (misplaced j)).getLsbD 0 = false) :
    ∃ u, (nextTable poolFrame present ptr link entry).run s = .ok (-1 + u.hhdmoff) u ∧
      u.alloc = [] ∧ (u.mem (misplaced j)).getLsbD 0 = false := by
  obtain ⟨u, run, empty', stored⟩ := nextTable_empty links address absent empty
  refine ⟨u, run, empty', ?_⟩
  rw [stored, (marks _).kept_of_aligned (entryAddr_mod aligned i) (misplaced_mod j), clear]

/-- The level below takes its misplaced entry for an absent one, and marks it. -/
theorem nextTable_marks (links : Links present ptr link) (marks : ∀ f, Marks (link f))
    (address : entry = -1 + s.hhdmoff + 8 * i.setWidth 64) (empty : s.alloc = [])
    (clear : (s.mem (misplaced i)).getLsbD 0 = false) :
    ∃ u, (nextTable poolFrame present ptr link entry).run s = .ok (-1 + u.hhdmoff) u ∧
      Marked i u := by
  have absent : Entry.present (word s.mem (-1) i) = false := by
    have first := Mem.getLsbD_readWord (m := s.mem) (a := misplaced i) (x := misplaced i)
      (by simp [Mem.InRange]) (k := 0) (by decide)
    rw [clear, BitVec.sub_self] at first
    exact first
  obtain ⟨u, run, empty', stored⟩ := nextTable_empty links address absent empty
  refine ⟨u, run, empty', ?_⟩
  rw [stored]
  exact (marks _).marked

/-- Every level after that keeps the mark, wherever it goes. -/
theorem Marked.nextTable (marked : Marked j s) (links : Links present ptr link)
    (marks : ∀ f, Marks (link f)) (base : IsBase table)
    (address : entry = table + s.hhdmoff + 8 * i.setWidth 64) :
    ∃ next u, (nextTable poolFrame present ptr link entry).run s = .ok (next + u.hhdmoff) u ∧
      IsBase next ∧ Marked j u := by
  by_cases here : Entry.present (word s.mem table i) = true
  · exact ⟨_, (s.touch ⟨.table, entry, 8⟩).touch ⟨.table, entry, 8⟩,
      run_nextTable_present links poolFrame address here, Or.inl (pageAligned_shift_frame _),
      marked.empty, marked.set⟩
  · rw [Bool.not_eq_true] at here
    obtain ⟨u, run, empty, stored⟩ := nextTable_empty links address here marked.empty
    refine ⟨-1, u, run, Or.inr rfl, empty, ?_⟩
    rw [stored]
    exact (marks _).kept (base.entryAddr i) marked.set

/-- So do the stores to the page-table entry. -/
theorem Marked.storeFields (marked : Marked j s) (base : IsBase table) (c : MapCall) (i : BitVec 9) :
    Marked j (storeFields (table + s.hhdmoff + 8 * i.setWidth 64) (pteAssignments c) s) where
  empty := marked.empty
  set := by
    show (assigned s.mem (s.v2p _) (pteAssignments c) (misplaced j)).getLsbD 0 = true
    rw [v2p_entry]
    exact (marks_pte c).kept (base.entryAddr i) marked.set

theorem marked_storeFields (empty : s.alloc = []) (c : MapCall) (i : BitVec 9) :
    Marked i (storeFields (-1 + s.hhdmoff + 8 * i.setWidth 64) (pteAssignments c) s) where
  empty := empty
  set := by
    show (assigned s.mem (s.v2p _) (pteAssignments c) (misplaced i)).getLsbD 0 = true
    rw [v2p_entry]
    exact (marks_pte c).marked

end Level

/-! ### A whole call -/

/-- The allocator has no frame for one of the tables that the call has to make. -/
def Fails (s : Machine (List U64)) (c : MapCall) : Prop :=
  ∃ u, (mapPage popFrame c).run s = .error .halted u

/-- **A failed call writes a misplaced entry.**  It is the entry below the one for which there was no
frame, and the call writes it whenever its first bit is clear. -/
theorem mapPage_writes_misplaced {s : Machine (List U64)} {c : MapCall}
    (aligned : PageAligned s.pml4Addr) (pool : ∀ a ∈ s.alloc, IsPoolFrame a) (fails : Fails s c) :
    ∃ i, ∀ t, Twin i s t → Fails t c ∧ ∃ u, (mapPage poolFrame c).run t = .ok () u ∧
      (u.mem (misplaced i)).getLsbD 0 = true := by
  obtain ⟨stop, fails⟩ := fails
  rw [run_mapPage] at fails
  rcases nextTable_twins links_pml4e marks_pml4e aligned pool (i := index 3 c.vaddr) rfl with
    ⟨t₁, s₁, run₁, aligned₁, pool₁, twins₁⟩ | ⟨-, failed⟩
  swap
  · -- no frame for the PDPT
    refine ⟨index 2 c.vaddr, fun t twin => ?_⟩
    obtain ⟨absent, empty⟩ := failed _ t twin
    rw [← twin.pml4Addr] at absent
    obtain ⟨u₁, down₁, empty₁, clear₁⟩ := nextTable_fails links_pml4e marks_pml4e
      (twin.pml4Addr ▸ aligned) rfl absent empty twin.clear
    obtain ⟨u₂, down₂, marked₂⟩ := nextTable_marks links_pdpe marks_pdpe rfl empty₁ clear₁
    obtain ⟨base, u₃, down₃, isBase, marked₃⟩ := marked₂.nextTable links_pde marks_pde
      (i := index 1 c.vaddr) (Or.inr rfl) rfl
    obtain ⟨w, stops⟩ := run_nextTable_empty links_pml4e rfl absent empty
    refine ⟨⟨w, ?_⟩, _, run_mapPage_of_ok down₁ down₂ down₃,
      (marked₃.storeFields isBase c (index 0 c.vaddr)).set⟩
    rw [run_mapPage, pdptFor, stops]
  rw [pdptFor, run₁] at fails
  dsimp only at fails
  rcases nextTable_twins links_pdpe marks_pdpe aligned₁ pool₁ (i := index 2 c.vaddr) rfl with
    ⟨t₂, s₂, run₂, aligned₂, pool₂, twins₂⟩ | ⟨-, failed⟩
  swap
  · -- no frame for the page directory
    refine ⟨index 1 c.vaddr, fun t twin => ?_⟩
    obtain ⟨w₁, call₁, twin₁⟩ := twins₁ _ t twin
    obtain ⟨absent, empty⟩ := failed _ w₁ twin₁
    rw [← twin.pml4Addr, ← twin.hhdmoff] at call₁
    obtain ⟨u₂, down₂, empty₂, clear₂⟩ := nextTable_fails links_pdpe marks_pdpe aligned₁ rfl
      absent empty twin₁.clear
    obtain ⟨u₃, down₃, marked₃⟩ := nextTable_marks links_pde marks_pde rfl empty₂ clear₂
    obtain ⟨w, stops⟩ := run_nextTable_empty links_pdpe rfl absent empty
    refine ⟨⟨w, ?_⟩, _, run_mapPage_of_ok (run_nextTable_poolFrame call₁) down₂ down₃,
      (marked₃.storeFields (Or.inr rfl) c (index 0 c.vaddr)).set⟩
    rw [run_mapPage, pdptFor, call₁]
    dsimp only
    rw [pdFor, stops]
  rw [pdFor, run₂] at fails
  dsimp only at fails
  rcases nextTable_twins links_pde marks_pde aligned₂ pool₂ (i := index 1 c.vaddr) rfl with
    ⟨t₃, s₃, run₃, -⟩ | ⟨-, failed⟩
  · rw [ptFor, run₃] at fails
    cases fails
  · -- no frame for the page table
    refine ⟨index 0 c.vaddr, fun t twin => ?_⟩
    obtain ⟨w₁, call₁, twin₁⟩ := twins₁ _ t twin
    obtain ⟨w₂, call₂, twin₂⟩ := twins₂ _ w₁ twin₁
    obtain ⟨absent, empty⟩ := failed _ w₂ twin₂
    rw [← twin.pml4Addr, ← twin.hhdmoff] at call₁
    rw [← twin₁.hhdmoff] at call₂
    obtain ⟨u₃, down₃, empty₃, -⟩ := nextTable_fails links_pde marks_pde aligned₂ rfl absent empty
      twin₂.clear
    obtain ⟨w, stops⟩ := run_nextTable_empty links_pde rfl absent empty
    refine ⟨⟨w, ?_⟩, _, run_mapPage_of_ok (run_nextTable_poolFrame call₁)
      (run_nextTable_poolFrame call₂) down₃, (marked_storeFields empty₃ c (index 0 c.vaddr)).set⟩
    rw [run_mapPage, pdptFor, call₁]
    dsimp only
    rw [pdFor, call₂]
    dsimp only
    rw [ptFor, stops]

/-! ### Page tables built by earlier calls -/

section Built

variable {β γ : Type} {s t u : Machine (List U64)} {c : MapCall} {frames : List U64}

/-- The computation keeps the PML4 and takes frames from the pool only. -/
def Draws (x : Kern (List U64) β) : Prop :=
  ∀ s b s', x.run s = .ok b s' → s'.pml4Addr = s.pml4Addr ∧ s'.alloc ⊆ s.alloc

theorem Draws.bind {x : Kern (List U64) β} {f : β → Kern (List U64) γ} (first : Draws x)
    (rest : ∀ b, Draws (f b)) : Draws (x >>= f) := by
  intro s c s' returns
  obtain ⟨b, t, run, last⟩ := run_bind_eq_ok.1 returns
  obtain ⟨root, pool⟩ := first s b t run
  obtain ⟨root', pool'⟩ := rest b t c s' last
  exact ⟨root'.trans root, fun a ha => pool (pool' ha)⟩

theorem draws_poolFrame : Draws (poolFrame true) := by
  intro s a s' returns
  cases pool : s.alloc with
  | nil =>
    rw [run_poolFrame_nil pool] at returns
    cases returns
    exact ⟨rfl, pool ▸ List.Subset.refl _⟩
  | cons b rest =>
    rw [run_poolFrame_of_ne_nil (by simp [pool]), run_popFrame_cons pool] at returns
    cases returns
    exact ⟨rfl, fun x hx => pool ▸ List.mem_cons_of_mem _ hx⟩

theorem draws_nextTable {F : Type} [DecidableEq F] [Packed F] (present ptr : F)
    (link : U64 → List (F × U64)) (entry : U64) :
    Draws (nextTable poolFrame present ptr link entry) := by
  intro s v s' returns
  rw [run_nextTable] at returns
  split_ifs at returns
  · cases call : (poolFrame true).run (s.touch ⟨.table, entry, 8⟩) with
    | error e t =>
      rw [call] at returns
      cases returns
    | ok a t =>
      rw [call] at returns
      cases returns
      exact draws_poolFrame (s.touch ⟨.table, entry, 8⟩) a t call
  · cases returns
    exact ⟨rfl, List.Subset.refl _⟩

theorem draws_mapPage (c : MapCall) : Draws (mapPage poolFrame c) := by
  have get : Draws (get : Kern (List U64) _) := by
    intro s b s' returns
    cases returns
    exact ⟨rfl, List.Subset.refl _⟩
  apply get.bind
  intro _
  apply get.bind
  intro _
  apply (draws_nextTable _ _ _ _).bind
  intro _
  apply (draws_nextTable _ _ _ _).bind
  intro _
  apply (draws_nextTable _ _ _ _).bind
  intro _ s b s' returns
  rw [run_storeFields] at returns
  cases returns
  exact ⟨rfl, List.Subset.refl _⟩

theorem draws_mapPages (calls : List MapCall) : Draws (mapPages poolFrame calls) := by
  induction calls with
  | nil =>
    intro s b s' returns
    cases returns
    exact ⟨rfl, List.Subset.refl _⟩
  | cons c calls ih => exact (draws_mapPage c).bind fun _ => ih

/-! ### Surviving the failure -/

/-- What a call that runs out of frames should leave behind; `frames` are the frames of the allocator,
all of which are in use then. -/
structure LeavesInOrder (frames : List U64) (c : MapCall) (s s' : Machine (List U64)) : Prop where
  /-- only tables are written -/
  writes : ∀ x, s'.mem x ≠ s.mem x → ∃ b ∈ s.pml4Addr :: frames, Mem.InRange b 4096 x
  /-- the present entries above the last level point to allocated frames -/
  entries : ∀ k < 3, ∀ table ∈ tablesAt s' k, ∀ i t, child s'.mem table i = some t → t ∈ frames
  kept : ∀ v t, walk s.mem s.pml4Addr v = some t → walk s'.mem s'.pml4Addr v = some t
  unmapped : walk s'.mem s'.pml4Addr c.vaddr = none

/-- The machines have the same page tables and the same pool. -/
structure SameTables (frames : List U64) (s t : Machine (List U64)) : Prop where
  same : ∀ b ∈ s.pml4Addr :: frames, ∀ x, Mem.InRange b 4096 x → t.mem x = s.mem x
  hhdmoff : t.hhdmoff = s.hhdmoff
  pml4Addr : t.pml4Addr = s.pml4Addr
  alloc : t.alloc = s.alloc

/-- The call survives the failure of the allocator, whatever the memory outside the tables holds. -/
def Survives (frames : List U64) (s : Machine (List U64)) (c : MapCall) : Prop :=
  ∀ t, SameTables frames s t → Fails t c →
    ∃ u, (mapPage poolFrame c).run t = .ok () u ∧ LeavesInOrder frames c t u

/-- A misplaced entry is not in a table. -/
theorem not_leavesInOrder (pool : ∀ a ∈ s.pml4Addr :: frames, IsPoolFrame a) {i : BitVec 9}
    (clear : (s.mem (misplaced i)).getLsbD 0 = false)
    (set : (u.mem (misplaced i)).getLsbD 0 = true) : ¬ LeavesInOrder frames c s u := by
  intro order
  have changed : u.mem (misplaced i) ≠ s.mem (misplaced i) := by
    intro same
    rw [same, clear] at set
    cases set
  obtain ⟨b, hb, inside⟩ := order.writes _ changed
  obtain ⟨aligned, above, low⟩ := pool b hb
  exact misplaced_not_inRange aligned above low i inside

/-- The machine with a misplaced entry cleared. -/
def cleared (i : BitVec 9) (s : Machine (List U64)) : Machine (List U64) :=
  { s with mem := s.mem.write (misplaced i) 0 }

theorem twin_cleared (i : BitVec 9) (s : Machine (List U64)) : Twin i s (cleared i s) where
  same y other := Mem.write_of_ne _ _ other
  clear := by
    have zero : (cleared i s).mem (misplaced i) = 0 := Mem.write_same ..
    rw [zero]
    rfl
  hhdmoff := rfl
  pml4Addr := rfl
  alloc := rfl

theorem sameTables_cleared (pool : ∀ a ∈ s.pml4Addr :: frames, IsPoolFrame a) (i : BitVec 9) :
    SameTables frames s (cleared i s) where
  same b hb x inside := by
    obtain ⟨aligned, above, low⟩ := pool b hb
    apply Mem.write_of_ne
    rintro rfl
    exact misplaced_not_inRange aligned above low i inside
  hhdmoff := rfl
  pml4Addr := rfl
  alloc := rfl

/-- **No failure is survived.**  Whatever calls built the page tables, and whichever allocation of the
call is the first to fail, the call does not survive it. -/
theorem failure_not_survived {s₀ : Machine (List U64)} {calls : List MapCall}
    (pool : ∀ a ∈ s₀.pml4Addr :: s₀.alloc, IsPoolFrame a)
    (built : (mapPages poolFrame calls).run s₀ = .ok () s) (fails : Fails s c) :
    ¬ Survives s₀.alloc s c := by
  intro survives
  obtain ⟨root, left⟩ := draws_mapPages calls s₀ () s built
  rw [← root] at pool
  have aligned := (pool s.pml4Addr List.mem_cons_self).1
  obtain ⟨i, written⟩ := mapPage_writes_misplaced aligned
    (fun a ha => pool a (List.mem_cons_of_mem _ (left ha))) fails
  have twin := twin_cleared i s
  obtain ⟨fails', u, run, set⟩ := written (cleared i s) twin
  obtain ⟨u', run', order⟩ := survives (cleared i s) (sameTables_cleared pool i) fails'
  rw [run, EStateM.Result.ok.injEq] at run'
  obtain ⟨-, rfl⟩ := run'
  exact not_leavesInOrder (s := cleared i s) pool twin.clear set order

/-- With no frame at all the first allocation fails. -/
theorem fails_poolStart_nil (c : MapCall) : Fails (poolStart []) c := by
  have absent : Entry.present (word (poolStart []).mem (poolStart []).pml4Addr
      (index 3 c.vaddr)) = false := by
    have zero : word (poolStart []).mem (poolStart []).pml4Addr (index 3 c.vaddr) = 0 :=
      Mem.readWord_eq_zero fun _ _ => rfl
    rw [zero]
    rfl
  obtain ⟨u, stops⟩ := run_nextTable_empty links_pml4e rfl absent rfl
  exact ⟨u, by rw [run_mapPage, pdptFor, stops]⟩

theorem isPoolFrame_poolStart_nil :
    ∀ a ∈ (poolStart []).pml4Addr :: (poolStart []).alloc, IsPoolFrame a := by
  intro a ha
  rw [List.mem_singleton.1 ha]
  exact ⟨show PageAligned 0x1000 by decide, by decide, by decide⟩

theorem emptyPool_not_survived :
    ¬ Survives [] (poolStart []) ⟨0x200000, 0x7000, true, true, false, false⟩ := by
  have built : (mapPages poolFrame []).run (poolStart []) = .ok () (poolStart []) := rfl
  exact failure_not_survived isPoolFrame_poolStart_nil built (fails_poolStart_nil _)

/-- In zeroed memory, a call without any frame left writes outside the PML4. -/
theorem emptyPool_writes_outside : Fails (poolStart []) ⟨0x200000, 0x7000, true, true, false, false⟩ ∧
    ∃ u, (mapPage poolFrame ⟨0x200000, 0x7000, true, true, false, false⟩).run (poolStart []) =
      .ok () u ∧
    ¬ LeavesInOrder [] ⟨0x200000, 0x7000, true, true, false, false⟩ (poolStart []) u := by
  have pool := isPoolFrame_poolStart_nil
  obtain ⟨i, written⟩ := mapPage_writes_misplaced (pool _ List.mem_cons_self).1
    (fun a ha => pool a (List.mem_cons_of_mem _ ha)) (fails_poolStart_nil _)
  have clear : ((poolStart []).mem (misplaced i)).getLsbD 0 = false := by
    show (0 : U8).getLsbD 0 = false
    decide
  obtain ⟨fails, u, run, set⟩ := written (poolStart []) ⟨fun _ _ => rfl, clear, rfl, rfl, rfl⟩
  exact ⟨fails, u, run, not_leavesInOrder pool clear set⟩

end Built

end Bintos
