import Mathlib.Data.List.Find
import Bintos.Vm.Refine

/-!
# The last call for a page

From a zeroed PML4, sequences of `mapPage` calls make the processor translate every page as the last
call for it requested (`mapPages_refines`), as long as no call reuses a table at or above `2 ^ 40`: the
pointer of the entry is shifted in 40 bits there, and the call goes on in another frame
(`highTable_loses_page`).  No page becomes accessible from user mode, whatever its call requested
(`userAccess_iff`).
-/

namespace Bintos

/-- What `map_page` is asked to do with a page. -/
structure Outcome where
  /-- the frame number -/
  frame : U64
  writable : Bool
  noExecute : Bool
  writethru : Bool
  deriving DecidableEq, Repr

def Translation.outcome (t : Translation) : Outcome :=
  ⟨t.frame.setWidth 64, t.writable, t.noExecute, t.writethru⟩

def MapCall.outcome (c : MapCall) : Outcome :=
  ⟨c.paddr >>> 12, c.writable, c.noExecute, c.writethru⟩

/-- The last of the calls with the virtual page of `v`. -/
def lastCall (calls : List MapCall) (v : U64) : Option MapCall :=
  calls.reverse.find? fun c => c.vaddr >>> 12 = v >>> 12

section LastCall

variable {α : Type}

/-- The PML4 is a zeroed page and the only frame in use. -/
structure ZeroedPml4 {frameAlloc : Bool → Kern α U64} (source : FrameSource frameAlloc)
    (s : Machine α) : Prop where
  inv : source.Inv [s.pml4Addr] s
  aligned : PageAligned s.pml4Addr
  zeroed : ∀ x, Mem.InRange s.pml4Addr 4096 x → s.mem x = 0

variable {frameAlloc : Bool → Kern α U64} {source : FrameSource frameAlloc} {s s' : Machine α}
  {calls : List MapCall} {v : U64}

theorem lastCall_mem {c : MapCall} (last : lastCall calls v = some c) :
    c ∈ calls ∧ c.vaddr >>> 12 = v >>> 12 := by
  have found := List.find?_some last
  exact ⟨List.mem_reverse.1 (List.mem_of_find?_eq_some last), by simpa using found⟩

/-- For canonical addresses the indices identify the page. -/
theorem lastCallFor_pageKey (canonical : ∀ c ∈ calls, Canonical c.vaddr) (hv : Canonical v) :
    lastCallFor calls (pageKey v) = lastCall calls v := by
  refine List.find?_congr fun c hc => ?_
  rw [decide_eq_decide]
  exact pageKey_eq_iff (canonical c (List.mem_reverse.1 hc)) hv

theorem outcome_translation {c : MapCall} (low : c.paddr.toNat < 2 ^ 52) :
    c.translation.outcome = c.outcome := by
  have frame : (Entry.frame c.paddr).setWidth 64 = c.paddr >>> 12 := by
    apply BitVec.eq_of_toNat_eq
    rw [Entry.frame, BitVec.toNat_setWidth, BitVec.extractLsb'_toNat, BitVec.toNat_ushiftRight,
      Nat.shiftRight_eq_div_pow]
    omega
  rw [MapCall.translation, Translation.outcome, MapCall.outcome, frame]

/-- The calls return and the walk of every address gives what the last call for its page requested,
unless the allocator stops. -/
theorem ZeroedPml4.mapPages_cases (start : ZeroedPml4 source s) (low : LowRun frameAlloc s calls) :
    (∃ taken' s', (mapPages frameAlloc calls).run s = .ok () s' ∧ source.Inv taken' s' ∧
      MapsPages [s.pml4Addr] s calls taken' s' ∧ ∀ v, walk s'.mem s'.pml4Addr v =
        (lastCallFor calls (pageKey v)).map MapCall.translation) ∨
    source.Stops (1 + 3 * calls.length) ((mapPages frameAlloc calls).run s) := by
  obtain ⟨tables, empty⟩ := tableTree_of_zeroed start.aligned start.zeroed
  rcases Bintos.mapPages_cases source start.inv tables low with ⟨taken', s', run, inv, after⟩ | stops
  · exact Or.inl ⟨taken', s', run, inv, after, after.walk_eq empty⟩
  · exact Or.inr stops

end LastCall

/-! ### Pools of frames -/

/-- Zeroed memory with the PML4 at `0x1000` and a pool of frames. -/
def poolStart (frames : List U64) : Machine (List U64) where
  mem := fun _ => 0
  hhdmoff := 0xffff800000000000#64
  pml4Addr := 0x1000
  cr3 := none
  trace := []
  alloc := frames

theorem zeroedPml4_poolStart {frames : List U64}
    (distinct : (0x1000 :: frames).Nodup) (aligned : ∀ a ∈ frames, PageAligned a ∧ a.toNat < 2 ^ 52) :
    ZeroedPml4 (popSource (0x1000 :: frames)) (poolStart frames) where
  inv := by
    rw [List.nodup_cons] at distinct
    refine ⟨fun a ha => ⟨(aligned a ha).1, (aligned a ha).2, fun taken => ?_⟩, distinct.2, ?_, rfl⟩
    · rw [List.mem_singleton.1 taken] at ha
      exact distinct.1 ha
    · intro b hb
      rw [List.mem_singleton.1 hb]
      exact show PageAligned 0x1000 by decide
  aligned := show PageAligned 0x1000 by decide
  zeroed _ _ := rfl

/-- A pool below `2 ^ 40` has no higher table to reuse. -/
theorem lowRun_poolStart {frames : List U64} (distinct : (0x1000 :: frames).Nodup)
    (aligned : ∀ a ∈ frames, PageAligned a ∧ a.toNat < 2 ^ 40) (calls : List MapCall) :
    LowRun popFrame (poolStart frames) calls := by
  have start := zeroedPml4_poolStart distinct fun a ha =>
    ⟨(aligned a ha).1, (aligned a ha).2.trans (by decide)⟩
  refine lowRun_of_frames (popSource (0x1000 :: frames)) start.inv
    (tableTree_of_zeroed start.aligned start.zeroed).1 fun taken t supply b hb => ?_
  have supply : Supply (0x1000 :: frames) taken t := supply
  have member : b ∈ 0x1000 :: frames := by
    rw [← supply.order]
    exact List.mem_append_left _ (List.mem_reverse.2 hb)
  rcases List.mem_cons.1 member with rfl | pooled
  · decide
  · exact (aligned b pooled).2

/-- Four frames are enough for one call. -/
def fourFrames : Machine (List U64) := poolStart [0x2000, 0x3000, 0x4000, 0x5000]

theorem zeroedPml4_fourFrames :
    ZeroedPml4 (popSource [0x1000, 0x2000, 0x3000, 0x4000, 0x5000]) fourFrames :=
  zeroedPml4_poolStart (by decide) (by simp [PageAligned])

theorem lowRun_fourFrames (calls : List MapCall) : LowRun popFrame fourFrames calls :=
  lowRun_poolStart (by decide) (by simp [PageAligned]) calls

theorem fourFrames_returns (c : MapCall) :
    ∃ s', (mapPages popFrame [c]).run fourFrames = .ok () s' := by
  obtain ⟨_, s', returns, -⟩ := (zeroedPml4_fourFrames.mapPages_cases
    (lowRun_fourFrames [c])).resolve_right (popSource_supplies (by simp)).not_stops
  exact ⟨s', returns⟩

/-! ### Refinement -/

section Refinement

variable {α : Type} {frameAlloc : Bool → Kern α U64} {source : FrameSource frameAlloc}
  {s : Machine α} {calls : List MapCall}

/-- The page tables are the finite map from pages to the last requests for them. -/
def Refines (calls : List MapCall) (s : Machine α) : Prop :=
  ∀ v, Canonical v → (walk s.mem s.pml4Addr v).map Translation.outcome =
    (lastCall calls v).map MapCall.outcome

/-- **Refinement.**  As long as no call reuses a table at or above `2 ^ 40`, the calls return and the
page tables are the map of the last requests, unless the allocator stops. -/
theorem mapPages_refines (start : ZeroedPml4 source s)
    (requests : ∀ c ∈ calls, Canonical c.vaddr ∧ c.paddr.toNat < 2 ^ 52)
    (low : LowRun frameAlloc s calls) :
    (∃ s', (mapPages frameAlloc calls).run s = .ok () s' ∧ Refines calls s') ∨
    source.Stops (1 + 3 * calls.length) ((mapPages frameAlloc calls).run s) := by
  rcases start.mapPages_cases low with ⟨taken', s', run, -, -, walks⟩ | stops
  swap
  · exact Or.inr stops
  refine Or.inl ⟨s', run, fun v hv => ?_⟩
  rw [walks v, lastCallFor_pageKey (fun c hc => (requests c hc).1) hv]
  cases last : lastCall calls v with
  | none => rfl
  | some c =>
    have physical := (requests c (lastCall_mem last).1).2
    rw [Option.map_some, Option.map_some, Option.map_some, outcome_translation physical]

end Refinement

/-- Frames for the tables of four calls. -/
def thirteenFrames : Machine (List U64) :=
  poolStart [0x2000, 0x3000, 0x4000, 0x5000, 0x6000, 0x7000, 0x8000, 0x9000, 0xa000, 0xb000, 0xc000,
    0xd000, 0xe000]

theorem zeroedPml4_thirteenFrames : ZeroedPml4 (popSource [0x1000, 0x2000, 0x3000, 0x4000, 0x5000, 0x6000,
    0x7000, 0x8000, 0x9000, 0xa000, 0xb000, 0xc000, 0xd000, 0xe000]) thirteenFrames :=
  zeroedPml4_poolStart (by decide) (by simp [PageAligned])

theorem lowRun_thirteenFrames (calls : List MapCall) : LowRun popFrame thirteenFrames calls :=
  lowRun_poolStart (by decide) (by simp [PageAligned]) calls

/-- Two pages of one page table, the second one again, and a page with tables of its own. -/
def sharingCalls : List MapCall :=
  [⟨0x8040200000, 0x17000, true, true, false, false⟩,
    ⟨0x8040205000, 0x18000, true, true, false, false⟩,
    ⟨0x8040205000, 0x19000, false, true, true, false⟩,
    ⟨0xffffffff80000000, 0x1a000, true, false, false, true⟩]

/-- The second and the third call reuse the tables of the first one. -/
theorem sharingCalls_refines : ∃ s', (mapPages popFrame sharingCalls).run thirteenFrames = .ok () s' ∧
    Refines sharingCalls s' :=
  (mapPages_refines zeroedPml4_thirteenFrames (by simp [sharingCalls, Canonical])
    (lowRun_thirteenFrames _)).resolve_right (popSource_supplies (by decide)).not_stops

/-- Three frames; the first one will be a table at `2 ^ 40 + 0x1000`. -/
def highFrames : List U64 := [0x10000001000#64, 0x2000#64, 0x3000#64]

/-- A page with the indices 1, 1, 1 and 0. -/
def highFirst : MapCall := ⟨0x8040200000#64, 0x7000#64, true, true, false, false⟩

/-- A page of the same page table. -/
def highSecond : MapCall := ⟨0x8040205000#64, 0x8000#64, true, true, false, false⟩

theorem zeroedPml4_highFrames :
    ZeroedPml4 (popSource (0x1000 :: highFrames)) (poolStart highFrames) :=
  zeroedPml4_poolStart (by decide) (by simp [highFrames, PageAligned])

theorem way_highFirst : way highFirst.vaddr = [[1#9], [1#9, 1#9], [1#9, 1#9, 1#9]] := by decide

/-- The first call reuses nothing. -/
theorem nothing_on_highFirst :
    ∀ q ∈ way highFirst.vaddr, tableAt (poolStart highFrames) q = none := by
  intro q on_way
  apply tableAt_of_zeroed zeroedPml4_highFrames.aligned zeroedPml4_highFrames.zeroed
  rintro rfl
  simp [way_highFirst] at on_way

theorem reusesLow_highFirst : ReusesLow (poolStart highFrames) highFirst.vaddr := by
  intro q on_way table found
  rw [nothing_on_highFirst q on_way] at found
  cases found

/-- After the first call, the three tables are the frames of the pool. -/
theorem highFirst_spec : ∃ s, (mapPage popFrame highFirst).run (poolStart highFrames) = .ok () s ∧
    s.pml4Addr = 0x1000 ∧ TableTree [0x3000#64, 0x2000#64, 0x10000001000#64, 0x1000] s ∧
    tableAt s [1#9] = some 0x10000001000#64 ∧ tableAt s [1#9, 1#9] = some 0x2000#64 ∧
    tableAt s [1#9, 1#9, 1#9] = some 0x3000#64 ∧ pteAt s [1#9, 1#9, 1#9] 5#9 = 0 := by
  have start := zeroedPml4_highFrames
  obtain ⟨tables, empty⟩ := tableTree_of_zeroed start.aligned start.zeroed
  obtain ⟨taken, s, run, supply, step⟩ :=
    (mapPage_cases (popSource (0x1000 :: highFrames)) start.inv tables
      reusesLow_highFirst).resolve_right (popSource_supplies (by decide)).not_stops
  obtain ⟨t₁, at₁⟩ := Option.ne_none_iff_exists'.1 (step.found (q := [1#9]) (by decide))
  obtain ⟨t₂, at₂⟩ := Option.ne_none_iff_exists'.1 (step.found (q := [1#9, 1#9]) (by decide))
  obtain ⟨t₃, at₃⟩ := Option.ne_none_iff_exists'.1 (step.found (q := [1#9, 1#9, 1#9]) (by decide))
  have grown : taken = [t₃, t₂, t₁, 0x1000] := by
    have missing : (way highFirst.vaddr).filter (tableAt (poolStart highFrames) · = none) =
        way highFirst.vaddr :=
      List.filter_eq_self.2 fun q hq => decide_eq_true (nothing_on_highFirst q hq)
    rw [step.grown, missing, way_highFirst]
    simp [at₁, at₂, at₃, poolStart]
  have supply : Supply (0x1000 :: highFrames) taken s := supply
  have order := supply.order
  simp only [grown, highFrames, List.reverse_cons, List.reverse_nil, List.nil_append,
    List.cons_append, List.cons.injEq, true_and] at order
  obtain ⟨rfl, rfl, rfl, -⟩ := order
  refine ⟨s, run, step.pml4Addr, grown ▸ step.tables, at₁, at₂, at₃, ?_⟩
  rw [step.ptes _ _ rfl, if_neg (by decide), empty _ _ rfl]

/-- The 40-bit shift of the first entry is the PML4. -/
theorem highEntry_back {taken : List U64} {s : Machine (List U64)} (tables : TableTree taken s)
    (root : s.pml4Addr = 0x1000) (at₁ : tableAt s [1#9] = some 0x10000001000#64) :
    Entry.present (word s.mem s.pml4Addr 1#9) = true ∧
      (Entry.frame (word s.mem s.pml4Addr 1#9) <<< 12).setWidth 64 = s.pml4Addr := by
  rcases presentEntry_eq tables (p := []) (by decide) rfl 1#9 with ⟨absent, -⟩ | ⟨f, entry, target⟩
  · rw [List.nil_append, at₁] at absent
    cases absent
  · obtain ⟨word₁, present⟩ := presentEntry_eq_some.1 entry
    rw [List.nil_append, at₁, Option.some_inj] at target
    refine ⟨by rw [word₁, present], ?_⟩
    apply BitVec.eq_of_toNat_eq
    rw [toNat_shift_frame, word₁, ← target, root]
    decide

/-- Where the 40-bit shift of a PML4 entry's pointer is the PML4 itself, a call with that index at
every level takes the PML4 for each of its tables. -/
theorem run_mapPage_back {α : Type} (frameAlloc : Bool → Kern α U64) {s : Machine α} {i : BitVec 9}
    (present : Entry.present (word s.mem s.pml4Addr i) = true)
    (back : (Entry.frame (word s.mem s.pml4Addr i) <<< 12).setWidth 64 = s.pml4Addr) {c : MapCall}
    (i₃ : index 3 c.vaddr = i) (i₂ : index 2 c.vaddr = i) (i₁ : index 1 c.vaddr = i) :
    ∃ s', (mapPage frameAlloc c).run s = .ok () s' ∧ s'.pml4Addr = s.pml4Addr ∧ s'.alloc = s.alloc ∧
      s'.mem = s.mem.writeWord (entryAddr s.pml4Addr (index 0 c.vaddr))
        (pteWord c (word s.mem s.pml4Addr (index 0 c.vaddr))) := by
  have again {F : Type} [DecidableEq F] [Packed F] {p ptr : F} {link : U64 → List (F × U64)}
      (links : Links p ptr link) (t : Machine α) (mem : t.mem = s.mem)
      (offset : t.hhdmoff = s.hhdmoff) : ∃ t', (nextTable frameAlloc p ptr link
        (s.pml4Addr + s.hhdmoff + 8 * i.setWidth 64)).run t = .ok (s.pml4Addr + s.hhdmoff) t' ∧
          t'.mem = s.mem ∧ t'.hhdmoff = s.hhdmoff ∧ t'.pml4Addr = t.pml4Addr ∧ t'.alloc = t.alloc := by
    have address : s.pml4Addr + s.hhdmoff + 8 * i.setWidth 64 =
        s.pml4Addr + t.hhdmoff + 8 * i.setWidth 64 := by rw [offset]
    have run := run_nextTable_present links frameAlloc address (mem ▸ present)
    rw [mem, back, offset] at run
    exact ⟨_, run, mem, offset, rfl, rfl⟩
  obtain ⟨s₁, run₁, mem₁, off₁, root₁, pool₁⟩ := again links_pml4e s rfl rfl
  obtain ⟨s₂, run₂, mem₂, off₂, root₂, pool₂⟩ := again links_pdpe s₁ mem₁ off₁
  obtain ⟨s₃, run₃, mem₃, off₃, root₃, pool₃⟩ := again links_pde s₂ mem₂ off₂
  refine ⟨_, run_mapPage_of_ok (i₃ ▸ run₁) (i₂ ▸ run₂) (i₁ ▸ run₃),
    root₃.trans (root₂.trans root₁), pool₃.trans (pool₂.trans pool₁), ?_⟩
  rw [storeFields, ← off₃, v2p_entry, mem₃]
  rfl

/-- The second call stores its page-table entry to entry 5 of the PML4. -/
theorem run_highSecond {α : Type} (frameAlloc : Bool → Kern α U64) {s : Machine α}
    (present : Entry.present (word s.mem s.pml4Addr 1#9) = true)
    (back : (Entry.frame (word s.mem s.pml4Addr 1#9) <<< 12).setWidth 64 = s.pml4Addr) :
    ∃ s', (mapPage frameAlloc highSecond).run s = .ok () s' ∧ s'.pml4Addr = s.pml4Addr ∧
      s'.alloc = s.alloc ∧ s'.mem = s.mem.writeWord (entryAddr s.pml4Addr 5#9)
        (pteWord highSecond (word s.mem s.pml4Addr 5#9)) := by
  have i₀ : index 0 highSecond.vaddr = 5#9 := by decide
  rw [← i₀]
  exact run_mapPage_back frameAlloc present back (by decide) (by decide) (by decide)

/-- The second call reuses the table at `2 ^ 40 + 0x1000`, takes the PML4 for it at every level, and
its page is not mapped. -/
theorem highTable_loses_page :
    (∀ c ∈ [highFirst, highSecond], Canonical c.vaddr ∧ c.paddr.toNat < 2 ^ 52) ∧
    ZeroedPml4 (popSource (0x1000 :: highFrames)) (poolStart highFrames) ∧
    ∃ s, (mapPages popFrame [highFirst, highSecond]).run (poolStart highFrames) = .ok () s ∧
      walk s.mem s.pml4Addr highSecond.vaddr = none ∧ ¬ Refines [highFirst, highSecond] s := by
  refine ⟨by simp [highFirst, highSecond, Canonical], zeroedPml4_highFrames, ?_⟩
  obtain ⟨s, first, root, tables, at₁, at₂, at₃, pte⟩ := highFirst_spec
  have entry₁ := presentEntry_eq tables (p := []) (by decide) rfl 1#9
  have entry₂ := presentEntry_eq tables (p := [1#9]) (by decide) at₁ 1#9
  have entry₃ := presentEntry_eq tables (p := [1#9, 1#9]) (by decide) at₂ 1#9
  simp only [List.nil_append, List.cons_append, at₁, at₂, at₃, root, reduceCtorEq, false_and,
    false_or, Option.some_inj] at entry₁ entry₂ entry₃
  obtain ⟨f₁, walk₁, target₁⟩ := entry₁
  obtain ⟨f₂, walk₂, target₂⟩ := entry₂
  obtain ⟨f₃, walk₃, target₃⟩ := entry₃
  have i₃ : index 3 highSecond.vaddr = 1#9 := by decide
  have i₂ : index 2 highSecond.vaddr = 1#9 := by decide
  have i₁ : index 1 highSecond.vaddr = 1#9 := by decide
  have i₀ : index 0 highSecond.vaddr = 5#9 := by decide
  obtain ⟨present, back⟩ := highEntry_back tables root at₁
  obtain ⟨s', second, root', -, stored⟩ := run_highSecond popFrame present back
  rw [root] at stored
  rw [root] at root'
  -- the entries on the way to the page are as the first call left them
  have kept : ∀ table : U64, PageAligned table → ∀ j, table ≠ 0x1000 ∨ j ≠ 5#9 →
      presentEntry s'.mem table j = presentEntry s.mem table j := by
    intro table aligned j other
    apply presentEntry_congr
    rw [stored, word_writeWord (by decide) aligned, if_neg]
    rintro ⟨rfl, rfl⟩
    simp at other
  have absent : presentEntry s.mem 0x3000#64 5#9 = none := by
    rw [pteAt_eq, at₃, Option.map_some, Option.getD_some] at pte
    rw [presentEntry, pte]
    rfl
  have lost : walk s'.mem s'.pml4Addr highSecond.vaddr = none := by
    rw [walk, i₃, i₂, i₁, i₀, root', kept _ (by decide) _ (by decide), walk₁]
    simp only [Option.bind_eq_bind, Option.bind_some]
    rw [← target₁, kept _ (by decide) _ (by decide), walk₂]
    simp only [Option.bind_some]
    rw [← target₂, kept _ (by decide) _ (by decide), walk₃]
    simp only [Option.bind_some]
    rw [← target₃, kept _ (by decide) _ (by decide), absent]
    rfl
  refine ⟨s', ?_, lost, fun refines => ?_⟩
  · rw [run_mapPages_cons, first]
    show (mapPages popFrame [highSecond]).run s = _
    rw [run_mapPages_cons, second]
    rfl
  · have page := refines highSecond.vaddr (by decide)
    rw [lost] at page
    exact absurd page (by decide)

/-! ### Access from user mode -/

section User

variable {α : Type} {frameAlloc : Bool → Kern α U64} {source : FrameSource frameAlloc}
  {s s' : Machine α} {calls : List MapCall} {v : U64}

/-- The walk of `v` succeeds with the bit for user mode set in every entry. -/
def UserAccessible (s : Machine α) (v : U64) : Prop :=
  ∃ t, walk s.mem s.pml4Addr v = some t ∧ t.user = true

theorem ZeroedPml4.walk_eq (start : ZeroedPml4 source s) (low : LowRun frameAlloc s calls)
    (returns : (mapPages frameAlloc calls).run s = .ok () s') (v : U64) :
    walk s'.mem s'.pml4Addr v = (lastCallFor calls (pageKey v)).map MapCall.translation := by
  rcases start.mapPages_cases low with ⟨_, s₁, run, -, -, walks⟩ | stops
  · rw [returns, EStateM.Result.ok.injEq] at run
    obtain ⟨-, rfl⟩ := run
    exact walks v
  · exact absurd returns stops.ne_ok

/-- The entries above the last level never have the bit for user mode. -/
theorem ZeroedPml4.not_userAccessible (start : ZeroedPml4 source s)
    (low : LowRun frameAlloc s calls) (returns : (mapPages frameAlloc calls).run s = .ok () s')
    (v : U64) : ¬ UserAccessible s' v := by
  rintro ⟨t, here, user⟩
  rw [start.walk_eq low returns, Option.map_eq_some_iff] at here
  obtain ⟨c, -, rfl⟩ := here
  cases user

/-- **User pages.**  As long as no call reuses a table at or above `2 ^ 40`, access from user mode is
what the last call for the page requested exactly when it requested a supervisor page. -/
theorem userAccess_iff (start : ZeroedPml4 source s) (canonical : ∀ c ∈ calls, Canonical c.vaddr)
    (low : LowRun frameAlloc s calls) (returns : (mapPages frameAlloc calls).run s = .ok () s')
    (hv : Canonical v) {c : MapCall} (last : lastCall calls v = some c) :
    (∃ t, walk s'.mem s'.pml4Addr v = some t) ∧
      ((UserAccessible s' v ↔ c.isSupervisor = false) ↔ c.isSupervisor = true) := by
  constructor
  · rw [start.walk_eq low returns, lastCallFor_pageKey canonical hv, last]
    exact ⟨c.translation, rfl⟩
  · rw [iff_false_left (start.not_userAccessible low returns v), Bool.not_eq_false]

end User

/-- A request for a supervisor page is honoured. -/
theorem fourFrames_supervisor : ∃ s',
    (mapPages popFrame [⟨0x200000, 0x7000, true, true, false, false⟩]).run fourFrames = .ok () s' ∧
      (UserAccessible s' 0x200000 ↔ true = false) := by
  obtain ⟨s', returns⟩ := fourFrames_returns ⟨0x200000, 0x7000, true, true, false, false⟩
  exact ⟨s', returns, (userAccess_iff zeroedPml4_fourFrames (by simp [Canonical])
    (lowRun_fourFrames _) returns (v := 0x200000) (by decide) rfl).2.2 rfl⟩

/-- A request for a user page is not. -/
theorem fourFrames_user : ∃ s',
    (mapPages popFrame [⟨0x200000, 0x7000, false, true, false, false⟩]).run fourFrames = .ok () s' ∧
      ¬ (UserAccessible s' 0x200000 ↔ false = false) := by
  obtain ⟨s', returns⟩ := fourFrames_returns ⟨0x200000, 0x7000, false, true, false, false⟩
  exact ⟨s', returns, fun honoured => zeroedPml4_fourFrames.not_userAccessible
    (lowRun_fourFrames _) returns 0x200000 (honoured.2 rfl)⟩

end Bintos
