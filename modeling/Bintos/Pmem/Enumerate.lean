import Bintos.Pmem.Safety

/-!
# The order of allocation

For indices below `2 ^ 31` the calls of a run return the pages of the regions one after the other, up
to the 32-bit product that turns what is left of the index into an offset (`answer_eq`).  Hence on
ordinary machines the allocator enumerates the pages of its table (`enumerates`), no frame is handed
out twice exactly when no region has more than `2 ^ 20` pages (`noDoubleAllocation_iff`), and the end
of memory is never reported (`not_exhaustionReported`).
-/

namespace Bintos

/-- The pages counted in the region table of a kernel. -/
def tablePages (s : Kernel) : ℕ :=
  Segments.total (·.pages.toNat) (s.alloc.regionInfo.take s.alloc.numRegions.toNat)

/-- The pages of the regions of the table, one region after the other. -/
def pageSequence (s : Kernel) : List U64 :=
  Segments.concat (·.pages.toNat) Region.page (s.alloc.regionInfo.take s.alloc.numRegions.toNat)

/-- In no run do two calls return the same address, unless it is -1. -/
def NoDoubleAllocation (s₀ : Kernel) : Prop :=
  ∀ rs s, Run s₀ rs s → ∀ (i j : ℕ) (a : U64),
    i ≠ j → rs[i]? = some a → rs[j]? = some a → a = -1

/-- In every run the next call returns, with an address as long as there are pages in the table that
have not been handed out, and with -1 from then on. -/
def ExhaustionReported (s₀ : Kernel) : Prop :=
  ∀ rs s, Run s₀ rs s → ∀ zeroed, ∃ a s', (frameAlloc zeroed).run s = .ok a s' ∧
    (rs.length < tablePages s₀ → a ≠ -1) ∧ (tablePages s₀ ≤ rs.length → a = -1)

section Run

variable {m : List MemmapEntry} {off : U64} {fuel : ℕ} {mem : Mem} {s₀ s : Kernel} {rs : List U64}

theorem Started.tablePages_eq (hs : Started m off s) : tablePages s = capacity m := by
  rw [tablePages, hs.numRegions, hs.regionInfo, capacity]

theorem Started.pageSequence_eq (hs : Started m off s) :
    pageSequence s = Segments.concat (·.pages.toNat) Region.page (regions m) := by
  rw [pageSequence, hs.numRegions, hs.regionInfo]

/-- Call number `k` returns the page of its place in the table, modulo `2 ^ 20` pages. -/
theorem answer_eq {k : ℕ} (more : k < frames m) (small : k < 2 ^ 31) :
    answer m k = (Segments.locate (fun r : Region => r.pages.toNat) (regions m) k).map
      fun p => p.1.page (p.2 % 2 ^ 20) := by
  have index : (BitVec.ofNat 64 k).toNat = k := by
    rw [BitVec.toNat_ofNat, Nat.mod_eq_of_lt (by omega)]
  rw [answer, if_pos more, walkTable_eq_locate (by rw [index]; exact small), index, Option.map_map]
  cases place : Segments.locate (fun r : Region => r.pages.toNat) (regions m) k with
  | none => rfl
  | some p =>
    have bound := (Segments.locate_some place).2
    have page := p.1.pages.isLt
    simp only [Option.map_some, Function.comp_apply, walkAddr_eq_page, BitVec.toNat_ofNat]
    rw [Nat.mod_eq_of_lt (show p.2 < 2 ^ 64 by omega)]

/-! ### Numbers -/

theorem frames_le_of_pages (hm : Conformant m) (small : ∀ r ∈ regions m, r.pages.toNat ≤ 2 ^ 20) :
    frames m < 2 ^ 31 := by
  have few := length_usable_le hm
  have sum := capacity_add_lost hm
  have kept : capacity m ≤ (regions m).length * 2 ^ 20 := Segments.total_le_length_mul _ small
  have lost : Segments.total (lostPages m) (usable m) ≤ (usable m).length * bitmapPages m := by
    refine Segments.total_le_length_mul _ fun e _ => ?_
    unfold lostPages
    split_ifs
    · exact le_rfl
    · exact Nat.zero_le _
  rw [length_regions] at kept
  have kept : capacity m ≤ 32 * 2 ^ 20 := kept.trans (Nat.mul_le_mul_right _ few)
  have lost : Segments.total (lostPages m) (usable m) ≤ 32 * bitmapPages m :=
    lost.trans (Nat.mul_le_mul_right _ few)
  unfold bitmapPages bitmapBytes at lost
  omega

/-- Some usable entry is long enough for the bitmap. -/
theorem exists_home (hm : Conformant m) (some_frame : 1 ≤ frames m) : ∃ e, home m = some e := by
  have some_entry : usable m ≠ [] := by
    intro none
    simp [frames, freeSpace, none] at some_frame
  obtain ⟨e, he, long⟩ := Segments.exists_total_le_mul (fun e => e.length.toNat) some_entry
    (length_usable_le hm)
  have fits : Fits m e := by
    unfold Fits bitmapBytes frames freeSpace
    omega
  have found : (usable m).filter (Fits m ·) ≠ [] :=
    List.ne_nil_of_mem (List.mem_filter.2 ⟨he, by simpa using fits⟩)
  exact ⟨_, List.getLast?_eq_getLast_of_ne_nil found⟩

/-- Without large regions the answers are the pages of the table. -/
theorem answer_eq_page (hm : Conformant m) (small : ∀ r ∈ regions m, r.pages.toNat ≤ 2 ^ 20) {k : ℕ}
    (more : k < frames m) :
    answer m k = (Segments.concat (·.pages.toNat) Region.page (regions m))[k]? := by
  have bound := frames_le_of_pages hm small
  rw [answer_eq more (by omega), Segments.getElem?_concat]
  cases place : Segments.locate (fun r : Region => r.pages.toNat) (regions m) k with
  | none => rfl
  | some p =>
    obtain ⟨mem, inside⟩ := Segments.locate_some place
    have page := small p.1 mem
    rw [Option.map_some, Option.map_some, Nat.mod_eq_of_lt (by omega)]

/-- The pages of the table are distinct. -/
theorem nodup_pages (hm : Conformant m) :
    (Segments.concat (·.pages.toNat) Region.page (regions m)).Nodup := by
  apply Segments.nodup_concat
  · intro r hr j hj k hk same
    obtain ⟨e, he, rfl⟩ := List.mem_map.1 hr
    have addresses := congrArg BitVec.toNat same
    rw [toNat_finalRegion_page hm he hj, toNat_finalRegion_page hm he hk] at addresses
    omega
  · rw [regions, List.pairwise_map]
    refine hm.apart.imp_of_mem fun {e e'} he he' apart j hj k hk same => ?_
    have addresses := congrArg BitVec.toNat same
    rw [toNat_finalRegion_page hm he hj, toNat_finalRegion_page hm he' hk] at addresses
    rw [toNat_finalRegion_pages hm he] at hj
    rw [toNat_finalRegion_pages hm he'] at hk
    unfold MemmapEntry.extent at apart
    rw [Set.Ico_disjoint_Ico] at apart
    omega

/-- As long as the answers are addresses, there are runs. -/
theorem exists_run (hm : Conformant m)
    (returns : (initializeMemmap fuel m off).run (atBoot mem) = .ok () s₀) {n : ℕ}
    (inside : n ≤ 2 * bitmapBytes m) (answers : ∀ k < n, answer m k ≠ none) :
    ∃ rs s, Run s₀ rs s ∧ rs.length = n := by
  induction n with
  | zero => exact ⟨[], s₀, .start, rfl⟩
  | succ n ih =>
    obtain ⟨rs, s, run, length⟩ := ih (by omega) fun k hk => answers k (by omega)
    obtain ⟨a, value⟩ := Option.ne_none_iff_exists'.1 (answers n (by omega))
    obtain ⟨s', call⟩ := run.extend hm returns (by omega) (length ▸ value) false
    exact ⟨rs ++ [a], s', .call false run call, by simp [length]⟩

/-! ### Ordinary machines -/

theorem pages_le_of_length (hm : Conformant m)
    (ordinary : ∀ e ∈ usable m, e.length.toNat ≤ 2 ^ 32) :
    ∀ r ∈ regions m, r.pages.toNat ≤ 2 ^ 20 := by
  intro r hr
  obtain ⟨e, he, rfl⟩ := List.mem_map.1 hr
  have length := ordinary e he
  rw [toNat_finalRegion_pages hm he]
  omega

/-- **Enumeration.**  When no usable entry is longer than 4 GiB, start-up finds room for the bitmap
and finishes, and in every run afterwards call number `k` returns page `k` of the table. -/
theorem enumerates (hm : Conformant m) (two : 2 ≤ frames m)
    (ordinary : ∀ e ∈ usable m, e.length.toNat ≤ 2 ^ 32) :
    (∃ e, home m = some e ∧ (e.base + off ≠ 0 → bitmapBytes m < fuel →
      ∃ s₀, (initializeMemmap fuel m off).run (atBoot mem) = .ok () s₀)) ∧
    ∀ s₀, (initializeMemmap fuel m off).run (atBoot mem) = .ok () s₀ →
      ∀ rs s, Run s₀ rs s → rs.length < tablePages s₀ → ∀ zeroed,
        ∃ a s', (pageSequence s₀)[rs.length]? = some a ∧ (frameAlloc zeroed).run s = .ok a s' := by
  have small := pages_le_of_length hm ordinary
  have bound := frames_le_of_pages hm small
  constructor
  · obtain ⟨e, he⟩ := exists_home hm (by omega)
    refine ⟨e, he, fun mapped enough => initializeMemmap_returns hm he mapped ?_ enough mem⟩
    unfold bitmapBytes
    omega
  · intro s₀ returns rs s run more zeroed
    have started := (initializeMemmap_spec hm returns).1
    obtain ⟨e, he⟩ := exists_home hm (by omega)
    have below := capacity_lt hm (home_mem he).1 (home_mem he).2 two
    rw [started.tablePages_eq] at more
    have inside : rs.length < 2 * bitmapBytes m := by
      unfold bitmapBytes
      omega
    have page : rs.length < (Segments.concat (·.pages.toNat) Region.page (regions m)).length := by
      rw [Segments.length_concat]
      exact more
    have value := answer_eq_page hm small (show rs.length < frames m by omega)
    rw [List.getElem?_eq_getElem page] at value
    obtain ⟨s', call⟩ := run.extend hm returns inside value zeroed
    refine ⟨_, s', ?_, call⟩
    rw [started.pageSequence_eq, List.getElem?_eq_getElem page]

theorem oneEntry_second_page : ∃ s₀ s s',
    (initializeMemmap 2 oneEntry higherHalf).run (atBoot fun _ => 0) = .ok () s₀ ∧
      Run s₀ [0x2000] s ∧ (frameAlloc true).run s = .ok 0x3000 s' := by
  obtain ⟨s₀, s, returns, -, run⟩ := oneEntry_first true
  have started := (initializeMemmap_spec conformant_oneEntry returns).1
  obtain ⟨a, s', page, call⟩ := (enumerates conformant_oneEntry (by decide)
    (by decide)).2 s₀ returns _ s run (by rw [started.tablePages_eq]; decide) true
  rw [started.pageSequence_eq] at page
  have second : a = 0x3000 := Option.some_inj.1 (page.symm.trans (by decide))
  exact ⟨s₀, s, s', returns, run, second ▸ call⟩

/-! ### Double allocation -/

/-- Without large regions no frame is handed out twice. -/
theorem noDoubleAllocation_of_small (hm : Conformant m)
    (returns : (initializeMemmap fuel m off).run (atBoot mem) = .ok () s₀)
    (small : ∀ r ∈ regions m, r.pages.toNat ≤ 2 ^ 20) : NoDoubleAllocation s₀ := by
  intro rs s run i j a different hi hj
  obtain ⟨-, -, answers⟩ := run_ready hm returns run
  by_contra valid
  have place (k : ℕ) (hk : rs[k]? = some a) :
      (Segments.concat (·.pages.toNat) Region.page (regions m))[k]? = some a := by
    have value := answers k a hk
    by_cases more : k < frames m
    · rwa [answer_eq_page hm small more] at value
    · rw [answer, if_neg more, Option.some_inj] at value
      exact absurd value.symm valid
  have inside := (List.getElem?_eq_some_iff.1 (place i hi)).1
  exact different ((List.getElem?_inj inside (nodup_pages hm)).1
    ((place i hi).trans (place j hj).symm))

/-- In a region of more than `2 ^ 20` pages, page `2 ^ 20` gets the address of page 0. -/
theorem answer_wraps (hm : Conformant m) {r : Region} (hr : r ∈ regions m)
    (large : 2 ^ 20 < r.pages.toNat) :
    ∃ i j, i < j ∧ j < capacity m ∧ j < 2 ^ 31 ∧ answer m i = answer m j := by
  have few := length_usable_le hm
  obtain ⟨r, found⟩ := Option.isSome_iff_exists.1
    (List.find?_isSome.2 ⟨r, hr, decide_eq_true large⟩ :
      ((regions m).find? fun r => 2 ^ 20 < r.pages.toNat).isSome)
  obtain ⟨large, before, after, split, first⟩ := List.find?_eq_some_iff_append.1 found
  have large : 2 ^ 20 < r.pages.toNat := of_decide_eq_true large
  have small : ∀ r ∈ before, r.pages.toNat ≤ 2 ^ 20 := fun r hr => by simpa using first r hr
  have skipped := Segments.total_le_length_mul (fun r : Region => r.pages.toNat) small
  have length : before.length + 1 ≤ 32 := by
    have := congrArg List.length split
    rw [length_regions, List.length_append, List.length_cons] at this
    omega
  have total : capacity m = Segments.total (fun r : Region => r.pages.toNat) before +
      (r.pages.toNat + Segments.total (fun r : Region => r.pages.toNat) after) := by
    rw [capacity, split, Segments.total_append, Segments.total_cons]
  have below := capacity_le hm
  have place (i : ℕ) (hi : i < r.pages.toNat) :
      Segments.locate (fun r : Region => r.pages.toNat) (regions m)
        (Segments.total (fun r : Region => r.pages.toNat) before + i) = some (r, i) := by
    rw [split, Segments.locate_append, Segments.locate, if_pos hi]
  refine ⟨Segments.total (fun r : Region => r.pages.toNat) before + 0,
    Segments.total (fun r : Region => r.pages.toNat) before + 2 ^ 20, by omega, by omega, ?_, ?_⟩
  · have : before.length * 2 ^ 20 ≤ 31 * 2 ^ 20 := Nat.mul_le_mul_right _ (by omega)
    omega
  · rw [answer_eq (by omega) (by omega), answer_eq (by omega) (by omega), place 0 (by omega),
      place (2 ^ 20) large, Option.map_some, Option.map_some, Nat.mod_self, Nat.zero_mod]

theorem answer_ne_none {k : ℕ} (more : k < capacity m) (few : capacity m ≤ frames m)
    (small : k < 2 ^ 31) : answer m k ≠ none := by
  rw [answer_eq (more.trans_le few) small, ne_eq, Option.map_eq_none_iff,
    Segments.locate_eq_none_iff]
  exact not_le.2 more

/-- With a large region, some frame is handed out twice. -/
theorem not_noDoubleAllocation (hm : Conformant m)
    (returns : (initializeMemmap fuel m off).run (atBoot mem) = .ok () s₀) {e : MemmapEntry}
    (he : e ∈ usable m) (large : 2 ^ 20 + lostPages m e < e.length.toNat / 4096) :
    ¬ NoDoubleAllocation s₀ := by
  intro none
  have pages : 2 ^ 20 < (finalRegion m e).pages.toNat := by
    rw [toNat_finalRegion_pages hm he]
    omega
  obtain ⟨i, j, order, counted, small, same⟩ := answer_wraps hm (List.mem_map_of_mem he) pages
  have few := capacity_le hm
  obtain ⟨h, home, -⟩ := (initializeMemmap_spec hm returns).1.frameMap
  have below := capacity_lt hm (home_mem home).1 (home_mem home).2 (by omega)
  obtain ⟨rs, s, run, length⟩ := exists_run hm returns (n := j + 1)
    (by unfold bitmapBytes; omega) fun k hk => answer_ne_none (by omega) few (by omega)
  obtain ⟨-, -, answers⟩ := run_ready hm returns run
  have first := List.getElem?_eq_getElem (show i < rs.length by omega)
  have second := List.getElem?_eq_getElem (show j < rs.length by omega)
  have equal : rs[j] = rs[i] := by
    rw [← Option.some_inj, ← answers j _ second, ← same, answers i _ first]
  have frame := isFrame_of_lt hm (by omega) (answers i _ first)
  exact frame.ne_neg_one hm (none rs s run i j _ order.ne first (equal ▸ second))

/-- **No double allocation** exactly when no region is left with more than `2 ^ 20` pages. -/
theorem noDoubleAllocation_iff (hm : Conformant m)
    (returns : (initializeMemmap fuel m off).run (atBoot mem) = .ok () s₀) :
    NoDoubleAllocation s₀ ↔ ∀ e ∈ usable m, e.length.toNat / 4096 ≤ 2 ^ 20 + lostPages m e := by
  constructor
  · intro none e he
    by_contra large
    exact not_noDoubleAllocation hm returns he (not_le.1 large) none
  · intro small
    refine noDoubleAllocation_of_small hm returns fun r hr => ?_
    obtain ⟨e, he, rfl⟩ := List.mem_map.1 hr
    have entry := small e he
    rw [toNat_finalRegion_pages hm he]
    omega

theorem oneEntry_noDoubleAllocation : ∃ s₀,
    (initializeMemmap 2 oneEntry higherHalf).run (atBoot fun _ => 0) = .ok () s₀ ∧
      NoDoubleAllocation s₀ := by
  obtain ⟨s₀, returns⟩ := oneEntry_starts fun _ => 0
  exact ⟨s₀, returns, (noDoubleAllocation_iff conformant_oneEntry returns).2 (by decide)⟩

/-- One usable entry of 5 GiB. -/
def largeEntry : List MemmapEntry := [⟨0x100000, 0x140000000, memmapUsable⟩]

theorem conformant_largeEntry : Conformant largeEntry := by
  constructor <;> simp [usable, largeEntry, memmapUsable]

theorem largeEntry_doubleAllocation : ∃ s₀,
    (initializeMemmap 655361 largeEntry higherHalf).run (atBoot fun _ => 0) = .ok () s₀ ∧
      ¬ NoDoubleAllocation s₀ := by
  obtain ⟨s₀, returns⟩ : ∃ s₀,
      (initializeMemmap 655361 largeEntry higherHalf).run (atBoot fun _ => 0) = .ok () s₀ :=
    initializeMemmap_returns conformant_largeEntry (e := ⟨0x100000, 0x140000000, memmapUsable⟩)
      (by decide) (by decide) (by decide) (by decide) _
  exact ⟨s₀, returns, not_noDoubleAllocation conformant_largeEntry returns
    (e := ⟨0x100000, 0x140000000, memmapUsable⟩) (by decide) (by decide)⟩

/-! ### The end of memory -/

/-- **Exhaustion is never reported**: the cursor reaches the number of pages of the table before it
reaches the number of frames, since the entry with the bitmap has lost a page. -/
theorem not_exhaustionReported (hm : Conformant m) (two : 2 ≤ frames m)
    (returns : (initializeMemmap fuel m off).run (atBoot mem) = .ok () s₀) :
    ¬ ExhaustionReported s₀ := by
  intro reported
  have runs : ∀ n, ∃ rs s, Run s₀ rs s ∧ rs.length = n := by
    intro n
    induction n with
    | zero => exact ⟨[], s₀, .start, rfl⟩
    | succ n ih =>
      obtain ⟨rs, s, run, length⟩ := ih
      obtain ⟨a, s', call, -⟩ := reported rs s run false
      exact ⟨rs ++ [a], s', .call false run call, by simp [length]⟩
  have started := (initializeMemmap_spec hm returns).1
  obtain ⟨h, home, -⟩ := started.frameMap
  have below := capacity_lt hm (home_mem home).1 (home_mem home).2 two
  obtain ⟨rs, s, run, length⟩ := runs (capacity m)
  obtain ⟨a, s', call, -, last⟩ := reported rs s run false
  obtain ⟨ready, cursor, -⟩ := run_ready hm returns run
  have value := (ready.step hm call).1
  rw [cursor, length, min_eq_left below.le] at value
  refine (isFrame_of_lt hm below value).ne_neg_one hm (last ?_)
  rw [started.tablePages_eq, length]

/-- On a machine that the walk can count, the call after the last page of the table halts. -/
theorem call_after_last_halts (hm : Conformant m)
    (returns : (initializeMemmap fuel m off).run (atBoot mem) = .ok () s₀) (run : Run s₀ rs s)
    (length : rs.length = tablePages s₀) (small : rs.length < 2 ^ 31) (two : 2 ≤ frames m)
    (zeroed : Bool) : ∃ t, (frameAlloc zeroed).run s = .error .halted t := by
  have started := (initializeMemmap_spec hm returns).1
  obtain ⟨h, home, -⟩ := started.frameMap
  have below := capacity_lt hm (home_mem home).1 (home_mem home).2 two
  rw [started.tablePages_eq] at length
  obtain ⟨ready, cursor, -⟩ := run_ready hm returns run
  rw [length, min_eq_left below.le] at cursor
  rcases ready.frameAlloc_cases hm zeroed with ⟨past, -⟩ | ⟨-, call⟩ | ⟨-, -, call⟩
  · omega
  · have nowhere : walkTable (regions m) s.alloc.index = none := by
      rw [walkTable_eq_locate (by omega), Option.map_eq_none_iff, Segments.locate_eq_none_iff,
        cursor]
      exact le_rfl
    exact ⟨_, by rw [call, nowhere]⟩
  · exact ⟨_, call⟩

theorem oneEntry_unreported : ∃ s₀,
    (initializeMemmap 2 oneEntry higherHalf).run (atBoot fun _ => 0) = .ok () s₀ ∧
      ¬ ExhaustionReported s₀ := by
  obtain ⟨s₀, returns⟩ := oneEntry_starts fun _ => 0
  exact ⟨s₀, returns, not_exhaustionReported conformant_oneEntry (by decide) returns⟩

/-- Of three frames the bitmap takes one and two are handed out; the third call halts. -/
theorem oneEntry_third_halts : ∃ s₀ s t,
    (initializeMemmap 2 oneEntry higherHalf).run (atBoot fun _ => 0) = .ok () s₀ ∧
      Run s₀ [0x2000, 0x3000] s ∧ (frameAlloc true).run s = .error .halted t ∧
      ¬ ExhaustionReported s₀ := by
  obtain ⟨s₀, s, returns, run⟩ := oneEntry_run true
  have started := (initializeMemmap_spec conformant_oneEntry returns).1
  have pages : 2 = tablePages s₀ := by
    rw [started.tablePages_eq]
    decide
  obtain ⟨t, halts⟩ := call_after_last_halts conformant_oneEntry returns run pages (by decide)
    (by decide) true
  refine ⟨s₀, s, t, returns, run, halts, fun reported => ?_⟩
  obtain ⟨a, s', call, -⟩ := reported _ s run true
  rw [halts] at call
  cases call

end Run

end Bintos
