import Bintos.Pmem.Enumerate

/-!
# A home for the bitmap

With at most 32 entries one of them has a thirty-second of all usable memory, and the bitmap needs one
byte for every 8 KiB of it, so the search for room never fails (`bitmap_has_home`).  Whether the bitmap
is then initialized depends on the loop counter, which has 32 bits (`bitmap_initialized_iff`).
-/

namespace Bintos

/-! ### The search -/

section Search

variable {m : List MemmapEntry} {off : U64} {mem : Mem}

theorem frames_pos (hm : Conformant m) {e : MemmapEntry} (he : e ∈ usable m)
    (nonempty : e.length ≠ 0) : 1 ≤ frames m := by
  have aligned := (hm.aligned e he).2
  have one : e.length.toNat ≤ freeSpace m := Segments.le_total (fun e => e.length.toNat) he
  have positive : e.length.toNat ≠ 0 := fun zero => nonempty (BitVec.eq_of_toNat_eq zero)
  unfold frames
  omega

/-- The statics after the search, when it ends with the entry `e`. -/
def searched (m : List MemmapEntry) (off : U64) (e : MemmapEntry) : Pmem :=
  located (readPmem m) off m (List.replicate (maxRegions - (usable m).length) ⟨0#64, 0#64, 0#64⟩) e

/-- The search for a usable entry, in the state that `initialize_memmap` starts it in. -/
theorem run_search (off : U64) (mem : Mem) (count : m.length ≤ maxRegions)
    (space : freeSpace m < 2 ^ 64) :
    (∀ e, lastFit (BitVec.ofNat 64 (bitmapBytes m)) m = some e → e.base ≠ 0#64 →
      (readMemmap m off >>= fun _ => locateForBitmap).run (atBoot mem) =
        .ok () { atBoot mem with hhdmoff := off, alloc := searched m off e }) ∧
    ((∀ e, lastFit (BitVec.ofNat 64 (bitmapBytes m)) m = some e → e.base = 0) →
      ∃ t, (readMemmap m off >>= fun _ => locateForBitmap).run (atBoot mem) = .error .halted t) := by
  have few : (usable m).length ≤ 32 := (List.length_filter_le _ _).trans count
  have locate := run_locateForBitmap (m := m)
    (List.replicate (maxRegions - (usable m).length) ⟨0#64, 0#64, 0#64⟩)
    (s := { atBoot mem with hhdmoff := off, alloc := readPmem m }) rfl rfl (by omega) rfl
  have half : (readPmem m).maxFrames >>> 1 = BitVec.ofNat 64 (bitmapBytes m) := half_frames space
  rw [EStateM.run_bind, run_readMemmap count space, ← half]
  exact locate

/-- **A home for the bitmap.**  The search ends with the bitmap on a usable entry that is long enough. -/
theorem bitmap_has_home (hm : Conformant m) (some_memory : ∃ e ∈ usable m, e.length ≠ 0) :
    ∃ s, (readMemmap m off >>= fun _ => locateForBitmap).run (atBoot mem) = .ok () s ∧
      ∃ e ∈ usable m, s.alloc.bitmapLength ≤ e.length ∧ s.alloc.frameMap - s.hhdmoff = e.base := by
  obtain ⟨e₀, he₀, nonempty⟩ := some_memory
  obtain ⟨e, found⟩ := exists_home hm (frames_pos hm he₀ nonempty)
  obtain ⟨he, fits⟩ := home_mem found
  have space := freeSpace_lt hm
  have nonzero : e.base ≠ 0#64 := by
    have := hm.above e he
    bv_omega
  refine ⟨_, (run_search off mem hm.count space).1 e (by rw [lastFit_eq hm, found]) nonzero, e, he, ?_, ?_⟩
  · show (readPmem m).maxFrames >>> 1 ≤ e.length
    rw [show (readPmem m).maxFrames >>> 1 = _ from half_frames space, le_ofNat_iff hm]
    exact fits
  · exact BitVec.add_sub_cancel ..

theorem oneEntry_has_home :
    ∃ s, (readMemmap oneEntry higherHalf >>= fun _ => locateForBitmap).run (atBoot fun _ => 0) =
        .ok () s ∧
      ∃ e ∈ usable oneEntry, s.alloc.bitmapLength ≤ e.length ∧
        s.alloc.frameMap - s.hhdmoff = e.base :=
  bitmap_has_home conformant_oneEntry ⟨⟨0x1000, 0x3000, memmapUsable⟩, by decide, by decide⟩

end Search

/-! ### The loop over the bitmap -/

section Loop

variable {m : List MemmapEntry} {off : U64} {mem : Mem} {s s' : Kernel}

/-- Every byte of the bitmap has been set to `AVAIL` in both nibbles, and no other byte has been
accessed or changed. -/
structure Initialized (s s' : Kernel) : Prop where
  bytes : ∀ x, Mem.InRange (s.alloc.frameMap - s.hhdmoff) s.alloc.bitmapLength.toNat x →
    s'.mem x = allAvail
  kept : ∀ x, ¬ Mem.InRange (s.alloc.frameMap - s.hhdmoff) s.alloc.bitmapLength.toNat x →
    s'.mem x = s.mem x
  inside : ∀ acc ∈ s'.trace, acc ∉ s.trace →
    acc.addr - s.alloc.frameMap < s.alloc.bitmapLength ∧ acc.len = 1

/-- The accesses of the loop are to bytes of the bitmap. -/
theorem trace_initializeBitmapLoop {fuel : ℕ} {i : U32} {u : Unit}
    (returns : (initializeBitmapLoop fuel i).run s = .ok u s') :
    ∀ acc ∈ s'.trace, acc ∉ s.trace →
      acc.addr - s.alloc.frameMap < s.alloc.bitmapLength ∧ acc.len = 1 := by
  induction fuel generalizing i s with
  | zero => simp [initializeBitmapLoop] at returns
  | succ fuel ih =>
    rw [run_initializeBitmapLoop_succ] at returns
    split_ifs at returns with more
    · intro acc made new
      by_cases this : acc = ⟨.flags, s.alloc.frameMap + i.setWidth 64, 1⟩
      · subst this
        have offset : s.alloc.frameMap + i.setWidth 64 - s.alloc.frameMap = i.setWidth 64 := by ring
        refine ⟨?_, rfl⟩
        show s.alloc.frameMap + i.setWidth 64 - s.alloc.frameMap < s.alloc.bitmapLength
        rw [offset]
        exact more
      · refine ih returns acc made fun before => ?_
        rcases List.mem_cons.1 before with now | before
        · exact this now
        · exact new before
    · cases returns
      exact fun acc made new => absurd made new

/-- What the loop does when it ends. -/
theorem initialized_of_returns {fuel : ℕ} {u : Unit}
    (returns : (initializeBitmap fuel).run s = .ok u s') :
    s.alloc.frameMap ≠ 0#64 ∧ s.alloc.bitmapLength.toNat < 2 ^ 32 ∧ Initialized s s' := by
  rw [run_initializeBitmap] at returns
  split_ifs at returns with unset
  obtain ⟨short, -, -, bytes⟩ := run_initializeBitmapLoop returns (Nat.zero_le _)
  have start : s.v2p (s.alloc.frameMap + (0 : U32).setWidth 64) = s.alloc.frameMap - s.hhdmoff := by
    simp [Machine.v2p]
  have count : s.alloc.bitmapLength.toNat - (0 : U32).toNat = s.alloc.bitmapLength.toNat := rfl
  rw [start, count] at bytes
  refine ⟨unset, short, fun x inside => ?_, fun x outside => ?_, trace_initializeBitmapLoop returns⟩
  · rw [bytes x, if_pos inside]
  · rw [bytes x, if_neg outside]

/-- The loop ends when its bound fits the counter. -/
theorem exists_initialized (mapped : s.alloc.frameMap ≠ 0#64)
    (short : s.alloc.bitmapLength.toNat < 2 ^ 32) :
    ∃ fuel s', (initializeBitmap fuel).run s = .ok () s' ∧ Initialized s s' := by
  obtain ⟨s', loop⟩ := initializeBitmapLoop_returns (i := 0) (s := s) short (Nat.zero_le _)
    (Nat.lt_succ_self _)
  have returns : (initializeBitmap (s.alloc.bitmapLength.toNat + 1)).run s = .ok () s' := by
    rw [run_initializeBitmap, if_neg mapped]
    exact loop
  exact ⟨_, s', returns, (initialized_of_returns returns).2.2⟩

/-- The length of the bitmap when the search for its home has returned. -/
theorem bitmapLength_of_accepted (space : freeSpace m < 2 ^ 64)
    (accepted : (readMemmap m off >>= fun _ => locateForBitmap).run (atBoot mem) = .ok () s) :
    s.alloc.bitmapLength = BitVec.ofNat 64 (bitmapBytes m) := by
  by_cases count : m.length ≤ maxRegions
  · have search := run_search off mem count space
    by_cases found : ∃ e, lastFit (BitVec.ofNat 64 (bitmapBytes m)) m = some e ∧ e.base ≠ 0#64
    · obtain ⟨e, last, nonzero⟩ := found
      rw [search.1 e last nonzero, EStateM.Result.ok.injEq] at accepted
      rw [← accepted.2]
      exact half_frames space
    · obtain ⟨t, halts⟩ := search.2 fun e last => by
        by_contra nonzero
        exact found ⟨e, last, nonzero⟩
      rw [halts] at accepted
      cases accepted
  · obtain ⟨t, halts⟩ := run_readMemmap_long count off mem
    rw [EStateM.run_bind, halts] at accepted
    cases accepted

/-- **The bitmap's initialization.**  After the search the loop ends, with the bitmap set, exactly when
there are less than 32 TiB of usable memory, apart from the assertion that the bitmap's address is not
null. -/
theorem bitmap_initialized_iff (limit : freeSpace m ≤ 2 ^ 52)
    (accepted : (readMemmap m off >>= fun _ => locateForBitmap).run (atBoot mem) = .ok () s) :
    (∃ fuel s', (initializeBitmap fuel).run s = .ok () s' ∧ Initialized s s') ↔
      s.alloc.frameMap ≠ 0 ∧ freeSpace m < 2 ^ 45 := by
  have length := congrArg BitVec.toNat (bitmapLength_of_accepted (by omega) accepted)
  rw [BitVec.toNat_ofNat] at length
  have short : s.alloc.bitmapLength.toNat < 2 ^ 32 ↔ freeSpace m < 2 ^ 45 := by
    rw [length]
    unfold bitmapBytes frames
    omega
  constructor
  · rintro ⟨fuel, s', returns, -⟩
    obtain ⟨mapped, bound, -⟩ := initialized_of_returns returns
    exact ⟨mapped, short.1 bound⟩
  · rintro ⟨mapped, small⟩
    exact exists_initialized mapped (short.2 small)

theorem oneEntry_initialized : ∃ s,
    (readMemmap oneEntry higherHalf >>= fun _ => locateForBitmap).run (atBoot fun _ => 0) =
      .ok () s ∧
    ∃ fuel s', (initializeBitmap fuel).run s = .ok () s' ∧ Initialized s s' := by
  have search := (run_search (m := oneEntry) higherHalf (fun _ => 0) (by decide) (by decide)).1
    ⟨0x1000, 0x3000, memmapUsable⟩ (by decide) (by decide)
  refine ⟨_, search, (bitmap_initialized_iff (by decide) search).2 ⟨?_, by decide⟩⟩
  show (0x1000 + higherHalf : U64) ≠ 0
  decide

/-- One usable entry of 32 TiB. -/
def hugeEntry : List MemmapEntry := [⟨0x1000, 0x200000000000, memmapUsable⟩]

/-- Its bitmap of 4 GiB is never finished. -/
theorem hugeEntry_never_ends : ∃ s,
    (readMemmap hugeEntry higherHalf >>= fun _ => locateForBitmap).run (atBoot fun _ => 0) =
      .ok () s ∧
    s.alloc.frameMap ≠ 0 ∧ ∀ fuel s', (initializeBitmap fuel).run s ≠ .ok () s' := by
  have search := (run_search (m := hugeEntry) higherHalf (fun _ => 0) (by decide) (by decide)).1
    ⟨0x1000, 0x200000000000, memmapUsable⟩ (by decide) (by decide)
  refine ⟨_, search, ?_, fun fuel s' returns => ?_⟩
  · show (0x1000 + higherHalf : U64) ≠ 0
    decide
  · have short := (initialized_of_returns returns).2.1
    rw [bitmapLength_of_accepted (by decide) search] at short
    exact absurd short (by decide)

end Loop

end Bintos
