import Bintos.Pmem.Cursor
import Bintos.Vm.Source

/-!
# The guards of `frame_free`

`frame_free` has two assertions at its head and is unfinished behind them.  The second one takes the
address of the frame for its number, and it lets the frames pass whose flag `AVAIL` is set, which are
those that have not been handed out.  `guardsFrame_iff` says when the guards do what they are for all
the same, and `not_guardsFrame_of_sorted` that this never happens when the memory map is sorted.
-/

namespace Bintos

/-- The first assertion of `frame_free`: range and alignment. -/
def frameFreeRange (paddr : U64) : Kern Pmem Unit := do
  chassert (paddr < kernelVma ∧ paddr < (← get).hhdmoff ∧ paddr &&& 0xFFF = 0)

/-- The second assertion of `frame_free`, with the read of the flags. -/
def frameFreeFlags (paddr : U64) : Kern Pmem Unit := do
  let flags ← getFrameFlags paddr
  chassert (flags &&& avail ≠ 0)

/-- `frame_free` up to the statement that is not C. -/
def frameFreeGuards (paddr : U64) : Kern Pmem Unit := do
  frameFreeRange paddr
  frameFreeFlags paddr

/-- The guards tell whether page `k` of the table, at the address `a`, is outstanding after the calls
that have returned `rs`. -/
structure GuardsFrame (rs : List U64) (s : Kernel) (k : ℕ) (a : U64) : Prop where
  accepts : a ∈ rs → ∃ t, (frameFreeGuards a).run s = .ok () t
  refuses : a ∉ rs → ∃ t, (frameFreeFlags a).run s = .error .halted t
  /-- the flags that are read are those of frame number `k` -/
  own : (finalState ((frameFreeFlags a).run { s with trace := [] })).trace =
      [flagAccess s (BitVec.ofNat 64 k)] ∧ nibbleShift a = nibbleShift (BitVec.ofNat 64 k)

section Guards

variable {s : Kernel} {a : U64}

theorem run_frameFreeRange (a : U64) (s : Kernel) :
    (frameFreeRange a).run s =
      if a < kernelVma ∧ a < s.hhdmoff ∧ a &&& 0xFFF = 0 then .ok () s else .error .halted s := by
  simp only [frameFreeRange, EStateM.run_bind, EStateM.run_get]
  split_ifs with valid
  · simp only [decide_eq_true valid, run_chassert_true]
  · simp only [decide_eq_false valid, run_chassert_false]

theorem run_frameFreeFlags (a : U64) (s : Kernel) :
    (frameFreeFlags a).run s =
      if flagsOf s a &&& avail ≠ 0 then .ok () (s.touch (flagAccess s a))
      else .error .halted (s.touch (flagAccess s a)) := by
  simp only [frameFreeFlags, EStateM.run_bind, run_getFrameFlags]
  split_ifs with set
  · simp only [decide_eq_true set, run_chassert_true]
  · simp only [decide_eq_false set, run_chassert_false]

/-- The guards return exactly when both conditions hold. -/
theorem frameFreeGuards_returns :
    (∃ t, (frameFreeGuards a).run s = .ok () t) ↔
      (a < kernelVma ∧ a < s.hhdmoff ∧ a &&& 0xFFF = 0) ∧ flagsOf s a &&& avail ≠ 0 := by
  rw [frameFreeGuards, EStateM.run_bind, run_frameFreeRange]
  by_cases valid : a < kernelVma ∧ a < s.hhdmoff ∧ a &&& 0xFFF = 0
  · rw [if_pos valid]
    show (∃ t, (frameFreeFlags a).run s = .ok () t) ↔ _
    rw [run_frameFreeFlags, and_iff_right valid]
    by_cases set : flagsOf s a &&& avail ≠ 0
    · exact iff_of_true ⟨_, if_pos set⟩ set
    · rw [if_neg set]
      exact iff_of_false (by simp) set
  · rw [if_neg valid]
    exact iff_of_false (by simp) fun both => valid both.1

theorem frameFreeFlags_halts :
    (∃ t, (frameFreeFlags a).run s = .error .halted t) ↔ flagsOf s a &&& avail = 0 := by
  rw [run_frameFreeFlags]
  by_cases set : flagsOf s a &&& avail ≠ 0
  · rw [if_pos set]
    exact iff_of_false (by simp) set
  · exact iff_of_true ⟨_, if_neg set⟩ (not_not.1 set)

/-- The flags that are read are those of frame number `a`. -/
theorem trace_frameFreeFlags (a : U64) (s : Kernel) :
    (finalState ((frameFreeFlags a).run { s with trace := [] })).trace = [flagAccess s a] := by
  rw [run_frameFreeFlags]
  split_ifs <;> rfl

/-- Byte and nibble determine the frame number. -/
theorem flagAccess_inj {i j : U64} (access : flagAccess s i = flagAccess s j)
    (nibble : nibbleShift i = nibbleShift j) : i = j := by
  by_contra different
  have byte : i >>> 1 = j >>> 1 := by
    have addr : s.alloc.frameMap + (i >>> 1) = s.alloc.frameMap + (j >>> 1) :=
      congrArg Access.addr access
    bv_omega
  have apart := nibbleShift_apart different byte
  omega

end Guards

section Run

variable {m : List MemmapEntry} {off : U64} {fuel : ℕ} {mem : Mem} {s₀ s : Kernel} {rs : List U64}
  {k : ℕ} {a : U64}

/-- A zeroed call returns a frame of zeros. -/
theorem Ready.frameAlloc_clears (hm : Conformant m) (hr : Ready m off s) {s' : Kernel}
    (returns : (frameAlloc true).run s = .ok a s') (valid : a ≠ -1) {x : U64}
    (inside : Mem.InRange a 4096 x) : s'.mem x = 0 := by
  rcases hr.frameAlloc_cases hm true with ⟨-, call⟩ | ⟨-, call⟩ | ⟨-, -, call⟩
  · rw [call] at returns
    cases returns
    exact absurd rfl valid
  · cases ends : walkTable (regions m) s.alloc.index with
    | none => simp [call, ends] at returns
    | some p =>
      simp only [call, ends, EStateM.Result.ok.injEq] at returns
      obtain ⟨rfl, rfl⟩ := returns
      exact Mem.fill_of_inRange _ _ (by decide) inside
  · simp [call] at returns

/-- Where page `k` of the table lies: in the region of some entry, behind the pages of the entries
before it. -/
theorem page_place (hm : Conformant m)
    (page : (Segments.concat (·.pages.toNat) Region.page (regions m))[k]? = some a) :
    ∃ before e after i, usable m = before ++ e :: after ∧ i < (finalRegion m e).pages.toNat ∧
      k = Segments.total (fun e => (finalRegion m e).pages.toNat) before + i ∧
      a.toNat = e.base.toNat + 4096 * (lostPages m e + i) := by
  rw [Segments.getElem?_concat, Option.map_eq_some_iff] at page
  obtain ⟨⟨r, i⟩, place, rfl⟩ := page
  have inside := (Segments.locate_some place).2
  obtain ⟨before, after, split, number⟩ := Segments.locate_split place
  obtain ⟨entries, rest, cut, rfl, tail⟩ := List.map_eq_append_iff.1 split
  obtain ⟨e, others, rfl, rfl, -⟩ := List.map_eq_cons_iff.1 tail
  have he : e ∈ usable m := by
    rw [cut]
    exact List.mem_append_right _ List.mem_cons_self
  refine ⟨entries, e, others, i, cut, inside, ?_, toNat_finalRegion_page hm he inside⟩
  rw [number, Segments.total, List.map_map]
  rfl

theorem isFrame_of_page (hm : Conformant m)
    (page : (Segments.concat (·.pages.toNat) Region.page (regions m))[k]? = some a) :
    IsFrame m a := by
  obtain ⟨before, e, after, i, cut, inside, -, addr⟩ := page_place hm page
  have he : e ∈ usable m := by
    rw [cut]
    exact List.mem_append_right _ List.mem_cons_self
  rw [toNat_finalRegion_pages hm he] at inside
  exact ⟨e, he, i, by omega, addr⟩

/-- The pages of the table have a nibble in the bitmap. -/
theorem Started.nibble_of_page (hm : Conformant m) (hs : Started m off s)
    (page : (pageSequence s)[k]? = some a) (number : a.toNat = k) : k < 2 * bitmapBytes m := by
  obtain ⟨e, found, -⟩ := hs.frameMap
  rw [hs.pageSequence_eq] at page
  have inside : k < capacity m := by
    have := (List.getElem?_eq_some_iff.1 page).1
    rwa [Segments.length_concat] at this
  have above : 0x1000 ≤ a.toNat := by
    obtain ⟨e, he, low, -⟩ := (isFrame_of_page hm page).inside
    exact (hm.above e he).trans low
  have few := capacity_le hm
  have lost := capacity_lt hm (home_mem found).1 (home_mem found).2 (by omega)
  unfold bitmapBytes
  omega

/-- The flags that are read are the frame's own only if its address is its number. -/
theorem GuardsFrame.number (hm : Conformant m) (hs : Started m off s) (guards : GuardsFrame rs s k a)
    (page : (pageSequence s)[k]? = some a) : a.toNat = k := by
  obtain ⟨trace, nibble⟩ := guards.own
  rw [trace_frameFreeFlags, List.singleton_inj] at trace
  have inside := (List.getElem?_eq_some_iff.1 page).1
  rw [hs.pageSequence_eq, Segments.length_concat] at inside
  have inside : k < capacity m := inside
  have few : capacity m ≤ freeSpace m / 4096 := capacity_le hm
  have space := freeSpace_lt hm
  rw [flagAccess_inj trace nibble, BitVec.toNat_ofNat, Nat.mod_eq_of_lt (by omega)]

theorem oneEntry_page (hs : Started oneEntry off s) : (pageSequence s)[0]? = some 0x2000 := by
  rw [hs.pageSequence_eq]
  decide

/-- **The guards.**  They do what they are for exactly when the address of the page is its number, the
frame has been handed out just in case the cursor has *not* passed it, and an outstanding frame lies
below the direct map. -/
theorem guardsFrame_iff (hm : Conformant m)
    (returns : (initializeMemmap fuel m off).run (atBoot mem) = .ok () s₀) (run : Run s₀ rs s)
    (page : (pageSequence s)[k]? = some a) :
    GuardsFrame rs s k a ↔
      a.toNat = k ∧ (a ∈ rs ↔ s.alloc.index ≤ a) ∧ (a ∈ rs → a < kernelVma ∧ a < off) := by
  have hr := (run_ready hm returns run).1
  have frame := isFrame_of_page hm (hr.pageSequence_eq ▸ page)
  have aligned : a &&& 0xFFF = 0 := by
    have := frame.aligned hm
    have mask : (0xFFF : U64) = BitVec.ofNat 64 (2 ^ 12 - 1) := rfl
    rw [mask]
    apply BitVec.eq_of_toNat_eq
    rw [BitVec.toNat_and, BitVec.toNat_ofNat]
    show a.toNat &&& (2 ^ 12 - 1) = 0
    rw [Nat.and_two_pow_sub_one_eq_mod]
    exact this
  -- the flag `AVAIL` of a frame whose number is its address
  have flag (number : a.toNat = k) : flagsOf s a &&& avail = 0 ↔ ¬ s.alloc.index ≤ a := by
    have inside := hr.nibble_of_page hm page number
    rw [run_flags hm returns run (number ▸ inside)]
    split_ifs with ahead
    · exact iff_of_false (by decide) (not_not.2 ahead)
    · exact iff_of_true (by decide) ahead
  constructor
  · intro guards
    have number := guards.number hm hr.toStarted page
    have passes (outstanding : a ∈ rs) := frameFreeGuards_returns.1 (guards.accepts outstanding)
    refine ⟨number, ⟨fun outstanding => ?_, fun ahead => ?_⟩, fun outstanding => ?_⟩
    · by_contra passed
      exact (passes outstanding).2 ((flag number).2 passed)
    · by_contra free
      exact (flag number).1 (frameFreeFlags_halts.1 (guards.refuses free)) ahead
    · have range := (passes outstanding).1
      rw [hr.hhdmoff] at range
      exact ⟨range.1, range.2.1⟩
  · rintro ⟨number, polarity, range⟩
    refine ⟨fun outstanding => ?_, fun free => ?_, ?_⟩
    · have range := range outstanding
      rw [frameFreeGuards_returns, hr.hhdmoff]
      exact ⟨⟨range.1, range.2, aligned⟩, fun clear =>
        (flag number).1 clear (polarity.1 outstanding)⟩
    · exact frameFreeFlags_halts.2 ((flag number).2 fun ahead => free (polarity.2 ahead))
    · have same : BitVec.ofNat 64 k = a := by rw [← number, BitVec.ofNat_toNat, BitVec.setWidth_eq]
      rw [same, trace_frameFreeFlags]
      exact ⟨rfl, rfl⟩

/-- Two entries of `2 ^ 31` pages besides those for the bitmap, and one page at 4 GiB behind them. -/
def backwards : List MemmapEntry :=
  [⟨0x100000000000, 0x80080081000, memmapUsable⟩, ⟨0x200000000000, 0x80080081000, memmapUsable⟩,
    ⟨0x100000000, 0x1000, memmapUsable⟩]

theorem conformant_backwards : Conformant backwards := by
  constructor <;> simp [usable, backwards, MemmapEntry.extent, Set.Ico_disjoint_Ico]

theorem regions_backwards : regions backwards =
    [⟨0x100080081000, 0x180080081000, 0x80000000⟩, ⟨0x200080081000, 0x280080081000, 0x80000000⟩,
      ⟨0x100000000, 0x100001000, 1⟩] := by
  decide

/-- The first `2 ^ 32 + 1` walks end in the two large regions. -/
theorem walkTable_backwards {j : U64} (small : j.toNat ≤ 2 ^ 32) :
    ∃ p, walkTable (regions backwards) j = some p ∧
      (p.1 = 0x100080081000 ∨ p.1 = 0x200080081000) := by
  have pages : (0x80000000 : U64).toNat = 2 ^ 31 := rfl
  rw [regions_backwards, walkTable]
  dsimp only
  by_cases past : (0x80000000 : U64) ≤ (j.setWidth 32).signExtend 64
  · -- the index is in the upper half of 32 bits
    have high : 2 ^ 31 ≤ j.toNat ∧ j.toNat < 2 ^ 32 := by
      rw [BitVec.le_def] at past
      by_contra outside
      rw [Words.toNat_signExtend_low (by omega)] at past
      omega
    have rest : (j - 0x80000000).toNat = j.toNat - 2 ^ 31 :=
      BitVec.toNat_sub_of_le (BitVec.le_def.2 (by omega))
    have inside : ¬ (0x80000000 : U64) ≤ ((j - 0x80000000).setWidth 32).signExtend 64 := by
      rw [BitVec.le_def, Words.toNat_signExtend_low (by omega)]
      omega
    rw [if_pos past, walkTable, if_neg inside]
    exact ⟨_, rfl, Or.inr rfl⟩
  · rw [if_neg past]
    exact ⟨_, rfl, Or.inl rfl⟩

/-- They return other addresses than that of the third region. -/
theorem answer_backwards {k : ℕ} (early : k ≤ 2 ^ 32) :
    ∃ a, answer backwards k = some a ∧ a ≠ 0x100000000 := by
  have index : (BitVec.ofNat 64 k).toNat = k := by
    rw [BitVec.toNat_ofNat, Nat.mod_eq_of_lt (by omega)]
  have more : k < frames backwards := early.trans_lt (by decide)
  obtain ⟨p, ends, start⟩ := walkTable_backwards (j := BitVec.ofNat 64 k) (by omega)
  refine ⟨walkAddr p, by rw [answer, if_pos more, ends, Option.map_some], fun same => ?_⟩
  have place := congrArg BitVec.toNat same
  rw [walkAddr, BitVec.toNat_add, toNat_offset] at place
  have bottom : (0x100000000 : U64).toNat = 0x100000000 := rfl
  have first : (0x100080081000 : U64).toNat = 0x100080081000 := rfl
  have second : (0x200080081000 : U64).toNat = 0x200080081000 := rfl
  rcases start with start | start <;>
  · rw [start] at place
    omega

/-- Call `2 ^ 32` casts its index to 0, so that the page of that number is passed over, and its address
is its number. -/
theorem backwards_guards : ∃ s₀ rs s,
    (initializeMemmap 2148008066 backwards higherHalf).run (atBoot fun _ => 0) = .ok () s₀ ∧
      Run s₀ rs s ∧ rs.length = 2 ^ 32 + 1 ∧ GuardsFrame rs s (2 ^ 32) 0x100000000 := by
  have hm := conformant_backwards
  obtain ⟨s₀, returns⟩ : ∃ s₀,
      (initializeMemmap 2148008066 backwards higherHalf).run (atBoot fun _ => 0) = .ok () s₀ :=
    initializeMemmap_returns hm (e := ⟨0x200000000000, 0x80080081000, memmapUsable⟩) (by decide)
      (by decide) (by decide) (by decide) _
  obtain ⟨rs, s, run, length⟩ := exists_run hm returns (n := 2 ^ 32 + 1) (by decide) fun k hk => by
    obtain ⟨a, value, -⟩ := answer_backwards (Nat.le_of_lt_succ hk)
    rw [value]
    exact Option.some_ne_none a
  obtain ⟨ready, cursor, answers⟩ := run_ready hm returns run
  have page : (pageSequence s)[2 ^ 32]? = some 0x100000000 := by
    rw [ready.pageSequence_eq, Segments.getElem?_concat, regions_backwards]
    decide
  have never : (0x100000000 : U64) ∉ rs := by
    intro returned
    obtain ⟨k, hk⟩ := List.mem_iff_getElem?.1 returned
    have early := (List.getElem?_eq_some_iff.1 hk).1
    obtain ⟨a, value, other⟩ := answer_backwards (k := k) (by omega)
    exact other (Option.some.inj (value.symm.trans (answers k _ hk)))
  have passed : ¬ s.alloc.index ≤ 0x100000000 := by
    rw [BitVec.le_def, cursor, length]
    decide
  refine ⟨s₀, rs, s, returns, run, length, (guardsFrame_iff hm returns run page).2 ?_⟩
  exact ⟨rfl, iff_of_false never passed, fun returned => absurd returned never⟩

/-- To free the frame that the only call so far has returned halts: the flags that are read lie in
the frame itself, which the call has cleared. -/
theorem oneEntry_free_halts : ∃ s₀ s t,
    (initializeMemmap 2 oneEntry higherHalf).run (atBoot fun _ => 0) = .ok () s₀ ∧
      Run s₀ [0x2000] s ∧ (pageSequence s)[0]? = some 0x2000 ∧
      (frameFreeGuards 0x2000).run s = .error .halted t := by
  obtain ⟨s₀, s, returns, call, run⟩ := oneEntry_first true
  have ready := ready_of_initializeMemmap conformant_oneEntry returns
  have hs := (run_ready conformant_oneEntry returns run).1.toStarted
  obtain ⟨e, found, place⟩ := hs.frameMap
  have home : home oneEntry = some ⟨0x1000, 0x3000, memmapUsable⟩ := by decide
  rw [home, Option.some_inj] at found
  subst found
  have byte : s.v2p (flagByte s 0x2000) = 0x2000 := by
    rw [flagByte, place, Machine.v2p, hs.hhdmoff]
    decide
  have flags : flagsOf s 0x2000 = 0 := by
    rw [flagsOf, byte, ready.frameAlloc_clears conformant_oneEntry call (by decide) (by decide)]
    decide
  have range : (0x2000 : U64) < kernelVma ∧ 0x2000 < s.hhdmoff ∧ (0x2000 : U64) &&& 0xFFF = 0 := by
    rw [hs.hhdmoff]
    decide
  obtain ⟨t, halts⟩ := (frameFreeFlags_halts (s := s) (a := 0x2000)).2 (by rw [flags]; decide)
  refine ⟨s₀, s, t, returns, run, oneEntry_page hs, ?_⟩
  rw [frameFreeGuards, EStateM.run_bind, run_frameFreeRange, if_pos range]
  exact halts

/-- The bootloader lists memory in ascending order.  Then at least as many frames as the number of a
page says lie below it, besides frame 0. -/
theorem number_lt_of_sorted (hm : Conformant m)
    (sorted : (usable m).Pairwise fun e e' => e.base.toNat ≤ e'.base.toNat)
    (page : (Segments.concat (·.pages.toNat) Region.page (regions m))[k]? = some a) :
    4096 * (k + 1) ≤ a.toNat := by
  obtain ⟨before, e, after, i, cut, inside, number, addr⟩ := page_place hm page
  have member (e' : MemmapEntry) (he' : e' ∈ before ++ e :: after) : e' ∈ usable m := cut ▸ he'
  have he := member e (by simp)
  rw [toNat_finalRegion_pages hm he] at inside
  have below := (cut ▸ sorted :
    (before ++ e :: after).Pairwise fun e e' => e.base.toNat ≤ e'.base.toNat)
  have apart := (cut ▸ hm.apart :
    (before ++ e :: after).Pairwise fun e e' => Disjoint e.extent e'.extent)
  rw [List.pairwise_append] at below apart
  -- the regions of the entries before `e`, as intervals of page numbers
  have pages (e' : MemmapEntry) (he' : e' ∈ before) :
      (finalRegion m e').pages.toNat ≤ e'.length.toNat / 4096 := by
    rw [toNat_finalRegion_pages hm (member e' (by simp [he']))]
    omega
  have room := @Segments.total_le_of_disjoint _ (fun e' => e'.base.toNat / 4096)
    (fun e' => e'.base.toNat / 4096 + (finalRegion m e').pages.toNat) before 1
    (e.base.toNat / 4096) ?_ ?_
  · simp only [Nat.add_sub_cancel_left] at room
    have above := hm.above e he
    have aligned := (hm.aligned e he).1
    omega
  · refine apart.1.imp_of_mem fun {e₁ e₂} h₁ h₂ apart => ?_
    have := pages e₁ h₁
    have := pages e₂ h₂
    have := hm.aligned e₁ (member e₁ (by simp [h₁]))
    have := hm.aligned e₂ (member e₂ (by simp [h₂]))
    unfold MemmapEntry.extent at apart
    rw [Set.Ico_disjoint_Ico] at apart ⊢
    omega
  · intro e' he'
    have := pages e' he'
    have := hm.aligned e' (member e' (by simp [he']))
    have := hm.above e' (member e' (by simp [he']))
    have := hm.aligned e he
    have order := below.2.2 e' he' e List.mem_cons_self
    have apart := apart.2.2 e' he' e List.mem_cons_self
    unfold MemmapEntry.extent at apart
    rw [Set.Ico_disjoint_Ico] at apart
    omega

/-- With the memory map in ascending order, the guards do what they are for on no page at all. -/
theorem not_guardsFrame_of_sorted (hm : Conformant m)
    (sorted : (usable m).Pairwise fun e e' => e.base.toNat ≤ e'.base.toNat)
    (returns : (initializeMemmap fuel m off).run (atBoot mem) = .ok () s₀) (run : Run s₀ rs s)
    (page : (pageSequence s)[k]? = some a) : ¬ GuardsFrame rs s k a := by
  intro guards
  have hs := (run_ready hm returns run).1.toStarted
  have number := guards.number hm hs page
  rw [hs.pageSequence_eq] at page
  have := number_lt_of_sorted hm sorted page
  omega

end Run

end Bintos
