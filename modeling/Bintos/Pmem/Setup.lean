import Bintos.Pmem.Memmap

/-!
# What `initializeMemmap` establishes

When `initializeMemmap` returns, the statics of the allocator are those that the memory map
determines (`Started`), every nibble of the bitmap is `AVAIL`, and the bitmap is short enough for
the 32-bit counter of `initialize_bitmap` (`initializeMemmap_spec`).
-/

namespace Bintos

/-- The usable entry that holds the bitmap: the last one that is long enough. -/
def home (m : List MemmapEntry) : Option MemmapEntry := ((usable m).filter (Fits m ·)).getLast?

/-- The statics after start-up with the memory map `m` and the direct-map offset `off`. -/
structure Started (m : List MemmapEntry) (off : U64) (s : Kernel) : Prop where
  hhdmoff : s.hhdmoff = off
  maxFrames : s.alloc.maxFrames.toNat = frames m
  bitmapLength : s.alloc.bitmapLength.toNat = bitmapBytes m
  numRegions : s.alloc.numRegions.toNat = (usable m).length
  regionInfo : s.alloc.regionInfo.take (usable m).length = regions m
  frameMap : ∃ e, home m = some e ∧ s.alloc.frameMap = e.base + off
  short : bitmapBytes m < 2 ^ 32

@[simp] theorem run_modifyPmem (f : Pmem → Pmem) (s : Kernel) :
    (modifyPmem f).run s = .ok () { s with alloc := f s.alloc } := rfl

theorem usable_cons_of_usable {e : MemmapEntry} (h : e.type = memmapUsable)
    (l : List MemmapEntry) : usable (e :: l) = e :: usable l := by
  simp [usable, h]

theorem usable_cons_of_ne {e : MemmapEntry} (h : e.type ≠ memmapUsable)
    (l : List MemmapEntry) : usable (e :: l) = usable l := by
  simp [usable, h]

/-! ### The loop of `initialize_memmap` -/

theorem run_addRegion_usable {e : MemmapEntry} (h : e.type = memmapUsable) (k : U8) (s : Kernel) :
    (addRegion k e).run s = .ok (k + 1) { s with alloc := { s.alloc with
      initFreeSpace := s.alloc.initFreeSpace + e.length
      regionInfo := s.alloc.regionInfo.set k.toNat (wholeRegion e) } } := by
  simp [addRegion, h, wholeRegion]

theorem run_addRegion_other {e : MemmapEntry} (h : e.type ≠ memmapUsable) (k : U8) (s : Kernel) :
    (addRegion k e).run s = .ok k s := by
  simp [addRegion, h]

/-- The loop writes the regions of the usable entries one after the other, from the entry of the
table that its counter points at. -/
theorem run_addRegion_loop (l : List MemmapEntry) (done rest : List Region) (s : Kernel)
    (room : (usable l).length ≤ rest.length) (small : done.length + rest.length < 256)
    (table : s.alloc.regionInfo = done ++ rest) :
    (l.foldlM addRegion (BitVec.ofNat 8 done.length)).run s =
      .ok (BitVec.ofNat 8 (done.length + (usable l).length)) { s with alloc := { s.alloc with
        initFreeSpace := (usable l).foldl (fun sum e => sum + e.length) s.alloc.initFreeSpace
        regionInfo := done ++ (usable l).map wholeRegion ++ rest.drop (usable l).length } } := by
  induction l generalizing done rest s with
  | nil =>
    simp only [usable, List.filter_nil, List.map_nil, List.append_nil, List.length_nil,
      List.drop_zero, List.foldl_nil, ← table]
    rfl
  | cons e l ih =>
    rw [List.foldlM_cons, EStateM.run_bind]
    by_cases h : e.type = memmapUsable
    · rw [usable_cons_of_usable h] at room ⊢
      obtain ⟨r, rest, rfl⟩ := List.exists_cons_of_length_pos (l := rest) (by simp at room; omega)
      rw [List.length_cons] at small room
      have index : (BitVec.ofNat 8 done.length).toNat = done.length := by
        rw [BitVec.toNat_ofNat]
        omega
      have next : BitVec.ofNat 8 done.length + 1 =
          BitVec.ofNat 8 (done ++ [wholeRegion e]).length := by
        simp [BitVec.ofNat_add]
      simp only [run_addRegion_usable h, index, table, List.set_append_right _ _ le_rfl,
        Nat.sub_self, List.set_cons_zero, next]
      rw [ih (done ++ [wholeRegion e]) rest _ (by simpa using room) (by simp; omega) (by simp)]
      simp [Nat.add_assoc, Nat.add_comm 1]
    · rw [usable_cons_of_ne h] at room ⊢
      simp only [run_addRegion_other h]
      exact ih done rest s room small table

/-! ### The loop of `locate_for_bitmap` -/

theorem run_fitBitmap_usable {e : MemmapEntry} (h : e.type = memmapUsable) (k : U8) (s : Kernel) :
    (fitBitmap k e).run s = .ok (k + 1) { s with alloc :=
      if s.alloc.bitmapLength ≤ e.length then { s.alloc with
        frameMap := e.base
        regionInfo := s.alloc.regionInfo.set k.toNat
          ((s.alloc.regionInfo.getD k.toNat default).carve s.alloc.bitmapLength) }
      else s.alloc } := by
  by_cases fits : s.alloc.bitmapLength ≤ e.length <;> simp [fitBitmap, h, fits]

theorem run_fitBitmap_other {e : MemmapEntry} (h : e.type ≠ memmapUsable) (k : U8) (s : Kernel) :
    (fitBitmap k e).run s = .ok k s := by
  simp [fitBitmap, h]

/-- The region of `e` after a search for room for `n` bytes. -/
def fitted (n : U64) (e : MemmapEntry) : Region :=
  if n ≤ e.length then (wholeRegion e).carve n else wholeRegion e

/-- The loop carves the regions of all entries that are long enough and ends with `frame_map` at
the last of them. -/
theorem run_fitBitmap_loop (l : List MemmapEntry) (done rest : List Region) (s : Kernel)
    (small : done.length + (usable l).length < 256)
    (table : s.alloc.regionInfo = done ++ (usable l).map wholeRegion ++ rest) :
    (l.foldlM fitBitmap (BitVec.ofNat 8 done.length)).run s =
      .ok (BitVec.ofNat 8 (done.length + (usable l).length)) { s with alloc := { s.alloc with
        frameMap := (((usable l).filter (s.alloc.bitmapLength ≤ ·.length)).getLast?.map
          (·.base)).getD s.alloc.frameMap
        regionInfo := done ++ (usable l).map (fitted s.alloc.bitmapLength) ++ rest } } := by
  induction l generalizing done s with
  | nil =>
    simp only [usable, List.filter_nil, List.map_nil, List.append_nil] at table
    simp only [usable, List.filter_nil, List.map_nil, List.append_nil, List.getLast?_nil,
      Option.map_none, Option.getD_none, ← table]
    rfl
  | cons e l ih =>
    rw [List.foldlM_cons, EStateM.run_bind]
    by_cases h : e.type = memmapUsable
    · rw [usable_cons_of_usable h] at small table ⊢
      have index : (BitVec.ofNat 8 done.length).toNat = done.length := by
        rw [BitVec.toNat_ofNat]
        omega
      have next (r : Region) : BitVec.ofNat 8 done.length + 1 =
          BitVec.ofNat 8 (done ++ [r]).length := by
        simp [BitVec.ofNat_add]
      rw [List.length_cons] at small
      have entry : s.alloc.regionInfo.getD done.length default = wholeRegion e := by
        simp [table]
      simp only [run_fitBitmap_usable h, index, entry, next (fitted s.alloc.bitmapLength e)]
      rw [ih (done ++ [fitted s.alloc.bitmapLength e])]
      · by_cases fits : s.alloc.bitmapLength ≤ e.length
        · simp [fits, List.getLast?_cons, Nat.add_assoc, Nat.add_comm 1]
        · simp [fits, Nat.add_assoc, Nat.add_comm 1]
      · simp
        omega
      · by_cases fits : s.alloc.bitmapLength ≤ e.length
        · simp [fits, table, fitted]
        · simp [fits, table, fitted]
    · rw [usable_cons_of_ne h] at small table ⊢
      simp only [run_fitBitmap_other h]
      exact ih done s small table

/-! ### The loop of `initialize_bitmap` -/

/-- The byte with `AVAIL` in both nibbles. -/
def allAvail : U8 := 0x88

/-- The machine after one round of the loop. -/
def setByte (i : U32) (s : Kernel) : Kernel :=
  { s.touch ⟨.flags, s.alloc.frameMap + i.setWidth 64, 1⟩ with
    mem := s.mem.write (s.v2p (s.alloc.frameMap + i.setWidth 64)) allAvail }

theorem run_initializeBitmapLoop_succ (fuel : ℕ) (i : U32) (s : Kernel) :
    (initializeBitmapLoop (fuel + 1) i).run s =
      if i.setWidth 64 < s.alloc.bitmapLength then
        (initializeBitmapLoop fuel (i + 1)).run (setByte i s)
      else .ok () s := by
  have byte : (makeFlags avail <<< 4) + makeFlags avail = allAvail := by decide
  rw [initializeBitmapLoop, byte]
  by_cases more : i.setWidth 64 < s.alloc.bitmapLength <;> simp [more, setByte]

theorem run_initializeBitmap (fuel : ℕ) (s : Kernel) :
    (initializeBitmap fuel).run s =
      if s.alloc.frameMap = 0#64 then .error .halted s
      else (initializeBitmapLoop fuel 0).run s := by
  by_cases unset : s.alloc.frameMap = 0#64 <;> simp [initializeBitmap, unset]

/-- From the counter `i` on, the loop returns only if the bound fits the counter, and then it has
set the bytes `i`, `i + 1`, ... of the bitmap and nothing else. -/
theorem run_initializeBitmapLoop {fuel : ℕ} {i : U32} {s s' : Kernel} {u : Unit}
    (returns : (initializeBitmapLoop fuel i).run s = .ok u s')
    (inside : i.toNat ≤ s.alloc.bitmapLength.toNat) :
    s.alloc.bitmapLength.toNat < 2 ^ 32 ∧ s'.alloc = s.alloc ∧ s'.hhdmoff = s.hhdmoff ∧
      ∀ x, s'.mem x = if Mem.InRange (s.v2p (s.alloc.frameMap + i.setWidth 64))
        (s.alloc.bitmapLength.toNat - i.toNat) x then allAvail else s.mem x := by
  induction fuel generalizing i s with
  | zero => simp [initializeBitmapLoop] at returns
  | succ fuel ih =>
    have hi := i.isLt
    have hb := s.alloc.bitmapLength.isLt
    have wide : (i.setWidth 64).toNat = i.toNat := by
      rw [BitVec.toNat_setWidth, Nat.mod_eq_of_lt (by omega)]
    rw [run_initializeBitmapLoop_succ] at returns
    split_ifs at returns with more <;> rw [BitVec.lt_def, wide] at more
    · obtain ⟨short, statics, offset, bytes⟩ := ih returns (by
        show (i + 1).toNat ≤ s.alloc.bitmapLength.toNat
        rw [BitVec.toNat_add]
        exact (Nat.mod_le _ _).trans (Nat.succ_le_of_lt more))
      have short : s.alloc.bitmapLength.toNat < 2 ^ 32 := short
      have next : (i + 1).toNat = i.toNat + 1 := by
        rw [BitVec.toNat_add]
        exact Nat.mod_eq_of_lt (by simpa using by omega)
      have step : s.v2p (s.alloc.frameMap + (i + 1).setWidth 64) =
          s.v2p (s.alloc.frameMap + i.setWidth 64) + 1 := by
        have : (i + 1).setWidth 64 = i.setWidth 64 + 1 := by bv_omega
        rw [this]
        unfold Machine.v2p
        ring
      refine ⟨short, statics, offset, fun x => ?_⟩
      have count : s.alloc.bitmapLength.toNat - i.toNat =
          s.alloc.bitmapLength.toNat - (i.toNat + 1) + 1 := by omega
      rw [bytes x, count]
      show (if Mem.InRange (s.v2p (s.alloc.frameMap + (i + 1).setWidth 64))
        (s.alloc.bitmapLength.toNat - (i + 1).toNat) x then allAvail
        else s.mem.write (s.v2p (s.alloc.frameMap + i.setWidth 64)) allAvail x) = _
      rw [step, next]
      simp only [Mem.inRange_succ (show s.alloc.bitmapLength.toNat - (i.toNat + 1) < 2 ^ 64 by omega)]
      by_cases first : x = s.v2p (s.alloc.frameMap + i.setWidth 64)
      · simp [first]
      · simp [first, Mem.write_of_ne]
    · cases returns
      refine ⟨by omega, rfl, rfl, fun x => ?_⟩
      rw [if_neg]
      unfold Mem.InRange
      omega

/-- With a bound that fits the counter, enough rounds finish the loop. -/
theorem initializeBitmapLoop_returns {fuel : ℕ} {i : U32} {s : Kernel}
    (short : s.alloc.bitmapLength.toNat < 2 ^ 32) (inside : i.toNat ≤ s.alloc.bitmapLength.toNat)
    (enough : s.alloc.bitmapLength.toNat - i.toNat < fuel) :
    ∃ s', (initializeBitmapLoop fuel i).run s = .ok () s' := by
  induction fuel generalizing i s with
  | zero => omega
  | succ fuel ih =>
    have wide : (i.setWidth 64).toNat = i.toNat := by
      rw [BitVec.toNat_setWidth, Nat.mod_eq_of_lt (by omega)]
    rw [run_initializeBitmapLoop_succ]
    split_ifs with more
    · rw [BitVec.lt_def, wide] at more
      have next : (i + 1).toNat = i.toNat + 1 := by
        rw [BitVec.toNat_add]
        exact Nat.mod_eq_of_lt (by simpa using by omega)
      refine ih (s := setByte i s) short ?_ ?_ <;> show _ <;> rw [next]
      · exact more
      · show s.alloc.bitmapLength.toNat - (i.toNat + 1) < fuel
        omega
    · exact ⟨s, rfl⟩

/-! ### Start-up as a whole -/

/-- The entry that a search for room for `n` bytes ends with. -/
def lastFit (n : U64) (m : List MemmapEntry) : Option MemmapEntry :=
  ((usable m).filter (n ≤ ·.length)).getLast?

/-- The statics after `locate_for_bitmap`, when it puts the bitmap on the entry `e`. -/
def located (p : Pmem) (offset : U64) (m : List MemmapEntry) (rest : List Region)
    (e : MemmapEntry) : Pmem :=
  { p with
    bitmapLength := p.maxFrames >>> 1
    frameMap := e.base + offset
    regionInfo := (usable m).map (fitted (p.maxFrames >>> 1)) ++ rest }

/-- `locate_for_bitmap` halts exactly when no entry with a nonzero base has room. -/
theorem run_locateForBitmap {m : List MemmapEntry} (rest : List Region) {s : Kernel}
    (hmap : s.alloc.map = some m) (unset : s.alloc.frameMap = 0)
    (small : (usable m).length < 256)
    (table : s.alloc.regionInfo = (usable m).map wholeRegion ++ rest) :
    (∀ e, lastFit (s.alloc.maxFrames >>> 1) m = some e → e.base ≠ 0#64 →
      locateForBitmap.run s = .ok () { s with alloc := located s.alloc s.hhdmoff m rest e }) ∧
    ((∀ e, lastFit (s.alloc.maxFrames >>> 1) m = some e → e.base = 0) →
      ∃ t, locateForBitmap.run s = .error .halted t) := by
  have loop := run_fitBitmap_loop m [] rest
    { s with alloc := { s.alloc with bitmapLength := s.alloc.maxFrames >>> 1 } }
    (by simpa using small) (by simpa using table)
  simp only [List.length_nil, List.nil_append, Nat.zero_add, hmap] at loop
  constructor
  · intro e he nonzero
    unfold lastFit at he
    simp only [he, Option.map_some, Option.getD_some] at loop
    simp [locateForBitmap, hmap, loop, nonzero, located]
  · intro none
    unfold lastFit at none
    have zero : (((usable m).filter (s.alloc.maxFrames >>> 1 ≤ ·.length)).getLast?.map
        (·.base)).getD s.alloc.frameMap = 0 := by
      cases h : ((usable m).filter (s.alloc.maxFrames >>> 1 ≤ ·.length)).getLast? with
      | none => exact unset
      | some e => exact none e h
    simp only [zero] at loop
    simp [locateForBitmap, hmap, loop]

theorem le_ofNat_iff {m : List MemmapEntry} (hm : Conformant m) (e : MemmapEntry) :
    BitVec.ofNat 64 (bitmapBytes m) ≤ e.length ↔ Fits m e := by
  rw [BitVec.le_def, toNat_bitmapBytes hm, Fits]

theorem fitted_eq {m : List MemmapEntry} (hm : Conformant m) :
    fitted (BitVec.ofNat 64 (bitmapBytes m)) = finalRegion m := by
  funext e
  simp only [fitted, finalRegion, le_ofNat_iff hm]

theorem lastFit_eq {m : List MemmapEntry} (hm : Conformant m) :
    lastFit (BitVec.ofNat 64 (bitmapBytes m)) m = home m := by
  simp only [lastFit, home, le_ofNat_iff hm]

theorem home_mem {m : List MemmapEntry} {e : MemmapEntry} (h : home m = some e) :
    e ∈ usable m ∧ Fits m e := by
  have := List.mem_of_getLast? h
  simpa using this

/-- The statics when `initialize_memmap` enters `initialize_bitmap`. -/
def readyPmem (m : List MemmapEntry) (off : U64) (e : MemmapEntry) : Pmem where
  map := some m
  bitmapLength := BitVec.ofNat 64 (bitmapBytes m)
  frameMap := e.base + off
  maxFrames := BitVec.ofNat 64 (frames m)
  initFreeSpace := BitVec.ofNat 64 (freeSpace m)
  numRegions := BitVec.ofNat 8 (usable m).length
  regionInfo := regions m ++ List.replicate (maxRegions - (usable m).length) ⟨0#64, 0#64, 0#64⟩

/-- `initialize_memmap` up to its call of `locate_for_bitmap`. -/
def readMemmap (r : List MemmapEntry) (offset : U64) : Kern Pmem Unit := do
  modify fun s => { s with hhdmoff := offset }
  modifyPmem fun p => { p with map := some r }
  chassert (r.length ≤ maxRegions)
  let regionIdx ← r.foldlM addRegion 0
  modifyPmem fun p => { p with maxFrames := p.initFreeSpace / frameAllocationSize }
  modifyPmem fun p => { p with numRegions := regionIdx }

theorem initializeMemmap_eq (fuel : ℕ) (r : List MemmapEntry) (offset : U64) :
    initializeMemmap fuel r offset =
      readMemmap r offset >>= fun _ => locateForBitmap >>= fun _ => initializeBitmap fuel := by
  simp only [initializeMemmap, readMemmap, bind_assoc]

/-- The statics when `initialize_memmap` enters `locate_for_bitmap`. -/
def readPmem (m : List MemmapEntry) : Pmem where
  map := some m
  maxFrames := BitVec.ofNat 64 (frames m)
  initFreeSpace := BitVec.ofNat 64 (freeSpace m)
  numRegions := BitVec.ofNat 8 (usable m).length
  regionInfo := (usable m).map wholeRegion ++
    List.replicate (maxRegions - (usable m).length) ⟨0#64, 0#64, 0#64⟩

/-- A map that is short enough is read, whatever its entries are. -/
theorem run_readMemmap {m : List MemmapEntry} (count : m.length ≤ maxRegions)
    (space : freeSpace m < 2 ^ 64) (off : U64) (mem : Mem) :
    (readMemmap m off).run (atBoot mem) =
      .ok () { atBoot mem with hhdmoff := off, alloc := readPmem m } := by
  have few : (usable m).length ≤ 32 := (List.length_filter_le _ _).trans count
  have loop := run_addRegion_loop m [] (List.replicate maxRegions ⟨0#64, 0#64, 0#64⟩)
    { atBoot mem with hhdmoff := off, alloc := { map := some m } }
    (by simpa [maxRegions] using few) (by simp [maxRegions]) rfl
  have sum : (usable m).foldl (fun sum e => sum + e.length) 0#64 =
      BitVec.ofNat 64 (freeSpace m) := by
    apply BitVec.eq_of_toNat_eq
    rw [Words.toNat_foldl_add, BitVec.toNat_ofNat]
    simp [freeSpace, Segments.total]
  have quotient : BitVec.ofNat 64 (freeSpace m) / frameAllocationSize =
      BitVec.ofNat 64 (frames m) := by
    apply BitVec.eq_of_toNat_eq
    rw [BitVec.toNat_udiv, BitVec.toNat_ofNat, BitVec.toNat_ofNat, Nat.mod_eq_of_lt space]
    exact (Nat.mod_eq_of_lt ((Nat.div_le_self _ _).trans_lt space)).symm
  simp only [atBoot, List.length_nil, List.nil_append, Nat.zero_add, List.drop_replicate,
    sum] at loop
  simp [readMemmap, atBoot, count, loop, quotient, readPmem]

theorem run_readMemmap_long {m : List MemmapEntry} (long : ¬ m.length ≤ maxRegions) (off : U64)
    (mem : Mem) : ∃ t, (readMemmap m off).run (atBoot mem) = .error .halted t := by
  simp [readMemmap, long]

theorem half_frames {m : List MemmapEntry} (space : freeSpace m < 2 ^ 64) :
    BitVec.ofNat 64 (frames m) >>> 1 = BitVec.ofNat 64 (bitmapBytes m) := by
  unfold bitmapBytes frames
  bv_omega

/-- Up to `initialize_bitmap`, start-up computes the statics from the map. -/
theorem run_initializeMemmap {m : List MemmapEntry} (hm : Conformant m) (fuel : ℕ) (off : U64)
    (mem : Mem) :
    (∀ e, home m = some e →
      (initializeMemmap fuel m off).run (atBoot mem) =
        (initializeBitmap fuel).run { atBoot mem with hhdmoff := off, alloc := readyPmem m off e }) ∧
    (home m = none →
      ∃ t, (initializeMemmap fuel m off).run (atBoot mem) = .error .halted t) := by
  have few := length_usable_le hm
  have space := freeSpace_lt hm
  have locate := run_locateForBitmap (m := m)
    (List.replicate (maxRegions - (usable m).length) ⟨0#64, 0#64, 0#64⟩)
    (s := { atBoot mem with hhdmoff := off, alloc := readPmem m }) rfl rfl (by omega) rfl
  simp only [readPmem, half_frames space, lastFit_eq hm] at locate
  rw [initializeMemmap_eq, EStateM.run_bind, run_readMemmap hm.count space]
  constructor
  · intro e he
    have nonzero : e.base ≠ 0#64 := by
      have := hm.above e (home_mem he).1
      bv_omega
    simp [EStateM.run_bind, readPmem, locate.1 e he nonzero, located, readyPmem, half_frames space,
      fitted_eq hm, regions]
  · intro none
    obtain ⟨t, halts⟩ := locate.2 (by simp [none])
    exact ⟨t, by simp [EStateM.run_bind, readPmem, halts]⟩

/-- **Start-up.**  When `initialize_memmap` returns, the statics are those of the map, the cursor
is at the first frame, the bitmap's bytes are set and no other byte has changed. -/
theorem initializeMemmap_spec {m : List MemmapEntry} (hm : Conformant m) {fuel : ℕ} {off : U64}
    {mem : Mem} {s : Kernel} {u : Unit}
    (returns : (initializeMemmap fuel m off).run (atBoot mem) = .ok u s) :
    Started m off s ∧ s.alloc.index = 0 ∧
      ∀ x, s.mem x = if Mem.InRange (s.v2p s.alloc.frameMap) (bitmapBytes m) x then allAvail
        else mem x := by
  cases he : home m with
  | none =>
    obtain ⟨t, halts⟩ := (run_initializeMemmap hm fuel off mem).2 he
    simp [halts] at returns
  | some e =>
    have few := length_usable_le hm
    have space := freeSpace_lt hm
    rw [(run_initializeMemmap hm fuel off mem).1 e he, run_initializeBitmap] at returns
    split_ifs at returns with unset
    obtain ⟨short, statics, offset, bytes⟩ := run_initializeBitmapLoop returns (Nat.zero_le _)
    have statics : s.alloc = readyPmem m off e := statics
    have offset : s.hhdmoff = off := offset
    simp only [readyPmem, toNat_bitmapBytes hm] at short bytes
    refine ⟨⟨offset, ?_, ?_, ?_, ?_, ⟨e, he, by rw [statics]; rfl⟩, short⟩, by rw [statics]; rfl, ?_⟩
    · rw [statics]
      show (BitVec.ofNat 64 (frames m)).toNat = _
      rw [BitVec.toNat_ofNat]
      exact Nat.mod_eq_of_lt ((Nat.div_le_self _ _).trans_lt space)
    · rw [statics]
      exact toNat_bitmapBytes hm
    · rw [statics]
      show (BitVec.ofNat 8 (usable m).length).toNat = _
      rw [BitVec.toNat_ofNat]
      exact Nat.mod_eq_of_lt (by omega)
    · rw [statics]
      simp [readyPmem, regions]
    · intro x
      rw [bytes x]
      simp [atBoot, Machine.v2p, statics, offset, readyPmem]

/-- Start-up returns when an entry has room for the bitmap, its direct-map address is not null and
the bitmap is short enough for the counter of `initialize_bitmap`. -/
theorem initializeMemmap_returns {m : List MemmapEntry} (hm : Conformant m) {e : MemmapEntry}
    (he : home m = some e) {off : U64} (mapped : e.base + off ≠ 0#64)
    (short : bitmapBytes m < 2 ^ 32) {fuel : ℕ} (enough : bitmapBytes m < fuel) (mem : Mem) :
    ∃ s, (initializeMemmap fuel m off).run (atBoot mem) = .ok () s := by
  rw [(run_initializeMemmap hm fuel off mem).1 e he, run_initializeBitmap,
    if_neg (by simpa [readyPmem] using mapped)]
  apply initializeBitmapLoop_returns <;> simp only [readyPmem, toNat_bitmapBytes hm]
  · exact short
  · exact Nat.zero_le _
  · exact (Nat.sub_le _ _).trans_lt enough

end Bintos
