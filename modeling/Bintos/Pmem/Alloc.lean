import Bintos.Pmem.Flags
import Bintos.Pmem.Walk

/-!
# One call of `frameAlloc`

From a machine whose cursor is at an available frame, a call is the walk over the region table, with
the frame's nibble cleared and the cursor advanced (`run_frameAlloc_avail`).  `Ready` is what start-up
establishes and every call keeps: the statics of `Started`, and `AVAIL` in every nibble of the bitmap
that the cursor has not passed.
-/

namespace Bintos

/-- The machine once the frame at the cursor is marked, before the walk. -/
def markTaken (s : Kernel) : Kernel :=
  ((putFlags (s.touch (flagAccess s s.alloc.index)) s.alloc.index
    (flagsOf s s.alloc.index &&& 0b0111)).touch (flagAccess s s.alloc.index)).touch
      (flagAccess s s.alloc.index)

/-- The machine once the frame of `n` bytes at `addr` is handed out. -/
def handOut (zeroed : Bool) (addr : U64) (n : ℕ) (s : Kernel) : Kernel :=
  if zeroed then
    { s.touch ⟨.clear, addr + s.hhdmoff, n⟩ with
      mem := s.mem.fill addr 0 n
      alloc := { s.alloc with index := s.alloc.index + 1 } }
  else { s with alloc := { s.alloc with index := s.alloc.index + 1 } }

/-- The machine after a failed round of the skip loop, whose assertion has failed. -/
def overrun (s : Kernel) : Kernel :=
  ({ s.touch (flagAccess s s.alloc.index) with
    alloc := { s.alloc with index := s.alloc.index + 1 } } : Kernel).touch
      (flagAccess s (s.alloc.index + 1))

@[simp] theorem putFlags_alloc (s : Kernel) (frameNo : U64) (flags : U8) :
    (putFlags s frameNo flags).alloc = s.alloc := rfl
@[simp] theorem flagAccess_touch (s : Kernel) (a : Access) (frameNo : U64) :
    flagAccess (s.touch a) frameNo = flagAccess s frameNo := rfl
@[simp] theorem markTaken_alloc (s : Kernel) : (markTaken s).alloc = s.alloc := rfl
@[simp] theorem markTaken_hhdmoff (s : Kernel) : (markTaken s).hhdmoff = s.hhdmoff := rfl

theorem run_frameAlloc_exhausted (zeroed : Bool) {s : Kernel}
    (past : s.alloc.maxFrames ≤ s.alloc.index) : (frameAlloc zeroed).run s = .ok (-1) s := by
  simp [frameAlloc, past]

theorem run_skipUnavail_avail (fuel : ℕ) {flag : U8} (free : flag &&& avail ≠ 0) (s : Kernel) :
    (skipUnavail (fuel + 1) flag).run s = .ok flag s := by
  simp only [skipUnavail, if_neg free]
  rfl

theorem run_skipUnavail_last (fuel : ℕ) {flag : U8} (busy : flag &&& avail = 0) {s : Kernel}
    (last : ¬ s.alloc.index + 1 < s.alloc.maxFrames) :
    (skipUnavail (fuel + 1) flag).run s = .error .halted
      (({ s with alloc := { s.alloc with index := s.alloc.index + 1 } } : Kernel).touch
        (flagAccess s (s.alloc.index + 1))) := by
  simp only [skipUnavail, if_pos busy, EStateM.run_bind, run_modifyPmem, EStateM.run_get,
    run_getFrameFlags, Machine.touch_alloc, last, decide_false, run_chassert_false]
  rfl

/-- The end of a call, once the address is known; `n` is the size of a frame. -/
theorem run_handOut (zeroed : Bool) (addr n : U64) (s : Kernel) :
    (do
      modifyPmem fun p => { p with index := p.index + 1 }
      if zeroed then
        memset (addr + (← get).hhdmoff) 0 n
      return addr : Kern Pmem U64).run s = .ok addr (handOut zeroed addr n.toNat s) := by
  cases zeroed
  · rfl
  · simp [handOut, Machine.v2p, Machine.touch]

section Started

variable {m : List MemmapEntry} {off : U64} {s : Kernel}

theorem length_regions (m : List MemmapEntry) : (regions m).length = (usable m).length :=
  List.length_map ..

/-- In a started kernel the walk is the walk over the regions of the map. -/
theorem Started.run_regionWalk (hm : Conformant m) (hs : Started m off s) (some_region : usable m ≠ [])
    (copy : U64) :
    (regionWalk 256 0 copy).run s =
      match walkTable (regions m) copy with
      | some p => .ok p s
      | none => .error .halted s := by
  have few := length_usable_le hm
  refine Bintos.run_regionWalk [] (regions m) ?_ ?_ ?_ ?_ ?_
  · simp [length_regions, hs.numRegions]
  · simpa [length_regions] using few
  · simpa [length_regions] using hs.regionInfo
  · simpa [regions] using some_region
  · rw [length_regions]
    omega

/-- The statics of `Started` do not include the cursor, and no memory. -/
theorem Started.of_statics {s' : Kernel} (hs : Started m off s) (offset : s'.hhdmoff = s.hhdmoff)
    (statics : ∃ i, s'.alloc = { s.alloc with index := i }) : Started m off s' := by
  obtain ⟨i, statics⟩ := statics
  exact ⟨offset.trans hs.hhdmoff, by rw [statics]; exact hs.maxFrames,
    by rw [statics]; exact hs.bitmapLength, by rw [statics]; exact hs.numRegions,
    by rw [statics]; exact hs.regionInfo, by rw [statics]; exact hs.frameMap, hs.short⟩

/-- A call with an available frame at the cursor. -/
theorem run_frameAlloc_avail (hm : Conformant m) (hs : Started m off s) (zeroed : Bool)
    (some_region : usable m ≠ []) (more : s.alloc.index < s.alloc.maxFrames)
    (free : flagsOf s s.alloc.index &&& avail ≠ 0) :
    (frameAlloc zeroed).run s =
      match walkTable (regions m) s.alloc.index with
      | some p => .ok (walkAddr p) (handOut zeroed (walkAddr p) frameAllocationSize.toNat (markTaken s))
      | none => .error .halted (markTaken s) := by
  have marked : Started m off (markTaken s) := hs.of_statics rfl ⟨s.alloc.index, rfl⟩
  have walk := marked.run_regionWalk hm some_region s.alloc.index
  have inside : ¬ s.alloc.maxFrames ≤ s.alloc.index := BitVec.not_le.2 more
  unfold markTaken at walk
  simp only [frameAlloc, EStateM.run_bind, EStateM.run_get, if_neg inside, run_getFrameFlags,
    Machine.touch_alloc, run_skipUnavail_avail _ free, run_setFrameFlags, putFlags_alloc,
    flagAccess_touch, walk]
  cases walkTable (regions m) s.alloc.index with
  | none => rfl
  | some p => exact run_handOut zeroed (walkAddr p) frameAllocationSize (markTaken s)

/-- A call with an unavailable frame at the cursor and no frame after it. -/
theorem run_frameAlloc_last (zeroed : Bool) (more : s.alloc.index < s.alloc.maxFrames)
    (last : ¬ s.alloc.index + 1 < s.alloc.maxFrames)
    (busy : flagsOf s s.alloc.index &&& avail = 0) :
    (frameAlloc zeroed).run s = .error .halted (overrun s) := by
  have inside : ¬ s.alloc.maxFrames ≤ s.alloc.index := BitVec.not_le.2 more
  have stop := run_skipUnavail_last (s.alloc.maxFrames - s.alloc.index).toNat busy
    (s := s.touch (flagAccess s s.alloc.index)) last
  simp only [frameAlloc, EStateM.run_bind, EStateM.run_get, if_neg inside, run_getFrameFlags,
    Machine.touch_alloc, stop]
  rfl

end Started

/-! ### Frames and the bitmap -/

/-- A frame of a usable entry, past the pages that the entry's region lost. -/
def IsFrame (m : List MemmapEntry) (a : U64) : Prop :=
  ∃ e ∈ usable m, ∃ k, lostPages m e + k < e.length.toNat / 4096 ∧
    a.toNat = e.base.toNat + 4096 * (lostPages m e + k)

section Ready

variable {m : List MemmapEntry} {off : U64} {s : Kernel} {a : U64}

/-- Every address that the walk can lead to is a frame. -/
theorem isFrame_of_walk (hm : Conformant m) {copy : U64} {p : U64 × U64}
    (ends : walkTable (regions m) copy = some p) : IsFrame m (walkAddr p) := by
  have pages : ∀ r ∈ regions m, r.pages.toNat < 2 ^ 63 := by
    intro r hr
    obtain ⟨e, he, rfl⟩ := List.mem_map.1 hr
    have fits := hm.fits e he
    rw [toNat_finalRegion_pages hm he]
    omega
  obtain ⟨r, hr, start, inside⟩ := walkTable_mem pages ends
  obtain ⟨e, he, rfl⟩ := List.mem_map.1 hr
  obtain ⟨first, copy'⟩ := p
  cases start
  have small : copy'.toNat % 2 ^ 20 < (finalRegion m e).pages.toNat := by
    have : copy'.toNat % 2 ^ 20 ≤ copy'.toNat % 2 ^ 32 := by omega
    exact this.trans_lt inside
  refine ⟨e, he, copy'.toNat % 2 ^ 20, ?_, ?_⟩
  · rw [toNat_finalRegion_pages hm he] at small
    omega
  · rw [walkAddr_eq_page, toNat_finalRegion_page hm he small]

theorem IsFrame.aligned (hm : Conformant m) (ha : IsFrame m a) : a.toNat % 4096 = 0 := by
  obtain ⟨e, he, k, -, addr⟩ := ha
  have aligned := (hm.aligned e he).1
  omega

theorem IsFrame.ne_neg_one (hm : Conformant m) (ha : IsFrame m a) : a ≠ -1 := by
  rintro rfl
  exact absurd (ha.aligned hm) (by decide)

theorem IsFrame.inside (ha : IsFrame m a) : ∃ e ∈ usable m,
    e.base.toNat ≤ a.toNat ∧ a.toNat + 4096 ≤ e.base.toNat + e.length.toNat := by
  obtain ⟨e, he, k, hk, addr⟩ := ha
  exact ⟨e, he, by omega, by omega⟩

/-- The bytes of a frame are no bytes of the bitmap. -/
theorem Started.apart_bitmap (hm : Conformant m) (hs : Started m off s) (ha : IsFrame m a)
    {x : U64} (hx : Mem.InRange a 4096 x) :
    ¬ Mem.InRange (s.v2p s.alloc.frameMap) (bitmapBytes m) x := by
  obtain ⟨e, he, k, hk, addr⟩ := ha
  obtain ⟨e', home, map⟩ := hs.frameMap
  obtain ⟨he', fits'⟩ := home_mem home
  have place : s.v2p s.alloc.frameMap = e'.base := by
    rw [map, Machine.v2p, hs.hhdmoff, BitVec.add_sub_cancel]
  have fits := hm.fits e he
  have fits₂ := hm.fits e' he'
  have room : bitmapBytes m ≤ e'.length.toNat := fits'
  rw [Mem.inRange_iff (by omega)] at hx
  rw [place, Mem.inRange_iff (by omega)]
  rintro ⟨low, high⟩
  by_cases same : e = e'
  · subst same
    rw [lostPages, if_pos fits', bitmapPages] at addr
    omega
  · have apart := hm.disjoint he he' same
    unfold MemmapEntry.extent at apart
    rw [Set.Ico_disjoint_Ico] at apart
    omega

/-- What start-up establishes and every call of `frame_alloc` keeps. -/
structure Ready (m : List MemmapEntry) (off : U64) (s : Kernel) : Prop extends
    Started m off s where
  cursor : s.alloc.index.toNat ≤ frames m
  ahead : ∀ i : U64, s.alloc.index ≤ i → i.toNat < 2 * bitmapBytes m → flagsOf s i = avail

/-- The flags of the first `2 * bitmap_length` frames are in the bitmap. -/
theorem inRange_flagByte {n : ℕ} {i : U64} (hi : i.toNat < 2 * n) :
    Mem.InRange (s.v2p s.alloc.frameMap) n (s.v2p (flagByte s i)) := by
  have shift : s.v2p (flagByte s i) - s.v2p s.alloc.frameMap = i >>> 1 := by
    unfold Machine.v2p flagByte
    ring
  rw [Mem.InRange, shift, BitVec.toNat_ushiftRight, Nat.shiftRight_eq_div_pow]
  omega

theorem ready_of_initializeMemmap (hm : Conformant m) {fuel : ℕ} {mem : Mem}
    (returns : (initializeMemmap fuel m off).run (atBoot mem) = .ok () s) : Ready m off s := by
  obtain ⟨hs, index, bytes⟩ := initializeMemmap_spec hm returns
  refine ⟨hs, by simp [index], fun i _ hi => ?_⟩
  rw [flagsOf, bytes, if_pos (inRange_flagByte hi)]
  unfold nibbleShift
  split_ifs <;> decide

/-- A change of memory outside the bitmap keeps the kernel ready. -/
theorem Ready.of_mem {s' : Kernel} (hr : Ready m off s) (offset : s'.hhdmoff = s.hhdmoff)
    (statics : s'.alloc = s.alloc)
    (same : ∀ x, Mem.InRange (s.v2p s.alloc.frameMap) (bitmapBytes m) x → s'.mem x = s.mem x) :
    Ready m off s' := by
  refine ⟨hr.of_statics offset ⟨s.alloc.index, statics⟩, by rw [statics]; exact hr.cursor, ?_⟩
  intro i hi inside
  rw [statics] at hi
  rw [← hr.ahead i hi inside]
  unfold flagsOf flagByte Machine.v2p
  rw [offset, statics]
  exact congrArg (nibble _) (same _ (inRange_flagByte inside))

/-- A call that hands a frame out keeps the kernel ready. -/
theorem Ready.handedOut (hm : Conformant m) (hr : Ready m off s) (zeroed : Bool) (ha : IsFrame m a)
    (more : s.alloc.index.toNat < frames m) :
    Ready m off (handOut zeroed a frameAllocationSize.toNat (markTaken s)) := by
  have next : (s.alloc.index + 1).toNat = s.alloc.index.toNat + 1 := by
    have := hr.maxFrames ▸ s.alloc.maxFrames.isLt
    bv_omega
  have advanced : Ready m off
      { markTaken s with alloc := { s.alloc with index := s.alloc.index + 1 } } := by
    refine ⟨hr.of_statics rfl ⟨_, rfl⟩, ?_, fun i hi inside => ?_⟩
    · show (s.alloc.index + 1).toNat ≤ _
      omega
    · have past : s.alloc.index.toNat + 1 ≤ i.toNat := next ▸ BitVec.le_def.1 hi
      have other : i ≠ s.alloc.index := by
        rintro rfl
        omega
      have small : flagsOf s s.alloc.index &&& 0b0111 < 16 := by
        rw [BitVec.lt_def, BitVec.toNat_and]
        exact Nat.and_le_right.trans_lt (by decide)
      rw [← hr.ahead i (BitVec.le_def.2 (by omega)) inside]
      exact flagsOf_putFlags_of_ne s other small
  cases zeroed
  · exact advanced
  · refine advanced.of_mem rfl rfl fun x hx => ?_
    refine Mem.fill_of_not_inRange _ _ (by decide) fun inside => ?_
    exact hr.apart_bitmap hm ha inside hx

end Ready

end Bintos
