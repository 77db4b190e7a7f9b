import Bintos.Lib.Segments
import Bintos.Lib.Words
import Bintos.Pmem.Source

/-!
# Memory maps and their region tables

What the bootloader promises about a memory map (`Conformant`), and what the allocator makes of it
in terms of the map alone: the number of usable frames, the length of the bitmap, the entries it
fits in, and the region table (`regions`) that `initializeMemmap` leaves behind.
-/

namespace Bintos

/-- The usable entries of a memory map, in order. -/
def usable (m : List MemmapEntry) : List MemmapEntry := m.filter (·.type = memmapUsable)

namespace MemmapEntry

/-- The physical addresses of an entry. -/
def extent (e : MemmapEntry) : Set ℕ := Set.Ico e.base.toNat (e.base.toNat + e.length.toNat)

end MemmapEntry

/-- What the bootloader promises about the usable entries of a memory map.  That they end below the
52-bit limit of physical addresses is not needed: no entry wraps around the address space. -/
structure Conformant (m : List MemmapEntry) : Prop where
  count : m.length ≤ 32
  aligned : ∀ e ∈ usable m, e.base.toNat % 4096 = 0 ∧ e.length.toNat % 4096 = 0
  above : ∀ e ∈ usable m, 0x1000 ≤ e.base.toNat
  fits : ∀ e ∈ usable m, e.base.toNat + e.length.toNat < 2 ^ 64
  apart : (usable m).Pairwise fun a b => Disjoint a.extent b.extent

/-- The bytes of usable memory. -/
def freeSpace (m : List MemmapEntry) : ℕ := Segments.total (·.length.toNat) (usable m)

/-- The number of usable frames (`max_frames`). -/
def frames (m : List MemmapEntry) : ℕ := freeSpace m / 4096

/-- The length of the bitmap in bytes (`bitmap_length`). -/
def bitmapBytes (m : List MemmapEntry) : ℕ := frames m / 2

/-- The pages that the bitmap occupies. -/
def bitmapPages (m : List MemmapEntry) : ℕ := (bitmapBytes m + 4095) / 4096

/-- The entry is long enough for the bitmap. -/
def Fits (m : List MemmapEntry) (e : MemmapEntry) : Prop := bitmapBytes m ≤ e.length.toNat

instance (m : List MemmapEntry) : DecidablePred (Fits m) := fun _ => inferInstanceAs (Decidable (_ ≤ _))

/-- The pages that the bitmap search takes off the front of an entry's region. -/
def lostPages (m : List MemmapEntry) (e : MemmapEntry) : ℕ := if Fits m e then bitmapPages m else 0

/-- The region of a whole entry. -/
def wholeRegion (e : MemmapEntry) : Region :=
  ⟨e.base, e.base + e.length, e.length / frameAllocationSize⟩

/-- Page `k` of a region. -/
def Region.page (r : Region) (k : ℕ) : U64 := r.start + BitVec.ofNat 64 (4096 * k)

/-- The region that start-up leaves for an entry. -/
def finalRegion (m : List MemmapEntry) (e : MemmapEntry) : Region :=
  if Fits m e then (wholeRegion e).carve (BitVec.ofNat 64 (bitmapBytes m)) else wholeRegion e

/-- The region table that start-up leaves for a memory map. -/
def regions (m : List MemmapEntry) : List Region := (usable m).map (finalRegion m)

/-- The pages counted in the region table. -/
def capacity (m : List MemmapEntry) : ℕ := Segments.total (·.pages.toNat) (regions m)

/-! ### Rounding -/

theorem toNat_pageMask (va : U64) :
    (va &&& ~~~(frameAllocationSize - 1)).toNat = va.toNat / 4096 * 4096 :=
  Words.toNat_and_not_mask va 12

theorem toNat_pgRoundUp {va : U64} (h : va.toNat + 4095 < 2 ^ 64) :
    (pgRoundUp va).toNat = (va.toNat + 4095) / 4096 * 4096 := by
  have sum : (va + frameAllocationSize - 1).toNat = va.toNat + 4095 := by
    unfold frameAllocationSize
    bv_omega
  rw [pgRoundUp, toNat_pageMask, sum]

theorem toNat_pgRoundDown (va : U64) : (pgRoundDown va).toNat = va.toNat / 4096 * 4096 :=
  toNat_pageMask va

/-! ### The table in numbers -/

section Conformant

variable {m : List MemmapEntry}

theorem length_usable_le (hm : Conformant m) : (usable m).length ≤ 32 :=
  (List.length_filter_le _ _).trans hm.count

/-- Different usable entries have no address in common. -/
theorem Conformant.disjoint (hm : Conformant m) {e e' : MemmapEntry} (he : e ∈ usable m)
    (he' : e' ∈ usable m) (h : e ≠ e') : Disjoint e.extent e'.extent := by
  have symm : Std.Symm fun a b : MemmapEntry => Disjoint a.extent b.extent :=
    ⟨fun _ _ apart => apart.symm⟩
  exact hm.apart.forall he he' h

/-- The lengths of the usable entries add up without wrapping. -/
theorem freeSpace_lt (hm : Conformant m) : freeSpace m < 2 ^ 64 := by
  have bound : freeSpace m ≤ 2 ^ 64 - 0x1000 := by
    have lengths : (fun e : MemmapEntry => e.length.toNat) =
        fun e => e.base.toNat + e.length.toNat - e.base.toNat := by
      funext e
      omega
    rw [freeSpace, lengths]
    exact Segments.total_le_of_disjoint hm.apart fun e he => ⟨hm.above e he, (hm.fits e he).le⟩
  omega

theorem bitmapBytes_lt (hm : Conformant m) : bitmapBytes m < 2 ^ 51 := by
  have := freeSpace_lt hm
  unfold bitmapBytes frames
  omega

theorem toNat_bitmapBytes (hm : Conformant m) :
    (BitVec.ofNat 64 (bitmapBytes m)).toNat = bitmapBytes m := by
  have := bitmapBytes_lt hm
  rw [BitVec.toNat_ofNat, Nat.mod_eq_of_lt (by omega)]

theorem lostPages_le (hm : Conformant m) {e : MemmapEntry} (he : e ∈ usable m) :
    lostPages m e ≤ e.length.toNat / 4096 := by
  have aligned := (hm.aligned e he).2
  unfold lostPages
  split_ifs with h
  · unfold Fits at h
    unfold bitmapPages
    omega
  · exact Nat.zero_le _

theorem toNat_wholeRegion_end (hm : Conformant m) {e : MemmapEntry} (he : e ∈ usable m) :
    (wholeRegion e).end_.toNat = e.base.toNat + e.length.toNat := by
  have fits := hm.fits e he
  show (e.base + e.length).toNat = _
  rw [BitVec.toNat_add, Nat.mod_eq_of_lt fits]

theorem finalRegion_end (e : MemmapEntry) : (finalRegion m e).end_ = (wholeRegion e).end_ := by
  unfold finalRegion Region.carve
  split_ifs <;> rfl

theorem toNat_finalRegion_start (hm : Conformant m) {e : MemmapEntry} (he : e ∈ usable m) :
    (finalRegion m e).start.toNat = e.base.toNat + 4096 * lostPages m e := by
  have aligned := hm.aligned e he
  have fits := hm.fits e he
  unfold finalRegion lostPages
  split_ifs with h
  · have sum : (e.base + BitVec.ofNat 64 (bitmapBytes m)).toNat =
        e.base.toNat + bitmapBytes m := by
      unfold Fits at h
      rw [BitVec.toNat_add, toNat_bitmapBytes hm, Nat.mod_eq_of_lt (by omega)]
    show (pgRoundUp (e.base + BitVec.ofNat 64 (bitmapBytes m))).toNat = _
    unfold Fits at h
    rw [toNat_pgRoundUp (by omega), sum]
    unfold bitmapPages
    omega
  · simp [wholeRegion]

theorem finalRegion_pages (e : MemmapEntry) : (finalRegion m e).pages =
    ((finalRegion m e).end_ - (finalRegion m e).start) / frameAllocationSize := by
  unfold finalRegion
  split_ifs
  · rfl
  · simp [wholeRegion, BitVec.add_comm e.base]

theorem toNat_finalRegion_pages (hm : Conformant m) {e : MemmapEntry} (he : e ∈ usable m) :
    (finalRegion m e).pages.toNat = e.length.toNat / 4096 - lostPages m e := by
  have start := toNat_finalRegion_start hm he
  have aligned := hm.aligned e he
  have lost := lostPages_le hm he
  have ends := toNat_wholeRegion_end hm he
  rw [← finalRegion_end (m := m)] at ends
  have bytes : ((finalRegion m e).end_ - (finalRegion m e).start).toNat =
      e.length.toNat - 4096 * lostPages m e := by
    bv_omega
  rw [finalRegion_pages, BitVec.toNat_udiv, bytes]
  show (e.length.toNat - 4096 * lostPages m e) / 4096 = _
  omega

/-- The pages in the table and the pages that the bitmap search took off are the usable frames. -/
theorem capacity_add_lost (hm : Conformant m) :
    capacity m + Segments.total (lostPages m) (usable m) = frames m := by
  have aligned := fun e he => (hm.aligned e he).2
  have pages := fun e he => toNat_finalRegion_pages hm (e := e) he
  have lost := fun e he => lostPages_le hm (e := e) he
  unfold capacity regions frames freeSpace
  generalize usable m = l at aligned pages lost
  induction l with
  | nil => rfl
  | cons e l ih =>
    have rest := ih (fun a ha => aligned a (List.mem_cons_of_mem e ha))
      (fun a ha => pages a (List.mem_cons_of_mem e ha))
      (fun a ha => lost a (List.mem_cons_of_mem e ha))
    have aligned_e := aligned e List.mem_cons_self
    have pages_e := pages e List.mem_cons_self
    have lost_e := lost e List.mem_cons_self
    rw [List.map_cons, Segments.total_cons, Segments.total_cons, Segments.total_cons]
    omega

theorem capacity_le (hm : Conformant m) : capacity m ≤ frames m := by
  have := capacity_add_lost hm
  omega

/-- The entry with the bitmap loses a page, unless there is no bitmap. -/
theorem capacity_lt (hm : Conformant m) {e : MemmapEntry} (he : e ∈ usable m) (fits : Fits m e)
    (two : 2 ≤ frames m) : capacity m < frames m := by
  have sum := capacity_add_lost hm
  have one : lostPages m e ≤ Segments.total (lostPages m) (usable m) :=
    Segments.le_total (lostPages m) he
  have page : 1 ≤ lostPages m e := by
    rw [lostPages, if_pos fits, bitmapPages, bitmapBytes]
    omega
  omega

/-- The pages of a region are the frames of its entry past those it lost. -/
theorem toNat_finalRegion_page (hm : Conformant m) {e : MemmapEntry} (he : e ∈ usable m) {k : ℕ}
    (hk : k < (finalRegion m e).pages.toNat) :
    ((finalRegion m e).page k).toNat = e.base.toNat + 4096 * (lostPages m e + k) := by
  have aligned := (hm.aligned e he).2
  have fits := hm.fits e he
  have start := toNat_finalRegion_start hm he
  rw [toNat_finalRegion_pages hm he] at hk
  rw [Region.page, BitVec.toNat_add, BitVec.toNat_ofNat, start]
  omega

end Conformant

end Bintos
