import Bintos.Pmem.Setup

/-!
# Which regions the bitmap shortens

The search for room goes on after it has found some, so every usable entry that is long enough for
the bitmap loses pages, and the bitmap ends up on the last one.  `oneCarved_iff` says for which maps
this is the intended single carve-out.
-/

namespace Bintos

/-- The region of an entry without the first `n` pages. -/
def shortened (n : ℕ) (e : MemmapEntry) : Region :=
  ⟨e.base + BitVec.ofNat 64 (4096 * n), e.base + e.length,
    BitVec.ofNat 64 (e.length.toNat / 4096 - n)⟩

/-- The table has one region for each usable entry, in order, and only that of the entry with the
bitmap is shortened, by the pages that the bitmap occupies. -/
def OneCarved (m : List MemmapEntry) (s : Kernel) : Prop :=
  s.alloc.numRegions.toNat = (usable m).length ∧
  ∃ (h : ℕ) (e : MemmapEntry), (usable m)[h]? = some e ∧ e.base = s.alloc.frameMap - s.hhdmoff ∧
    s.alloc.bitmapLength ≤ e.length ∧
    ∀ (k : ℕ) (e' : MemmapEntry), (usable m)[k]? = some e' → s.alloc.regionInfo[k]? = some
      (shortened (if k = h then (s.alloc.bitmapLength.toNat + 4095) / 4096 else 0) e')

/-- Usable entry `k` is long enough for the bitmap. -/
def FitsAt (m : List MemmapEntry) (k : ℕ) : Prop :=
  ∃ e : MemmapEntry, (usable m)[k]? = some e ∧ Fits m e

/-! ### Two small maps -/

/-- One usable entry of three frames, after a reserved one. -/
def oneEntry : List MemmapEntry := [⟨0, 0x1000, 1⟩, ⟨0x1000, 0x3000, memmapUsable⟩]

/-- Two usable entries of one frame each. -/
def twoEntries : List MemmapEntry := [⟨0x1000, 0x1000, memmapUsable⟩, ⟨0x3000, 0x1000, memmapUsable⟩]

/-- A direct-map offset in the higher half. -/
def higherHalf : U64 := 0xffff800000000000#64

theorem conformant_oneEntry : Conformant oneEntry := by
  constructor <;> simp [usable, oneEntry, memmapUsable]

theorem conformant_twoEntries : Conformant twoEntries := by
  constructor <;> simp [usable, twoEntries, memmapUsable, MemmapEntry.extent,
    Set.Ico_disjoint_Ico]

theorem oneEntry_starts (mem : Mem) :
    ∃ s, (initializeMemmap 2 oneEntry higherHalf).run (atBoot mem) = .ok () s :=
  initializeMemmap_returns conformant_oneEntry (e := ⟨0x1000, 0x3000, memmapUsable⟩) (by decide)
    (by decide) (by decide) (by decide) mem

theorem twoEntries_starts (mem : Mem) :
    ∃ s, (initializeMemmap 2 twoEntries higherHalf).run (atBoot mem) = .ok () s :=
  initializeMemmap_returns conformant_twoEntries (e := ⟨0x3000, 0x1000, memmapUsable⟩) (by decide)
    (by decide) (by decide) (by decide) mem

section Conformant

variable {m : List MemmapEntry} {off : U64} {s : Kernel}

theorem finalRegion_eq_shortened (hm : Conformant m) {e : MemmapEntry} (he : e ∈ usable m) :
    finalRegion m e = shortened (lostPages m e) e := by
  have fits := hm.fits e he
  have lost := lostPages_le hm he
  have start : (finalRegion m e).start = (shortened (lostPages m e) e).start := by
    apply BitVec.eq_of_toNat_eq
    rw [toNat_finalRegion_start hm he]
    show _ = (e.base + BitVec.ofNat 64 (4096 * lostPages m e)).toNat
    rw [BitVec.toNat_add, BitVec.toNat_ofNat]
    omega
  have ends : (finalRegion m e).end_ = (shortened (lostPages m e) e).end_ := finalRegion_end e
  have pages : (finalRegion m e).pages = (shortened (lostPages m e) e).pages := by
    apply BitVec.eq_of_toNat_eq
    rw [toNat_finalRegion_pages hm he]
    show _ = (BitVec.ofNat 64 (e.length.toNat / 4096 - lostPages m e)).toNat
    rw [BitVec.toNat_ofNat, Nat.mod_eq_of_lt (by omega)]
  rw [Region.mk.injEq] at *
  exact ⟨start, ends, pages⟩

/-- Regions that lost different numbers of pages differ. -/
theorem shortened_inj (hm : Conformant m) {e : MemmapEntry} (he : e ∈ usable m) {i j : ℕ}
    (hi : i ≤ e.length.toNat / 4096) (hj : j ≤ e.length.toNat / 4096)
    (same : shortened i e = shortened j e) : i = j := by
  have fits := hm.fits e he
  have pages := congrArg (fun r => r.pages.toNat) same
  simp only [shortened, BitVec.toNat_ofNat] at pages
  omega

/-- Entry `k` of the table is what is left of usable entry `k`. -/
theorem Started.getElem? (hm : Conformant m) (hs : Started m off s) {k : ℕ} {e : MemmapEntry}
    (hk : (usable m)[k]? = some e) :
    s.alloc.regionInfo[k]? = some (shortened (lostPages m e) e) := by
  have he : e ∈ usable m := List.mem_of_getElem? hk
  have inside : k < (usable m).length := (List.getElem?_eq_some_iff.1 hk).1
  have entry := congrArg (·[k]?) hs.regionInfo
  simp only [List.getElem?_take_of_lt inside, regions, List.getElem?_map, hk, Option.map_some,
    finalRegion_eq_shortened hm he] at entry
  exact entry

theorem Started.frameMap_sub (hs : Started m off s) :
    ∃ e, home m = some e ∧ e.base = s.alloc.frameMap - s.hhdmoff := by
  obtain ⟨e, he, map⟩ := hs.frameMap
  refine ⟨e, he, ?_⟩
  rw [map, hs.hhdmoff, BitVec.add_sub_cancel]

theorem Started.bitmapLength_le (hs : Started m off s) (e : MemmapEntry) :
    s.alloc.bitmapLength ≤ e.length ↔ Fits m e := by
  rw [BitVec.le_def, hs.bitmapLength, Fits]

/-- A single carve-out means that only one entry is long enough. -/
theorem OneCarved.unique_fit (hm : Conformant m) (hs : Started m off s) (one : OneCarved m s)
    (some_bytes : bitmapBytes m ≠ 0) : ∃! k, FitsAt m k := by
  obtain ⟨-, h, e, he, -, long, table⟩ := one
  refine ⟨h, ⟨e, he, (hs.bitmapLength_le e).1 long⟩, ?_⟩
  rintro k ⟨e', he', fits⟩
  by_contra other
  have mem : e' ∈ usable m := List.mem_of_getElem? he'
  have same := table k e' he'
  rw [if_neg other, hs.getElem? hm he', Option.some_inj] at same
  have none_lost := shortened_inj hm mem (lostPages_le hm mem) (Nat.zero_le _) same
  rw [lostPages, if_pos fits, bitmapPages] at none_lost
  omega

/-- When at most one entry is shortened, it is the one with the bitmap. -/
theorem oneCarved_of (hm : Conformant m) (hs : Started m off s)
    (single : bitmapBytes m = 0 ∨ ∃! k, FitsAt m k) :
    OneCarved m s := by
  obtain ⟨e, he, base⟩ := hs.frameMap_sub
  obtain ⟨mem, fits⟩ := home_mem he
  obtain ⟨h, inside, rfl⟩ := List.getElem_of_mem mem
  have hh : (usable m)[h]? = some (usable m)[h] := List.getElem?_eq_getElem inside
  refine ⟨hs.numRegions, h, _, hh, base, (hs.bitmapLength_le _).2 fits, ?_⟩
  intro k e' he'
  rw [hs.getElem? hm he', hs.bitmapLength]
  congr 2
  rcases single with empty | ⟨k₀, -, unique⟩
  · simp [lostPages, bitmapPages, empty]
  · have at_h := unique h ⟨_, hh, fits⟩
    by_cases same : k = h
    · subst same
      rw [hh, Option.some_inj] at he'
      rw [← he', lostPages, if_pos fits, if_pos rfl, bitmapPages]
    · rw [if_neg same, lostPages, if_neg]
      intro fits'
      exact same ((unique k ⟨e', he', fits'⟩).trans at_h.symm)

/-- **The bitmap shortens one region** exactly when there are fewer than two usable frames or just
one usable entry is long enough for the bitmap. -/
theorem oneCarved_iff (hm : Conformant m) {fuel : ℕ} {mem : Mem}
    (returns : (initializeMemmap fuel m off).run (atBoot mem) = .ok () s) :
    OneCarved m s ↔ bitmapBytes m = 0 ∨ ∃! k, FitsAt m k := by
  have hs := (initializeMemmap_spec hm returns).1
  constructor
  · intro one
    exact or_iff_not_imp_left.2 (one.unique_fit hm hs)
  · exact oneCarved_of hm hs

end Conformant

/-- With one usable entry there is one carve-out. -/
theorem oneCarved_oneEntry : ∃ s,
    (initializeMemmap 2 oneEntry higherHalf).run (atBoot fun _ => 0) = .ok () s ∧
      OneCarved oneEntry s := by
  obtain ⟨s, returns⟩ := oneEntry_starts fun _ => 0
  refine ⟨s, returns, (oneCarved_iff conformant_oneEntry returns).2 (Or.inr ⟨0, ?_, ?_⟩)⟩
  · exact ⟨⟨0x1000, 0x3000, memmapUsable⟩, by decide, by decide⟩
  · rintro k ⟨e, at_k, -⟩
    have inside : k < (usable oneEntry).length := (List.getElem?_eq_some_iff.1 at_k).1
    have one : (usable oneEntry).length = 1 := by decide
    omega

/-- With two usable entries of one frame each, the bitmap of one byte shortens both regions. -/
theorem not_oneCarved_twoEntries : ∃ s,
    (initializeMemmap 2 twoEntries higherHalf).run (atBoot fun _ => 0) = .ok () s ∧
      ¬ OneCarved twoEntries s := by
  obtain ⟨s, returns⟩ := twoEntries_starts fun _ => 0
  refine ⟨s, returns, fun one => ?_⟩
  have started := (initializeMemmap_spec conformant_twoEntries returns).1
  have unique := one.unique_fit conformant_twoEntries started (by decide)
  have first : FitsAt twoEntries 0 := ⟨⟨0x1000, 0x1000, memmapUsable⟩, by decide, by decide⟩
  have second : FitsAt twoEntries 1 := ⟨⟨0x3000, 0x1000, memmapUsable⟩, by decide, by decide⟩
  exact absurd (unique.unique first second) (by decide)

end Bintos
