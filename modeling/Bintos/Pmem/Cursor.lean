import Bintos.Pmem.Enumerate

/-!
# The bitmap and the cursor

In every run the nibble of a frame is 0 once the cursor has passed it and `AVAIL` before (`run_flags`),
whatever the holders of frames store in them.  So the skip loop has nothing to skip as long as the
cursor has a nibble in the bitmap (`bitmap_agrees`).
-/

namespace Bintos

section Flags

variable {m : List MemmapEntry} {off : U64} {s : Kernel} {a j : U64}

/-- The flags of the bitmap depend on its bytes only. -/
theorem flagsOf_congr {s' : Kernel} (offset : s'.hhdmoff = s.hhdmoff)
    (place : s'.alloc.frameMap = s.alloc.frameMap)
    (same : ∀ x, Mem.InRange (s.v2p s.alloc.frameMap) (bitmapBytes m) x → s'.mem x = s.mem x)
    (inside : j.toNat < 2 * bitmapBytes m) : flagsOf s' j = flagsOf s j := by
  unfold flagsOf flagByte Machine.v2p
  rw [offset, place]
  exact congrArg (nibble _) (same _ (inRange_flagByte inside))

/-- To hand a frame out changes no flags. -/
theorem flagsOf_handOut (hm : Conformant m) (hs : Started m off s) (zeroed : Bool)
    (frame : IsFrame m a) (inside : j.toNat < 2 * bitmapBytes m) :
    flagsOf (handOut zeroed a frameAllocationSize.toNat s) j = flagsOf s j := by
  cases zeroed
  · rfl
  · refine flagsOf_congr (m := m) rfl rfl (fun x bitmap => ?_) inside
    exact Mem.fill_of_not_inRange _ _ (by decide) fun here => hs.apart_bitmap hm frame here bitmap

theorem flagsOf_markTaken (s : Kernel) (j : U64) :
    flagsOf (markTaken s) j =
      if j = s.alloc.index then flagsOf s s.alloc.index &&& 0b0111 else flagsOf s j := by
  have small : flagsOf s s.alloc.index &&& 0b0111 < 16 := by
    rw [BitVec.lt_def, BitVec.toNat_and]
    exact Nat.and_le_right.trans_lt (by decide)
  split_ifs with here
  · subst here
    exact flagsOf_putFlags_self s s.alloc.index small
  · exact flagsOf_putFlags_of_ne s here small

/-- Every frame behind the cursor has the flags 0. -/
def Behind (m : List MemmapEntry) (s : Kernel) : Prop :=
  ∀ j : U64, j < s.alloc.index → j.toNat < 2 * bitmapBytes m → flagsOf s j = 0

/-- A call that returns leaves zero flags behind its cursor. -/
theorem Behind.step (hm : Conformant m) (hr : Ready m off s) (behind : Behind m s) {s' : Kernel}
    {zeroed : Bool} (returns : (frameAlloc zeroed).run s = .ok a s') : Behind m s' := by
  rcases hr.frameAlloc_cases hm zeroed with ⟨past, call⟩ | ⟨more, call⟩ | ⟨-, -, call⟩
  · rw [call] at returns
    cases returns
    exact behind
  · cases ends : walkTable (regions m) s.alloc.index with
    | none => simp [call, ends] at returns
    | some p =>
      simp only [call, ends, EStateM.Result.ok.injEq] at returns
      obtain ⟨rfl, rfl⟩ := returns
      have marked : Started m off (markTaken s) := hr.of_statics rfl ⟨s.alloc.index, rfl⟩
      intro j passed inside
      have next : (s.alloc.index + 1).toNat = s.alloc.index.toNat + 1 := by
        have := hr.maxFrames ▸ s.alloc.maxFrames.isLt
        bv_omega
      have passed : j < s.alloc.index + 1 := by cases zeroed <;> exact passed
      rw [flagsOf_handOut hm marked zeroed (isFrame_of_walk hm ends) inside, flagsOf_markTaken]
      split_ifs with here
      · subst here
        rw [hr.ahead _ (BitVec.le_refl _) inside]
        decide
      · refine behind j ?_ inside
        rw [BitVec.lt_def] at passed ⊢
        have other : j.toNat ≠ s.alloc.index.toNat := fun same => here (BitVec.eq_of_toNat_eq same)
        omega
  · simp [call] at returns

end Flags

section Run

variable {m : List MemmapEntry} {off : U64} {fuel : ℕ} {mem : Mem} {s₀ s : Kernel} {rs : List U64}

theorem Run.behind (hm : Conformant m)
    (returns : (initializeMemmap fuel m off).run (atBoot mem) = .ok () s₀) (run : Run s₀ rs s) :
    Behind m s := by
  induction run with
  | start =>
    intro j passed
    rw [(initializeMemmap_spec hm returns).2.1] at passed
    exact absurd passed BitVec.not_lt_zero
  | call zeroed run call ih => exact ih.step hm (run_ready hm returns run).1 call
  | @store rs s a x b run member valid inside ih =>
    obtain ⟨hr, -, answers⟩ := run_ready hm returns run
    obtain ⟨k, hk⟩ := List.mem_iff_getElem?.1 member
    have frame := isFrame_of_answer hm (answers k a hk) valid
    intro j passed nibble
    rw [← ih j passed nibble]
    refine flagsOf_congr (m := m) rfl rfl (fun y bitmap => ?_) nibble
    refine Mem.write_of_ne _ _ ?_
    rintro rfl
    exact hr.apart_bitmap hm frame inside bitmap

/-- In every run the flags of a frame say whether the cursor has passed it. -/
theorem run_flags (hm : Conformant m)
    (returns : (initializeMemmap fuel m off).run (atBoot mem) = .ok () s₀) (run : Run s₀ rs s)
    {j : U64} (inside : j.toNat < 2 * bitmapBytes m) :
    flagsOf s j = if s.alloc.index ≤ j then avail else 0 := by
  split_ifs with ahead
  · exact (run_ready hm returns run).1.ahead j ahead inside
  · exact run.behind hm returns j (BitVec.not_le.1 ahead) inside

/-- **Bitmap and cursor.**  In every run the nibble of a frame in the bitmap is `AVAIL` from the cursor
on and 0 before it, and the skip loop ends at once as long as the cursor has a nibble. -/
theorem bitmap_agrees (hm : Conformant m)
    (returns : (initializeMemmap fuel m off).run (atBoot mem) = .ok () s₀) (run : Run s₀ rs s) :
    (∀ j : U64, j.toNat < 2 * s.alloc.bitmapLength.toNat →
      (getFrameFlags j).run s =
        .ok (if s.alloc.index ≤ j then avail else 0) (s.touch (flagAccess s j))) ∧
    (s.alloc.index.toNat < 2 * s.alloc.bitmapLength.toNat → ∀ fuel t,
      (skipUnavail (fuel + 1) (flagsOf s s.alloc.index)).run t =
        .ok (flagsOf s s.alloc.index) t) := by
  have length := (run_ready hm returns run).1.bitmapLength
  constructor
  · intro j inside
    rw [run_getFrameFlags, run_flags hm returns run (length ▸ inside)]
  · intro inside fuel t
    refine run_skipUnavail_avail fuel ?_ t
    rw [run_flags hm returns run (length ▸ inside), if_pos (BitVec.le_refl _)]
    decide

/-- After two calls on the map with three frames the first nibble is clear. -/
theorem oneEntry_agrees : ∃ s₀ s,
    (initializeMemmap 2 oneEntry higherHalf).run (atBoot fun _ => 0) = .ok () s₀ ∧
      Run s₀ [0x2000, 0x3000] s ∧ (getFrameFlags 1).run s = .ok 0 (s.touch (flagAccess s 1)) := by
  obtain ⟨s₀, s, returns, run⟩ := oneEntry_run true
  obtain ⟨ready, cursor, -⟩ := run_ready conformant_oneEntry returns run
  have passed : ¬ s.alloc.index ≤ 1 := by
    rw [BitVec.le_def, cursor]
    decide
  have flags := (bitmap_agrees conformant_oneEntry returns run).1 1
    (by rw [ready.bitmapLength]; decide)
  rw [if_neg passed] at flags
  exact ⟨s₀, s, returns, run, flags⟩

end Run

end Bintos
