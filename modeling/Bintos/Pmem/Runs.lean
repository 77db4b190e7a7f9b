import Bintos.Pmem.Alloc

/-!
# Runs of the allocator

A run is any sequence of returning calls of `frame_alloc` and of stores by the holders of frames into
their own frames.  In every run the kernel stays ready and call number `k` returns what the region
table says for the index `k` (`answer`), so every address handed out is a frame of a usable entry
outside the bitmap, and the calls stay inside the bitmap except at the last frame of an odd total.
-/

namespace Bintos

/-- The runs from `s₀`, with the values that the calls have returned, in order. -/
inductive Run (s₀ : Kernel) : List U64 → Kernel → Prop
  | start : Run s₀ [] s₀
  /-- a call that returns -/
  | call {rs : List U64} {s s' : Kernel} {a : U64} (zeroed : Bool) :
      Run s₀ rs s → (frameAlloc zeroed).run s = .ok a s' → Run s₀ (rs ++ [a]) s'
  /-- a store to a byte of a frame that an earlier call has returned -/
  | store {rs : List U64} {s : Kernel} {a x : U64} (b : U8) :
      Run s₀ rs s → a ∈ rs → a ≠ -1 → Mem.InRange a 4096 x →
      Run s₀ rs { s with mem := s.mem.write x b }

/-- What call number `k` returns, or `none` when it halts. -/
def answer (m : List MemmapEntry) (k : ℕ) : Option U64 :=
  if k < frames m then (walkTable (regions m) (BitVec.ofNat 64 k)).map walkAddr else some (-1)

section Run

variable {m : List MemmapEntry} {off : U64} {s₀ s s' : Kernel} {rs : List U64} {a : U64}

/-- Before the end of memory every answer is a frame. -/
theorem isFrame_of_lt (hm : Conformant m) {k : ℕ} (more : k < frames m) (h : answer m k = some a) :
    IsFrame m a := by
  rw [answer, if_pos more] at h
  obtain ⟨p, ends, rfl⟩ := Option.map_eq_some_iff.1 h
  exact isFrame_of_walk hm ends

theorem isFrame_of_answer (hm : Conformant m) {k : ℕ} (h : answer m k = some a) (ha : a ≠ -1) :
    IsFrame m a := by
  by_cases more : k < frames m
  · exact isFrame_of_lt hm more h
  · rw [answer, if_neg more] at h
    exact absurd (Option.some_inj.1 h).symm ha

theorem Started.usable_ne_nil (hs : Started m off s) : usable m ≠ [] := by
  obtain ⟨e, home, -⟩ := hs.frameMap
  exact List.ne_nil_of_mem (home_mem home).1

theorem Ready.more_iff (hr : Ready m off s) :
    s.alloc.index < s.alloc.maxFrames ↔ s.alloc.index.toNat < frames m := by
  rw [BitVec.lt_def, hr.maxFrames]

/-- The bitmap has a nibble for every frame but the last one of an odd total. -/
theorem Ready.last_of_busy (hr : Ready m off s) (more : s.alloc.index.toNat < frames m)
    (busy : flagsOf s s.alloc.index &&& avail = 0) :
    s.alloc.index.toNat = 2 * bitmapBytes m ∧ s.alloc.index.toNat + 1 = frames m := by
  have outside : ¬ s.alloc.index.toNat < 2 * bitmapBytes m := by
    intro inside
    rw [hr.ahead _ (BitVec.le_refl _) inside] at busy
    exact absurd busy (by decide)
  unfold bitmapBytes at outside ⊢
  omega

/-- The three ways a call from a ready kernel can go. -/
theorem Ready.frameAlloc_cases (hm : Conformant m) (hr : Ready m off s) (zeroed : Bool) :
    (frames m ≤ s.alloc.index.toNat ∧ (frameAlloc zeroed).run s = .ok (-1) s) ∨
    (s.alloc.index.toNat < frames m ∧ (frameAlloc zeroed).run s =
      match walkTable (regions m) s.alloc.index with
      | some p => .ok (walkAddr p)
          (handOut zeroed (walkAddr p) frameAllocationSize.toNat (markTaken s))
      | none => .error .halted (markTaken s)) ∨
    (s.alloc.index.toNat = 2 * bitmapBytes m ∧ s.alloc.index.toNat + 1 = frames m ∧
      (frameAlloc zeroed).run s = .error .halted (overrun s)) := by
  by_cases more : s.alloc.index.toNat < frames m
  · right
    by_cases busy : flagsOf s s.alloc.index &&& avail = 0
    · obtain ⟨edge, last⟩ := hr.last_of_busy more busy
      have stop : ¬ s.alloc.index + 1 < s.alloc.maxFrames := by
        have total := hr.maxFrames
        bv_omega
      exact Or.inr ⟨edge, last, run_frameAlloc_last zeroed (hr.more_iff.2 more) stop busy⟩
    · exact Or.inl ⟨more, run_frameAlloc_avail hm hr.toStarted zeroed hr.usable_ne_nil
        (hr.more_iff.2 more) busy⟩
  · refine Or.inl ⟨not_lt.1 more, run_frameAlloc_exhausted zeroed ?_⟩
    rw [← BitVec.not_lt, hr.more_iff]
    exact more

/-- A call that returns gives the answer for its cursor and advances the cursor, up to the end. -/
theorem Ready.step (hm : Conformant m) (hr : Ready m off s) {zeroed : Bool}
    (returns : (frameAlloc zeroed).run s = .ok a s') :
    answer m s.alloc.index.toNat = some a ∧ Ready m off s' ∧
      s'.alloc.index.toNat = min (s.alloc.index.toNat + 1) (frames m) := by
  rcases hr.frameAlloc_cases hm zeroed with ⟨past, call⟩ | ⟨more, call⟩ | ⟨-, -, call⟩
  · rw [call] at returns
    cases returns
    refine ⟨by rw [answer, if_neg (not_lt.2 past)], hr, ?_⟩
    have := hr.cursor
    omega
  · cases ends : walkTable (regions m) s.alloc.index with
    | none => simp [call, ends] at returns
    | some p =>
      simp only [call, ends, EStateM.Result.ok.injEq] at returns
      obtain ⟨rfl, rfl⟩ := returns
      refine ⟨?_, hr.handedOut hm zeroed (isFrame_of_walk hm ends) more, ?_⟩
      · rw [answer, if_pos more, BitVec.ofNat_toNat, BitVec.setWidth_eq, ends, Option.map_some]
      · have next : (s.alloc.index + 1).toNat = s.alloc.index.toNat + 1 := by
          have := hr.maxFrames ▸ s.alloc.maxFrames.isLt
          bv_omega
        rw [min_eq_left (by omega), ← next]
        cases zeroed <;> rfl
  · simp [call] at returns

/-- Away from the last frame of an odd total, a call does what the answer for its cursor says. -/
theorem Ready.call (hm : Conformant m) (hr : Ready m off s) (zeroed : Bool)
    (inside : s.alloc.index.toNat ≠ 2 * bitmapBytes m ∨ frames m ≤ s.alloc.index.toNat) :
    match answer m s.alloc.index.toNat with
    | some a => ∃ s', (frameAlloc zeroed).run s = .ok a s'
    | none => ∃ t, (frameAlloc zeroed).run s = .error .halted t := by
  rcases hr.frameAlloc_cases hm zeroed with ⟨past, call⟩ | ⟨more, call⟩ | ⟨edge, last, -⟩
  · rw [answer, if_neg (not_lt.2 past)]
    exact ⟨s, call⟩
  · rw [answer, if_pos more, BitVec.ofNat_toNat, BitVec.setWidth_eq]
    cases ends : walkTable (regions m) s.alloc.index with
    | none => exact ⟨_, by rw [call, ends]⟩
    | some p => exact ⟨_, by rw [call, ends]⟩
  · omega

/-- **Runs.**  In every run the kernel stays ready, the cursor counts the calls up to the number of
frames, and every call has returned the answer for its number. -/
theorem Run.ready (hm : Conformant m) (h₀ : Ready m off s₀) (first : s₀.alloc.index = 0)
    (run : Run s₀ rs s) :
    Ready m off s ∧ s.alloc.index.toNat = min rs.length (frames m) ∧
      ∀ (k : ℕ) (a : U64), rs[k]? = some a → answer m k = some a := by
  induction run with
  | start => exact ⟨h₀, by simp [first], by simp⟩
  | @call rs s s' a zeroed _ returns ih =>
    obtain ⟨hr, cursor, answers⟩ := ih
    obtain ⟨value, ready, next⟩ := hr.step hm returns
    refine ⟨ready, ?_, fun k b hb => ?_⟩
    · rw [next, cursor, List.length_append, List.length_singleton]
      omega
    · by_cases old : k < rs.length
      · rw [List.getElem?_append_left old] at hb
        exact answers k b hb
      · rw [List.getElem?_append_right (not_lt.1 old), List.getElem?_singleton] at hb
        split_ifs at hb with last
        cases hb
        rw [cursor] at value
        by_cases more : rs.length < frames m
        · rw [min_eq_left more.le] at value
          rwa [show k = rs.length by omega]
        · rw [min_eq_right (not_lt.1 more), answer, if_neg (lt_irrefl _)] at value
          rw [answer, if_neg (by omega)]
          exact value
  | @store rs s a x b _ mem valid inside ih =>
    obtain ⟨hr, cursor, answers⟩ := ih
    obtain ⟨k, hk⟩ := List.mem_iff_getElem?.1 mem
    have frame := isFrame_of_answer hm (answers k a hk) valid
    refine ⟨hr.of_mem rfl rfl fun y hy => ?_, cursor, answers⟩
    apply Mem.write_of_ne
    rintro rfl
    exact hr.apart_bitmap hm frame inside hy

end Run

end Bintos
