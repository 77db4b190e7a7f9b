import Bintos.Pmem.Carve
import Bintos.Pmem.Runs

/-!
# What the allocator hands out and what it touches

Every address that a run hands out is legitimate memory (`returned_legitimate`), and a call touches
no byte outside the bitmap unless its cursor is at the last frame of an odd total
(`staysInside_iff`): the bitmap has no nibble for that frame.
-/

namespace Bintos

/-- An aligned frame inside one usable entry, apart from the bitmap. -/
def Legitimate (m : List MemmapEntry) (s : Kernel) (a : U64) : Prop :=
  a.toNat % 4096 = 0 ∧
  (∃ e ∈ usable m, e.base.toNat ≤ a.toNat ∧ a.toNat + 4096 ≤ e.base.toNat + e.length.toNat) ∧
  ∀ x, Mem.InRange a 4096 x →
    ¬ Mem.InRange (s.alloc.frameMap - s.hhdmoff) s.alloc.bitmapLength.toNat x

/-- Every byte of `frame_map` that a call of `frame_alloc` reads or writes, halting or not, is one
of the first `bitmap_length`. -/
def StaysInside (zeroed : Bool) (s : Kernel) : Prop :=
  ∀ access ∈ (finalState ((frameAlloc zeroed).run { s with trace := [] })).trace,
    access.kind = .flags → access.addr - s.alloc.frameMap < s.alloc.bitmapLength

section Run

variable {m : List MemmapEntry} {off : U64} {fuel : ℕ} {mem : Mem} {s₀ s : Kernel} {rs : List U64}

theorem run_ready (hm : Conformant m)
    (returns : (initializeMemmap fuel m off).run (atBoot mem) = .ok () s₀) (run : Run s₀ rs s) :
    Ready m off s ∧ s.alloc.index.toNat = min rs.length (frames m) ∧
      ∀ (k : ℕ) (a : U64), rs[k]? = some a → answer m k = some a :=
  run.ready hm (ready_of_initializeMemmap hm returns) (initializeMemmap_spec hm returns).2.1

theorem IsFrame.legitimate (hm : Conformant m) (hr : Ready m off s) {a : U64} (ha : IsFrame m a) :
    Legitimate m s a := by
  refine ⟨ha.aligned hm, ha.inside, fun x hx => ?_⟩
  rw [hr.bitmapLength]
  exact hr.apart_bitmap hm ha hx

/-- A run goes on with one more call, away from the last frame of an odd total. -/
theorem Run.extend (hm : Conformant m)
    (returns : (initializeMemmap fuel m off).run (atBoot mem) = .ok () s₀) (run : Run s₀ rs s)
    (inside : rs.length < 2 * bitmapBytes m) {a : U64} (value : answer m rs.length = some a)
    (zeroed : Bool) : ∃ s', (frameAlloc zeroed).run s = .ok a s' := by
  obtain ⟨hr, cursor, -⟩ := run_ready hm returns run
  have few : 2 * bitmapBytes m ≤ frames m := by
    unfold bitmapBytes
    omega
  rw [min_eq_left (by omega)] at cursor
  have call := hr.call hm zeroed (Or.inl (by omega))
  rwa [cursor, value] at call

/-- The first call on the map with one entry of three frames. -/
theorem oneEntry_first (zeroed : Bool) : ∃ s₀ s,
    (initializeMemmap 2 oneEntry higherHalf).run (atBoot fun _ => 0) = .ok () s₀ ∧
      (frameAlloc zeroed).run s₀ = .ok 0x2000 s ∧ Run s₀ [0x2000] s := by
  obtain ⟨s₀, returns⟩ := oneEntry_starts fun _ => 0
  obtain ⟨s, first⟩ := Run.extend conformant_oneEntry returns .start (by decide)
    (a := 0x2000) (by decide) zeroed
  exact ⟨s₀, s, returns, first, .call zeroed .start first⟩

/-- The first two calls. -/
theorem oneEntry_run (zeroed : Bool) : ∃ s₀ s,
    (initializeMemmap 2 oneEntry higherHalf).run (atBoot fun _ => 0) = .ok () s₀ ∧
      Run s₀ [0x2000, 0x3000] s := by
  obtain ⟨s₀, s₁, returns, -, run₁⟩ := oneEntry_first zeroed
  obtain ⟨s₂, second⟩ := run₁.extend conformant_oneEntry returns (by decide)
    (a := 0x3000) (by decide) zeroed
  exact ⟨s₀, s₂, returns, .call zeroed run₁ second⟩

/-- **Legitimate memory.**  Every address that a run hands out is an aligned frame inside a usable
entry and apart from the bitmap. -/
theorem returned_legitimate (hm : Conformant m)
    (returns : (initializeMemmap fuel m off).run (atBoot mem) = .ok () s₀) (run : Run s₀ rs s)
    {a : U64} (returned : a ∈ rs) (valid : a ≠ -1) : Legitimate m s a := by
  obtain ⟨hr, -, answers⟩ := run_ready hm returns run
  obtain ⟨k, hk⟩ := List.mem_iff_getElem?.1 returned
  exact (isFrame_of_answer hm (answers k a hk) valid).legitimate hm hr

theorem oneEntry_legitimate : ∃ s₀ s,
    (initializeMemmap 2 oneEntry higherHalf).run (atBoot fun _ => 0) = .ok () s₀ ∧
      Run s₀ [0x2000, 0x3000] s ∧ Legitimate oneEntry s 0x3000 := by
  obtain ⟨s₀, s, returns, run⟩ := oneEntry_run true
  exact ⟨s₀, s, returns, run,
    returned_legitimate conformant_oneEntry returns run (by decide) (by decide)⟩

/-! ### Accesses -/

theorem flagByte_sub_lt (hr : Ready m off s) (i : U64) :
    flagByte s i - s.alloc.frameMap < s.alloc.bitmapLength ↔ i.toNat < 2 * bitmapBytes m := by
  have shift : flagByte s i - s.alloc.frameMap = i >>> 1 := by
    unfold flagByte
    ring
  rw [shift, BitVec.lt_def, hr.bitmapLength, BitVec.toNat_ushiftRight, Nat.shiftRight_eq_div_pow]
  omega

theorem mem_trace_markTaken {acc : Access} (fresh : s.trace = []) :
    acc ∈ (markTaken s).trace ↔ acc = flagAccess s s.alloc.index := by
  show acc ∈ flagAccess s s.alloc.index :: flagAccess s s.alloc.index ::
    flagAccess s s.alloc.index :: s.trace ↔ _
  simp [fresh]

theorem mem_trace_handOut {zeroed : Bool} {a : U64} {n : ℕ} {t : Kernel} {acc : Access}
    (flags : acc.kind = .flags) : acc ∈ (handOut zeroed a n t).trace ↔ acc ∈ t.trace := by
  cases zeroed with
  | false => rfl
  | true =>
    show acc ∈ ⟨.clear, a + t.hhdmoff, n⟩ :: t.trace ↔ _
    rw [List.mem_cons, or_iff_right]
    rintro rfl
    cases flags

/-- A call from a ready kernel stays inside the bitmap exactly when its cursor is at the end or has
a nibble there. -/
theorem Ready.staysInside_iff_nibble (hm : Conformant m) (hr : Ready m off s) (zeroed : Bool) :
    StaysInside zeroed s ↔
      frames m ≤ s.alloc.index.toNat ∨ s.alloc.index.toNat < 2 * bitmapBytes m := by
  have fresh : Ready m off { s with trace := [] } := hr.of_mem rfl rfl fun _ _ => rfl
  have byte := flagByte_sub_lt hr s.alloc.index
  -- what the accesses of a call that marks the frame at its cursor amount to
  have marked (t : Kernel) (trace : ∀ acc : Access, acc.kind = .flags →
      (acc ∈ t.trace ↔ acc = flagAccess s s.alloc.index)) :
      (∀ acc ∈ t.trace, acc.kind = .flags → acc.addr - s.alloc.frameMap < s.alloc.bitmapLength) ↔
        s.alloc.index.toNat < 2 * bitmapBytes m := by
    rw [← byte]
    constructor
    · intro all
      exact all (flagAccess s s.alloc.index) ((trace _ rfl).2 rfl) rfl
    · intro inside acc mem flags
      rw [(trace acc flags).1 mem]
      exact inside
  unfold StaysInside
  rcases fresh.frameAlloc_cases hm zeroed with ⟨past, call⟩ | ⟨more, call⟩ | ⟨edge, last, call⟩
  · rw [call]
    exact iff_of_true (fun acc mem => absurd mem List.not_mem_nil) (Or.inl past)
  · have more : ¬ frames m ≤ s.alloc.index.toNat := not_le.2 more
    rw [or_iff_right more, call]
    cases walkTable (regions m) s.alloc.index with
    | none => exact marked _ fun acc _ => mem_trace_markTaken rfl
    | some p =>
      refine marked _ fun acc flags => ?_
      exact (mem_trace_handOut flags).trans (mem_trace_markTaken rfl)
  · have edge : s.alloc.index.toNat = 2 * bitmapBytes m := edge
    have last : s.alloc.index.toNat + 1 = frames m := last
    rw [call]
    refine iff_of_false (fun all => ?_) (by omega)
    have first := all (flagAccess s s.alloc.index)
      (List.mem_cons_of_mem _ List.mem_cons_self) rfl
    rw [flagAccess, byte] at first
    omega

/-- **The bitmap's bounds.**  A call in a run stays inside the bitmap exactly when its cursor is not
at the last frame of an odd total. -/
theorem staysInside_iff (hm : Conformant m)
    (returns : (initializeMemmap fuel m off).run (atBoot mem) = .ok () s₀) (run : Run s₀ rs s)
    (zeroed : Bool) :
    StaysInside zeroed s ↔ ¬ (s.alloc.index.toNat + 1 = s.alloc.maxFrames.toNat ∧
      s.alloc.maxFrames.toNat % 2 = 1) := by
  have hr := (run_ready hm returns run).1
  rw [hr.staysInside_iff_nibble hm, hr.maxFrames]
  unfold bitmapBytes
  omega

/-- The first call on a map with three frames stays inside its bitmap. -/
theorem oneEntry_first_staysInside : ∃ s₀,
    (initializeMemmap 2 oneEntry higherHalf).run (atBoot fun _ => 0) = .ok () s₀ ∧
      StaysInside true s₀ := by
  obtain ⟨s₀, returns⟩ := oneEntry_starts fun _ => 0
  have started := ready_of_initializeMemmap conformant_oneEntry returns
  have first := (initializeMemmap_spec conformant_oneEntry returns).2.1
  have total : s₀.alloc.maxFrames.toNat = 3 := started.maxFrames.trans (by decide)
  refine ⟨s₀, returns, (staysInside_iff conformant_oneEntry returns .start true).2 ?_⟩
  rw [first, total]
  decide

/-- The third call does not: the bitmap of three frames is one byte. -/
theorem oneEntry_third_leaves : ∃ s₀ s,
    (initializeMemmap 2 oneEntry higherHalf).run (atBoot fun _ => 0) = .ok () s₀ ∧
      Run s₀ [0x2000, 0x3000] s ∧ ¬ StaysInside true s := by
  obtain ⟨s₀, s, returns, run⟩ := oneEntry_run true
  obtain ⟨ready, cursor, -⟩ := run_ready conformant_oneEntry returns run
  refine ⟨s₀, s, returns, run, fun inside => ?_⟩
  rw [ready.staysInside_iff_nibble conformant_oneEntry, cursor] at inside
  exact absurd inside (by decide)

end Run

end Bintos
