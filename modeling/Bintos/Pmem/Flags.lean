import Bintos.Lib.Lens
import Bintos.Pmem.Setup

/-!
# The bitmap as an array of nibbles

`getFrameFlags` and `setFrameFlags` in terms of the nibbles of the bitmap (`flagsOf`): a store to one
frame's nibble is read back and leaves every other frame's nibble alone, also the one that shares its
byte.
-/

namespace Bintos

/-! ### Nibbles of a byte -/

/-- The nibble of `b` that starts at bit `k`. -/
def nibble (k : ℕ) (b : U8) : U8 := (b &&& (0xF#8 <<< k)) >>> k

/-- The byte `b` with the nibble at bit `k` overwritten. -/
def putNibble (k : ℕ) (f b : U8) : U8 := (b &&& ~~~(0xF#8 <<< k)) ||| (f <<< k)

theorem getLsbD_fifteen (i : ℕ) : (0xF#8).getLsbD i = decide (i < 4) := by
  show (BitVec.ofNat 8 (2 ^ 4 - 1)).getLsbD i = _
  rw [BitVec.getLsbD_ofNat, Nat.testBit_two_pow_sub_one, ← Bool.decide_and]
  congr 1
  rw [eq_iff_iff]
  omega

theorem getLsbD_nibble {k : ℕ} (hk : k ≤ 4) (b : U8) (i : ℕ) :
    (nibble k b).getLsbD i = (decide (i < 4) && b.getLsbD (k + i)) := by
  simp only [nibble, BitVec.getLsbD_ushiftRight, BitVec.getLsbD_and, BitVec.getLsbD_shiftLeft,
    getLsbD_fifteen]
  by_cases low : i < 4
  · simp [low, show k + i < 8 by omega]
  · simp [low]

theorem getLsbD_putNibble {k : ℕ} (f b : U8) {i : ℕ} (hi : i < 8)
    (hf : ∀ i, 4 ≤ i → f.getLsbD i = false) :
    (putNibble k f b).getLsbD i = if k ≤ i ∧ i < k + 4 then f.getLsbD (i - k) else b.getLsbD i := by
  simp only [putNibble, BitVec.getLsbD_or, BitVec.getLsbD_and, BitVec.getLsbD_not,
    BitVec.getLsbD_shiftLeft, getLsbD_fifteen]
  by_cases low : i < k
  · simp [hi, low, Nat.not_le.mpr low]
  · by_cases high : i - k < 4
    · simp [hi, low, high, Nat.not_lt.mp low, show i < k + 4 by omega]
    · simp [hi, low, high, show ¬ i < k + 4 by omega, hf (i - k) (by omega)]

theorem nibble_putNibble_self {k : ℕ} (hk : k ≤ 4) (f b : U8)
    (hf : ∀ i, 4 ≤ i → f.getLsbD i = false) : nibble k (putNibble k f b) = f := by
  apply BitVec.eq_of_getLsbD_eq
  intro i hi
  rw [getLsbD_nibble hk]
  by_cases low : i < 4
  · rw [getLsbD_putNibble f b (by omega) hf]
    simp [low]
  · simp [low, hf i (by omega)]

/-- Overwriting a nibble twice keeps the second value only. -/
theorem putNibble_putNibble {k : ℕ} (f g b : U8) (hf : ∀ i, 4 ≤ i → f.getLsbD i = false)
    (hg : ∀ i, 4 ≤ i → g.getLsbD i = false) :
    putNibble k g (putNibble k f b) = putNibble k g b := by
  apply BitVec.eq_of_getLsbD_eq
  intro i hi
  rw [getLsbD_putNibble g _ hi hg, getLsbD_putNibble g _ hi hg, getLsbD_putNibble f _ hi hf]
  split_ifs <;> rfl

/-- Stores to nibbles that do not overlap commute. -/
theorem putNibble_comm {k l : ℕ} (apart : k + 4 ≤ l ∨ l + 4 ≤ k) (f g b : U8)
    (hf : ∀ i, 4 ≤ i → f.getLsbD i = false) (hg : ∀ i, 4 ≤ i → g.getLsbD i = false) :
    putNibble k f (putNibble l g b) = putNibble l g (putNibble k f b) := by
  apply BitVec.eq_of_getLsbD_eq
  intro i hi
  rw [getLsbD_putNibble f _ hi hf, getLsbD_putNibble g _ hi hg, getLsbD_putNibble g _ hi hg,
    getLsbD_putNibble f _ hi hf]
  by_cases inside : k ≤ i ∧ i < k + 4
  · rw [if_pos inside, if_neg (by omega), if_pos inside]
  · rw [if_neg inside, if_neg inside]

/-- A value below 16 has no bit above the nibble. -/
theorem getLsbD_of_lt_sixteen {f : U8} (hf : f < 16) : ∀ i, 4 ≤ i → f.getLsbD i = false := by
  intro i hi
  rw [BitVec.lt_def] at hf
  rw [BitVec.getLsbD, Nat.testBit_lt_two_pow]
  calc f.toNat < 2 ^ 4 := hf
    _ ≤ 2 ^ i := Nat.pow_le_pow_right (by decide) hi

theorem nibble_lt_sixteen {k : ℕ} (hk : k ≤ 4) (b : U8) : nibble k b < 16 := by
  rw [BitVec.lt_def]
  refine Nat.lt_pow_two_of_testBit (n := 4) _ fun i hi => ?_
  have bit := getLsbD_nibble hk b i
  rwa [decide_eq_false (Nat.not_lt.2 hi), Bool.false_and] at bit

/-- Storing the nibble that is there changes nothing. -/
theorem putNibble_nibble {k : ℕ} (hk : k ≤ 4) (b : U8) : putNibble k (nibble k b) b = b := by
  apply BitVec.eq_of_getLsbD_eq
  intro i hi
  rw [getLsbD_putNibble _ b hi (getLsbD_of_lt_sixteen (nibble_lt_sixteen hk b))]
  split_ifs with inside
  · rw [getLsbD_nibble hk, decide_eq_true (by omega), Bool.true_and, Nat.add_sub_of_le inside.1]
  · rfl

/-- The values of a nibble. -/
abbrev Nibble := { f : U8 // f < 16 }

/-- The nibble at bit `k` as a part of the byte. -/
def nibbleAt (k : ℕ) (hk : k ≤ 4) : Lens U8 Nibble where
  get b := ⟨nibble k b, nibble_lt_sixteen hk b⟩
  put f b := putNibble k f b
  get_put f b := Subtype.ext (nibble_putNibble_self hk f b (getLsbD_of_lt_sixteen f.2))
  put_get := putNibble_nibble hk
  put_put f g b := putNibble_putNibble f g b (getLsbD_of_lt_sixteen f.2) (getLsbD_of_lt_sixteen g.2)

theorem nibbleAt_independent {k l : ℕ} {hk : k ≤ 4} {hl : l ≤ 4} (apart : k + 4 ≤ l ∨ l + 4 ≤ k) :
    (nibbleAt k hk).Independent (nibbleAt l hl) := fun f g b =>
  putNibble_comm apart f g b (getLsbD_of_lt_sixteen f.2) (getLsbD_of_lt_sixteen g.2)

/-! ### Frames -/

/-- The address of the byte with the flags of a frame. -/
def flagByte (s : Kernel) (frameNo : U64) : U64 := s.alloc.frameMap + (frameNo >>> 1)

/-- The flags of a frame. -/
def flagsOf (s : Kernel) (frameNo : U64) : U8 :=
  nibble (nibbleShift frameNo) (s.mem (s.v2p (flagByte s frameNo)))

/-- The machine after the flags of a frame are stored. -/
def putFlags (s : Kernel) (frameNo : U64) (flags : U8) : Kernel :=
  { s with
    mem := s.mem.write (s.v2p (flagByte s frameNo))
      (putNibble (nibbleShift frameNo) flags (s.mem (s.v2p (flagByte s frameNo)))) }

/-- The record of one access to the flags of a frame. -/
def flagAccess (s : Kernel) (frameNo : U64) : Access := ⟨.flags, flagByte s frameNo, 1⟩

theorem nibbleShift_le (frameNo : U64) : nibbleShift frameNo ≤ 4 := by
  unfold nibbleShift
  split_ifs <;> decide

theorem run_getFrameFlags (frameNo : U64) (s : Kernel) :
    (getFrameFlags frameNo).run s = .ok (flagsOf s frameNo) (s.touch (flagAccess s frameNo)) := by
  simp [getFrameFlags, flagsOf, nibble, flagByte, flagAccess]

theorem run_setFrameFlags (frameNo : U64) (flags : U8) (s : Kernel) :
    (setFrameFlags frameNo flags).run s =
      .ok () ((putFlags s frameNo flags).touch (flagAccess s frameNo)
        |>.touch (flagAccess s frameNo)) := by
  simp [setFrameFlags, putFlags, putNibble, flagByte, flagAccess, Machine.touch, Machine.v2p]

/-- Two frames in one byte have different nibbles of it. -/
theorem nibbleShift_apart {i j : U64} (h : i ≠ j) (byte : i >>> 1 = j >>> 1) :
    nibbleShift i + 4 ≤ nibbleShift j ∨ nibbleShift j + 4 ≤ nibbleShift i := by
  have parity (x : U64) : x &&& 1 = 0 ↔ x.toNat % 2 = 0 := by
    rw [← BitVec.toNat_inj, BitVec.toNat_and]
    simp [Nat.and_one_is_mod]
  have halves : i.toNat / 2 = j.toNat / 2 := by
    have := congrArg BitVec.toNat byte
    simpa [BitVec.toNat_ushiftRight, Nat.shiftRight_eq_div_pow] using this
  have different : i.toNat ≠ j.toNat := fun same => h (BitVec.eq_of_toNat_eq same)
  unfold nibbleShift
  simp only [parity]
  split_ifs <;> omega

/-- The flags of a frame, as a part of memory; `map` is the physical address of the bitmap. -/
def flagCell (map frameNo : U64) : Lens Mem Nibble :=
  (Lens.value (map + (frameNo >>> 1))).comp (nibbleAt (nibbleShift frameNo) (nibbleShift_le frameNo))

/-- The bitmap as an array of nibbles. -/
def flagArray (map : U64) : LensArray Mem U64 Nibble where
  cell := flagCell map
  apart {i j} h := by
    by_cases byte : i >>> 1 = j >>> 1
    · rw [flagCell, flagCell, byte]
      exact (nibbleAt_independent (nibbleShift_apart h byte)).inside _
    · refine (Lens.value_independent ?_).comp _ _
      exact fun same => byte ((BitVec.add_right_inj map).1 same)

/-- The physical address of the bitmap. -/
def flagMap (s : Kernel) : U64 := s.v2p s.alloc.frameMap

theorem v2p_flagByte (s : Kernel) (frameNo : U64) :
    s.v2p (flagByte s frameNo) = flagMap s + (frameNo >>> 1) := by
  unfold flagMap flagByte Machine.v2p
  ring

theorem flagsOf_eq (s : Kernel) (frameNo : U64) :
    flagsOf s frameNo = (flagArray (flagMap s)).toFun s.mem frameNo := by
  rw [flagsOf, v2p_flagByte]
  rfl

theorem putFlags_mem (s : Kernel) (frameNo : U64) {flags : U8} (small : flags < 16) :
    (putFlags s frameNo flags).mem =
      ((flagArray (flagMap s)).cell frameNo).put ⟨flags, small⟩ s.mem := by
  rw [putFlags, v2p_flagByte]
  rfl

/-- A store to the flags of one frame. -/
theorem flagsOf_putFlags (s : Kernel) (i j : U64) {flags : U8} (small : flags < 16) :
    flagsOf (putFlags s i flags) j = if j = i then flags else flagsOf s j := by
  rw [flagsOf_eq, flagsOf_eq, putFlags_mem s i small]
  show ((flagArray (flagMap s)).toFun _ j : U8) = _
  rw [LensArray.toFun_put, Function.update_apply]
  split_ifs <;> rfl

theorem flagsOf_putFlags_self (s : Kernel) (frameNo : U64) {flags : U8} (small : flags < 16) :
    flagsOf (putFlags s frameNo flags) frameNo = flags := by
  rw [flagsOf_putFlags s _ _ small, if_pos rfl]

theorem flagsOf_putFlags_of_ne (s : Kernel) {i j : U64} (h : j ≠ i) {flags : U8}
    (small : flags < 16) : flagsOf (putFlags s i flags) j = flagsOf s j := by
  rw [flagsOf_putFlags s _ _ small, if_neg h]

/-! ### The functions on the array -/

theorem run_setFrameFlags_cell (frameNo : U64) {flags : U8} (small : flags < 16) (s : Kernel) :
    ∃ t, (setFrameFlags frameNo flags).run s =
      .ok () { s with
        mem := ((flagArray (flagMap s)).cell frameNo).put ⟨flags, small⟩ s.mem
        trace := t } := by
  refine ⟨flagAccess s frameNo :: flagAccess s frameNo :: s.trace, ?_⟩
  rw [run_setFrameFlags, ← putFlags_mem s frameNo small]
  rfl

theorem run_setFrameFlags_twice (i j : U64) {f g : U8} (hf : f < 16) (hg : g < 16) (s : Kernel) :
    ∃ t, (do setFrameFlags i f; setFrameFlags j g).run s =
      .ok () { s with
        mem := ((flagArray (flagMap s)).cell j).put ⟨g, hg⟩
          (((flagArray (flagMap s)).cell i).put ⟨f, hf⟩ s.mem)
        trace := t } := by
  obtain ⟨t, first⟩ := run_setFrameFlags_cell i hf s
  obtain ⟨t', second⟩ := run_setFrameFlags_cell j hg
    { s with mem := ((flagArray (flagMap s)).cell i).put ⟨f, hf⟩ s.mem, trace := t }
  refine ⟨t', ?_⟩
  rw [EStateM.run_bind, first]
  exact second

/-- **The bitmap as an array of nibbles.**  What `set_frame_flags` stores for a frame is read back by
`get_frame_flags`, and the flags of all other frames stay; stores for two frames commute; and storing the
flags that are there changes nothing.  All this is but for the record of the accesses. -/
theorem flags_array (s : Kernel) (i j : U64) {f g : U8} (hf : f < 16) (hg : g < 16) :
    (∃ s' old t t', (setFrameFlags i f).run s = .ok () s' ∧ (getFrameFlags j).run s = .ok old t ∧
      (getFrameFlags j).run s' = .ok (if j = i then f else old) t') ∧
    (i ≠ j → ∃ m t t',
      (do setFrameFlags i f; setFrameFlags j g).run s = .ok () { s with mem := m, trace := t } ∧
      (do setFrameFlags j g; setFrameFlags i f).run s = .ok () { s with mem := m, trace := t' }) ∧
    ∃ t, (do setFrameFlags i (← getFrameFlags i)).run s = .ok () { s with trace := t } := by
  refine ⟨?_, fun different => ?_, ?_⟩
  · let s' := ((putFlags s i f).touch (flagAccess s i)).touch (flagAccess s i)
    have value : flagsOf s' j = if j = i then f else flagsOf s j := flagsOf_putFlags s i j hf
    have read := run_getFrameFlags j s'
    rw [value] at read
    exact ⟨s', _, _, _, run_setFrameFlags i f s, run_getFrameFlags j s, read⟩
  · obtain ⟨t, run⟩ := run_setFrameFlags_twice i j hf hg s
    obtain ⟨t', run'⟩ := run_setFrameFlags_twice j i hg hf s
    rw [(flagArray (flagMap s)).apart different] at run'
    exact ⟨_, t, t', run, run'⟩
  · have small : flagsOf s i < 16 := nibble_lt_sixteen (nibbleShift_le i) _
    have there : ⟨flagsOf s i, small⟩ = ((flagArray (flagMap s)).cell i).get s.mem :=
      Subtype.ext (flagsOf_eq s i)
    obtain ⟨t, back⟩ := run_setFrameFlags_cell i small (s.touch (flagAccess s i))
    refine ⟨t, ?_⟩
    rw [EStateM.run_bind, run_getFrameFlags]
    refine back.trans ?_
    congr 2
    show ((flagArray (flagMap s)).cell i).put _ s.mem = s.mem
    rw [there, Lens.put_get]

/-- The frames 6 and 7, which share a byte. -/
theorem neighbours_array :
    ∃ s' old t t', (setFrameFlags 6 5).run (atBoot fun _ => 0xA3) = .ok () s' ∧
      (getFrameFlags 7).run (atBoot fun _ => 0xA3) = .ok old t ∧
      (getFrameFlags 7).run s' = .ok old t' :=
  (flags_array (atBoot fun _ => 0xA3) 6 7 (f := 5) (g := 9) (by decide) (by decide)).1

end Bintos
