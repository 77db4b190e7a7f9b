import Bintos.Lib.While
import Bintos.Machine

/-!
# Delays (`int/timer.c`)

Both delays compute the value of `ticks` to wait for, store it to a `uint32_t`, and read `ticks` until it
is not below.  The values that the loop reads are a sequence `seen`; the delays give the value that the
loop leaves at, with a budget for its tests.
-/

namespace Bintos

/-- `while (ticks < expected);` -/
def waitFor (seen : ℕ → U64) (expected : U32) (fuel : ℕ) : Option U64 :=
  (whileLoop (fun i => decide (seen i < expected.setWidth 64)) (· + 1) fuel 0).map seen

/-- `timer_delay_ticks` -/
def timerDelayTicks (ticks : U64) (seen : ℕ → U64) (t : U32) (fuel : ℕ) : Option U64 :=
  let expected : U32 := (ticks + t.setWidth 64).setWidth 32
  waitFor seen expected fuel

/-- `timer_delay_ms`; the product `ms * hz` has 32 bits. -/
def timerDelayMs (hz : U16) (ticks : U64) (seen : ℕ → U64) (ms : U32) (fuel : ℕ) : Option U64 :=
  let expected : U32 := (ticks + (ms * hz.setWidth 32 / 1000).setWidth 64).setWidth 32
  waitFor seen expected fuel

/-- From `ticks` on the values read do not decrease. -/
def Ticking (ticks : U64) (seen : ℕ → U64) : Prop :=
  (∀ i j, i ≤ j → seen i ≤ seen j) ∧ ∀ i, ticks ≤ seen i

/-- Whatever values are read after `ticks`, the loop is left only at `deadline` or later. -/
def WaitsUntil (ticks : U64) (delay : (ℕ → U64) → ℕ → Option U64) (deadline : ℕ) : Prop :=
  ∀ seen, Ticking ticks seen → ∀ fuel v, delay seen fuel = some v → deadline ≤ v.toNat

theorem expected_le {seen : ℕ → U64} {expected : U32} {fuel : ℕ} {v : U64}
    (left : waitFor seen expected fuel = some v) : ∃ i, seen i = v ∧ expected.toNat ≤ v.toNat := by
  obtain ⟨i, loop, rfl⟩ := Option.map_eq_some_iff.1 left
  obtain ⟨-, -, -, done, -⟩ := whileLoop_eq_some_iff.1 loop
  refine ⟨i, rfl, ?_⟩
  have reached := of_decide_eq_false done
  bv_omega

/-- The loop waits for a deadline exactly when it is not after the value waited for, or not after the
value at the call. -/
theorem waitsUntil_iff {ticks : U64} {expected : U32} {deadline : ℕ} :
    WaitsUntil ticks (fun seen => waitFor seen expected) deadline ↔
      deadline ≤ max ticks.toNat expected.toNat := by
  constructor
  · intro waits
    -- `ticks` is there already, or at once
    let v : U64 := BitVec.ofNat 64 (max ticks.toNat expected.toNat)
    have value : v.toNat = max ticks.toNat expected.toNat := by
      rw [BitVec.toNat_ofNat]
      omega
    have ticking : Ticking ticks fun _ => v :=
      ⟨fun _ _ _ => BitVec.le_refl v, fun _ => by rw [BitVec.le_def, value]; exact le_max_left _ _⟩
    have reached : ¬ v < expected.setWidth 64 := by
      rw [BitVec.lt_def, value, BitVec.toNat_setWidth]
      omega
    have left : waitFor (fun _ => v) expected 1 = some v := by
      rw [waitFor, whileLoop, decide_eq_false reached]
      rfl
    rw [← value]
    exact waits _ ticking 1 v left
  · intro soon seen ticking fuel v left
    obtain ⟨i, rfl, late⟩ := expected_le left
    have after := ticking.2 i
    rw [BitVec.le_def] at after
    omega

/-- **Delays.**  `timer_delay_ticks` waits for the whole delay exactly when the delay is zero or the
deadline has 32 bits.  `timer_delay_ms` does exactly when the delay is less than a tick, or the product
of the time and the frequency and the deadline have 32 bits. -/
theorem delays_iff (ticks : U64) (hz : U16) (t ms : U32) :
    (WaitsUntil ticks (fun seen => timerDelayTicks ticks seen t) (ticks.toNat + t.toNat) ↔
      t = 0 ∨ ticks.toNat + t.toNat < 2 ^ 32) ∧
    (WaitsUntil ticks (fun seen => timerDelayMs hz ticks seen ms)
        (ticks.toNat + ms.toNat * hz.toNat / 1000) ↔
      ms.toNat * hz.toNat < 1000 ∨
        ms.toNat * hz.toNat < 2 ^ 32 ∧ ticks.toNat + ms.toNat * hz.toNat / 1000 < 2 ^ 32) := by
  have here := ticks.isLt
  constructor
  · have sum : ((ticks + t.setWidth 64).setWidth 32).toNat = (ticks.toNat + t.toNat) % 2 ^ 32 := by
      bv_omega
    refine waitsUntil_iff.trans ?_
    rw [sum, le_max_iff]
    bv_omega
  · have product : (ms * hz.setWidth 32).toNat = ms.toNat * hz.toNat % 2 ^ 32 := by
      rw [BitVec.toNat_mul, BitVec.toNat_setWidth_of_le (by decide)]
    have sum : ((ticks + (ms * hz.setWidth 32 / 1000).setWidth 64).setWidth 32).toNat =
        (ticks.toNat + ms.toNat * hz.toNat % 2 ^ 32 / 1000) % 2 ^ 32 := by
      rw [BitVec.toNat_setWidth, BitVec.toNat_add, BitVec.toNat_setWidth_of_le (by decide),
        BitVec.toNat_udiv, product]
      show (_ + _ / 1000) % 2 ^ 64 % 2 ^ 32 = _
      omega
    refine waitsUntil_iff.trans ?_
    rw [sum, le_max_iff]
    clear sum product
    generalize ms.toNat * hz.toNat = time
    -- a product that wraps stands for a shorter delay
    have shorter : 2 ^ 32 ≤ time → time % 2 ^ 32 / 1000 < time / 1000 := by omega
    have remainder := Nat.mod_le (ticks.toNat + time % 2 ^ 32 / 1000) (2 ^ 32)
    omega

/-- A delay of one tick, when the counter has just passed 32 bits, ends at once. -/
theorem late_delay_cut_short :
    ¬ WaitsUntil 0xFFFFFFFF (fun seen => timerDelayTicks 0xFFFFFFFF seen 1) 0x100000000 := by
  intro waits
  have early := waits (fun _ => 0xFFFFFFFF) ⟨fun _ _ _ => BitVec.le_refl _, fun _ => BitVec.le_refl _⟩ 1
    0xFFFFFFFF rfl
  exact absurd early (by decide)

end Bintos
