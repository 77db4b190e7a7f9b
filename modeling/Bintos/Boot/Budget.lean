import Bintos.Vm.AfterBoot

/-!
# Larger budgets

A loop that has ended within its budget ends in the same state with every larger one.
-/

namespace Bintos

section Budget

variable {α : Type} {frameAlloc : Bool → Kern α U64} {fuel fuel' n n' : ℕ}

theorem upToBudget_pageLoop (more : U64 → Bool) (body : U64 → Kern α Unit) (le : n ≤ n') (bytes : U64) :
    UpToBudget (pageLoop more body n bytes) (pageLoop more body n' bytes) := by
  induction n generalizing n' bytes with
  | zero => exact fun s => Or.inr ⟨s, rfl⟩
  | succ n ih =>
    obtain ⟨n', rfl⟩ := Nat.exists_eq_add_of_le' (Nat.lt_of_lt_of_le (Nat.succ_pos n) le)
    rw [pageLoop, pageLoop]
    split_ifs
    · exact (UpToBudget.refl _).bind fun _ => ih (by omega) _
    · exact .refl _

theorem upToBudget_mapFramebuffers (frameAlloc : Bool → Kern α U64) (r : List MemmapEntry)
    (loops : fuel ≤ fuel') (le : n ≤ n') (i : U8) :
    UpToBudget (mapFramebuffers frameAlloc r fuel n i) (mapFramebuffers frameAlloc r fuel' n' i) := by
  induction n generalizing n' i with
  | zero => exact fun s => Or.inr ⟨s, rfl⟩
  | succ n ih =>
    obtain ⟨n', rfl⟩ := Nat.exists_eq_add_of_le' (Nat.lt_of_lt_of_le (Nat.succ_pos n) le)
    cases here : r[i.toNat]? with
    | none =>
      rw [mapFramebuffers, mapFramebuffers, here]
      exact .refl _
    | some e =>
      by_cases framebuffer : e.type = memmapFramebuffer
      · intro s
        rw [run_mapFramebuffers_framebuffer here framebuffer,
          run_mapFramebuffers_framebuffer here framebuffer]
        rcases upToBudget_pageLoop (· < e.length)
          (fun b => mapPage frameAlloc (framebufferCall e s.hhdmoff b)) loops 0 s with
          same | ⟨t, stopped⟩
        · rw [same]
          cases (pageLoop (fun b => decide (b < e.length))
            (fun b => mapPage frameAlloc (framebufferCall e s.hhdmoff b)) fuel' 0).run s with
          | ok _ t => exact ih (by omega) _ t
          | error e t => exact Or.inl rfl
        · rw [stopped]
          exact Or.inr ⟨t, rfl⟩
      · rw [mapFramebuffers_other here framebuffer, mapFramebuffers_other here framebuffer]
        exact ih (by omega) _

theorem upToBudget_mapKernel (frameAlloc : Bool → Kern α U64) (physicalBase kernelEnd : U64)
    (le : n ≤ n') (addr bytes : U64) :
    UpToBudget (mapKernel frameAlloc physicalBase kernelEnd n addr bytes)
      (mapKernel frameAlloc physicalBase kernelEnd n' addr bytes) := by
  induction n generalizing n' addr bytes with
  | zero => exact fun s => Or.inr ⟨s, rfl⟩
  | succ n ih =>
    obtain ⟨n', rfl⟩ := Nat.exists_eq_add_of_le' (Nat.lt_of_lt_of_le (Nat.succ_pos n) le)
    rw [mapKernel, mapKernel]
    split_ifs
    · exact (UpToBudget.refl _).bind fun _ => ih (by omega) _ _
    · exact .refl _

theorem upToBudget_initializePaging (frameAlloc : Bool → Kern α U64) (r : List MemmapEntry)
    (physicalBase kernelEnd rsp : U64) (le : n ≤ n') :
    UpToBudget (initializePaging frameAlloc n r physicalBase kernelEnd rsp)
      (initializePaging frameAlloc n' r physicalBase kernelEnd rsp) :=
  (UpToBudget.refl _).bind fun _ => (UpToBudget.refl _).bind fun _ => (UpToBudget.refl _).bind fun _ =>
    (UpToBudget.refl _).bind fun _ => (upToBudget_pageLoop _ _ le _).bind fun _ =>
      (upToBudget_mapFramebuffers _ _ le le _).bind fun _ =>
        (upToBudget_mapKernel _ _ _ le _ _).bind fun _ => .refl _

theorem upToBudget_initializeBitmapLoop (le : n ≤ n') (i : U32) :
    UpToBudget (initializeBitmapLoop n i) (initializeBitmapLoop n' i) := by
  induction n generalizing n' i with
  | zero => exact fun s => Or.inr ⟨s, rfl⟩
  | succ n ih =>
    obtain ⟨n', rfl⟩ := Nat.exists_eq_add_of_le' (Nat.lt_of_lt_of_le (Nat.succ_pos n) le)
    rw [initializeBitmapLoop, initializeBitmapLoop]
    refine (UpToBudget.refl _).bind fun s => ?_
    split_ifs
    · exact (UpToBudget.refl _).bind fun _ => (UpToBudget.refl _).bind fun _ => ih (by omega) _
    · exact .refl _

theorem upToBudget_initializeMemmap (r : List MemmapEntry) (offset : U64) (le : n ≤ n') :
    UpToBudget (initializeMemmap n r offset) (initializeMemmap n' r offset) := by
  refine (UpToBudget.refl _).bind fun _ => (UpToBudget.refl _).bind fun _ =>
    (UpToBudget.refl _).bind fun _ => (UpToBudget.refl _).bind fun _ =>
      (UpToBudget.refl _).bind fun _ => (UpToBudget.refl _).bind fun _ =>
        (UpToBudget.refl _).bind fun _ => ?_
  exact (UpToBudget.refl _).bind fun _ => (UpToBudget.refl _).bind fun _ =>
    upToBudget_initializeBitmapLoop le 0

end Budget

end Bintos
