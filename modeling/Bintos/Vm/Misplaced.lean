import Bintos.Vm.Step

/-!
# Tables at the last address

The frame number of `(uint64_t)-1` makes `map_page` go on in a table at the last physical address.  The
entries of that table are at the bytes before the entries of the page at 0 (`misplaced`).  Every list of
assignments of `map_page` sets the bit for a present entry and keeps bit 56 (`Marks`), so the first
bit of a misplaced entry is set by the stores to it and kept by all others (`Marks.kept`).
-/

namespace Bintos

section Marks

variable {F : Type} [DecidableEq F] [Packed F] {l : List (F × U64)} {m : Mem} {e x : U64}

/-- Bit for bit, what assignments do depends on the bit that was there. -/
theorem assign_congr (l : List (F × U64)) {w w' : U64} {j : ℕ} (hj : j < 64)
    (same : w'.getLsbD j = w.getLsbD j) : (assign l w').getLsbD j = (assign l w).getLsbD j := by
  induction l generalizing w w' with
  | nil => exact same
  | cons a l ih =>
    apply ih
    rw [Packed.getLsbD_set _ _ _ hj, Packed.getLsbD_set _ _ _ hj, same]

/-- The assignments set bit 0 and keep bit 56. -/
structure Marks (l : List (F × U64)) : Prop where
  bit : ∀ w, (assign l w).getLsbD 0 = true
  top : ∀ w, (assign l w).getLsbD 56 = w.getLsbD 56

theorem marks_link {present rw ptr : F} (hp : Packed.offset present = 0)
    (hp' : Packed.width present = 1) (hr : Packed.offset rw = 1) (hr' : Packed.width rw = 1)
    (ht : Packed.offset ptr = 12) (ht' : Packed.width ptr = 40) (f : U64) :
    Marks [(present, 1), (rw, 1), (ptr, f)] ∧ Marks [(present, 1), (ptr, f), (rw, 1)] := by
  have low : 0 < 64 := by decide
  have high : 56 < 64 := by decide
  constructor <;>
  · constructor <;> intro w <;>
      simp only [assign, List.foldl_cons, List.foldl_nil, Packed.getLsbD_set _ _ _ low,
        Packed.getLsbD_set _ _ _ high, hp, hp', hr, hr', ht, ht'] <;> rfl

theorem marks_pml4e (f : U64) : Marks [(Pml4e.present, 1), (.rw, 1), (.pdpePtr, f)] :=
  (marks_link (by decide) (by decide) (by decide) (by decide) (by decide) (by decide) f).1

theorem marks_pdpe (f : U64) : Marks [(Pdpe.present, 1), (.rw, 1), (.pdePtr, f)] :=
  (marks_link (by decide) (by decide) (by decide) (by decide) (by decide) (by decide) f).1

theorem marks_pde (f : U64) : Marks [(Pde.present, 1), (.ptePtr, f), (.rw, 1)] :=
  (marks_link (by decide) (by decide) (by decide) (by decide) (by decide) (by decide) f).2

theorem marks_pte (c : MapCall) : Marks (pteAssignments c) where
  bit w := (getLsbD_pteWord c w 0 (by decide)).trans rfl
  top w := (getLsbD_pteWord c w 56 (by decide)).trans rfl

/-! ### Misplaced entries -/

/-- The physical address of entry `i` of the table at the last address. -/
def misplaced (i : BitVec 9) : U64 := entryAddr (-1) i

theorem misplaced_eq (i : BitVec 9) : misplaced i = 8 * i.setWidth 64 - 1 := by
  unfold misplaced entryAddr
  ring

theorem toNat_misplaced (i : BitVec 9) :
    (misplaced i).toNat = if i.toNat = 0 then 2 ^ 64 - 1 else 8 * i.toNat - 1 := by
  have hi := i.isLt
  rw [misplaced_eq]
  split_ifs <;> bv_omega

theorem misplaced_mod (i : BitVec 9) : (misplaced i).toNat % 8 = 7 := by
  rw [toNat_misplaced]
  split_ifs <;> omega

theorem entryAddr_mod {table : U64} (aligned : PageAligned table) (i : BitVec 9) :
    (entryAddr table i).toNat % 8 = 0 := by
  rw [toNat_entryAddr aligned]
  unfold PageAligned at aligned
  omega

/-- No frame but the one at 0 has a byte of a misplaced entry. -/
theorem misplaced_not_inRange {a : U64} (aligned : PageAligned a) (above : 0 < a.toNat)
    (low : a.toNat < 2 ^ 52) (i : BitVec 9) : ¬ Mem.InRange a 4096 (misplaced i) := by
  have hi := i.isLt
  rw [inRange_page aligned, toNat_misplaced]
  unfold PageAligned at aligned
  split_ifs <;> omega

/-- The memory after assignments to an entry. -/
def assigned (m : Mem) (e : U64) (l : List (F × U64)) : Mem :=
  m.writeWord e (assign l (m.readWord e))

/-- In an aligned entry the byte before the next one keeps its first bit. -/
theorem Marks.kept_of_aligned (marks : Marks l) (he : e.toNat % 8 = 0) (hx : x.toNat % 8 = 7) :
    (assigned m e l x).getLsbD 0 = (m x).getLsbD 0 := by
  rw [assigned, Mem.getLsbD_writeWord _ _ _ _ (by decide)]
  split_ifs with inside
  · have last : (x - e).toNat = 7 := by
      unfold Mem.InRange at inside
      bv_omega
    have bit := Mem.getLsbD_readWord (m := m) inside (k := 0) (by decide)
    rw [last] at bit ⊢
    rw [marks.top, bit]
  · rfl

theorem Marks.marked (marks : Marks l) : (assigned m e l e).getLsbD 0 = true := by
  rw [assigned, Mem.getLsbD_writeWord _ _ _ _ (by decide), if_pos (by simp [Mem.InRange])]
  simp [marks.bit]

/-- Stores to other entries keep the first bit of a misplaced entry, once it is set. -/
theorem Marks.kept (marks : Marks l) {i : BitVec 9}
    (he : e.toNat % 8 = 0 ∨ ∃ j, e = misplaced j) (set : (m (misplaced i)).getLsbD 0 = true) :
    (assigned m e l (misplaced i)).getLsbD 0 = true := by
  rcases he with aligned | ⟨j, rfl⟩
  · rw [marks.kept_of_aligned aligned (misplaced_mod i), set]
  · by_cases same : misplaced i = misplaced j
    · rw [same, marks.marked]
    · have apart : ¬ Mem.InRange (misplaced j) 8 (misplaced i) := by
        have hi := misplaced_mod i
        have hj := misplaced_mod j
        unfold Mem.InRange
        bv_omega
      rw [assigned, Mem.writeWord_of_not_inRange _ _ apart, set]

end Marks

end Bintos
