import Bintos.Pmem.Setup

/-!
# The region walk

`regionWalk` only reads the statics, so it is a function of the region table (`walkTable`).  Whatever
the index, the walk never leaves the region it stops in (`walkTable_mem`); for an index below `2 ^ 31`
it finds the place of the index in the concatenation of the regions (`walkTable_eq_locate`).
-/

namespace Bintos

/-- The walk of `frame_alloc` over the regions that are left of the table. -/
def walkTable : List Region → U64 → Option (U64 × U64)
  | [], _ => none
  | r :: l, copy =>
    if r.pages ≤ (copy.setWidth 32).signExtend 64 then walkTable l (copy - r.pages)
    else some (r.start, copy)

/-- The address that `frame_alloc` computes from the result of the walk. -/
def walkAddr (p : U64 × U64) : U64 :=
  p.1 + (p.2.setWidth 32 * frameAllocationSize.setWidth 32).setWidth 64

theorem run_regionWalk_succ (fuel : ℕ) (mapIdx : U8) (copy : U64) (s : Kernel) :
    (regionWalk (fuel + 1) mapIdx copy).run s =
      if (s.alloc.regionInfo.getD mapIdx.toNat default).pages ≤
          (copy.setWidth 32).signExtend 64 then
        if mapIdx + 1 < s.alloc.numRegions then
          (regionWalk fuel (mapIdx + 1)
            (copy - (s.alloc.regionInfo.getD mapIdx.toNat default).pages)).run s
        else .error .halted s
      else .ok ((s.alloc.regionInfo.getD mapIdx.toNat default).start, copy) s := by
  simp only [regionWalk, EStateM.run_bind, EStateM.run_get]
  split_ifs with past more
  · simp only [EStateM.run_bind, EStateM.run_get, more, decide_true, run_chassert_true]
  · simp only [EStateM.run_bind, EStateM.run_get, more, decide_false, run_chassert_false]
  · rfl

/-- The walk over the part `l` of a table of at most 32 regions. -/
theorem run_regionWalk {fuel : ℕ} (done l : List Region) {copy : U64} {s : Kernel}
    (count : s.alloc.numRegions.toNat = done.length + l.length)
    (few : done.length + l.length ≤ 32)
    (table : s.alloc.regionInfo.take (done.length + l.length) = done ++ l)
    (inside : l ≠ []) (enough : l.length ≤ fuel) :
    (regionWalk fuel (BitVec.ofNat 8 done.length) copy).run s =
      match walkTable l copy with
      | some p => .ok p s
      | none => .error .halted s := by
  induction l generalizing fuel done copy with
  | nil => exact absurd rfl inside
  | cons r l ih =>
    rw [List.length_cons] at count few enough table
    obtain ⟨fuel, rfl⟩ : ∃ n, fuel = n + 1 := ⟨fuel - 1, by omega⟩
    have index : (BitVec.ofNat 8 done.length).toNat = done.length := by
      rw [BitVec.toNat_ofNat]
      omega
    have entry : s.alloc.regionInfo[done.length]? = some r := by
      have := congrArg (·[done.length]?) table
      simpa [List.getElem?_take_of_lt] using this
    have region : s.alloc.regionInfo.getD done.length default = r := by
      rw [List.getD, entry, Option.getD_some]
    have bound : BitVec.ofNat 8 done.length + 1 < s.alloc.numRegions ↔ l ≠ [] := by
      rw [BitVec.lt_def, BitVec.toNat_add, index, count, ne_eq, ← List.length_eq_zero_iff]
      show (done.length + 1) % 256 < _ ↔ _
      omega
    rw [run_regionWalk_succ, index, region, walkTable]
    split_ifs with past more
    · have next : BitVec.ofNat 8 done.length + 1 = BitVec.ofNat 8 (done ++ [r]).length := by
        simp [BitVec.ofNat_add]
      rw [next]
      exact ih (done ++ [r]) (by simp; omega) (by simp; omega)
        (by simpa [Nat.add_assoc, Nat.add_comm 1] using table) (bound.1 more) (by omega)
    · have last : l = [] := not_not.1 fun h => more (bound.2 h)
      rw [last, walkTable]
    · rfl

/-! ### Where the walk ends -/

/-- An unsigned comparison with the sign-extended low half of `copy` can only fail when that half
is not negative. -/
theorem low_half_of_lt {copy pages : U64} (h : ¬ pages ≤ (copy.setWidth 32).signExtend 64)
    (small : pages.toNat < 2 ^ 63) : copy.toNat % 2 ^ 32 < 2 ^ 31 ∧
      copy.toNat % 2 ^ 32 < pages.toNat := by
  rw [BitVec.le_def] at h
  have positive : copy.toNat % 2 ^ 32 < 2 ^ 31 := by
    by_contra negative
    have := Words.le_toNat_signExtend_high (not_lt.1 negative)
    omega
  rw [Words.toNat_signExtend_low positive] at h
  exact ⟨positive, not_le.1 h⟩

/-- Wherever the walk ends, what is left of the index is below the page count of that region. -/
theorem walkTable_mem {l : List Region} {copy : U64} {p : U64 × U64}
    (small : ∀ r ∈ l, r.pages.toNat < 2 ^ 63) (ends : walkTable l copy = some p) :
    ∃ r ∈ l, p.1 = r.start ∧ p.2.toNat % 2 ^ 32 < r.pages.toNat := by
  induction l generalizing copy with
  | nil => simp [walkTable] at ends
  | cons r l ih =>
    rw [walkTable] at ends
    split_ifs at ends with past
    · obtain ⟨r', mem, found⟩ := ih (fun r hr => small r (List.mem_cons_of_mem _ hr)) ends
      exact ⟨r', List.mem_cons_of_mem _ mem, found⟩
    · cases ends
      exact ⟨r, List.mem_cons_self, rfl, (low_half_of_lt past (small r List.mem_cons_self)).2⟩

theorem toNat_offset (copy : U64) :
    ((copy.setWidth 32 * frameAllocationSize.setWidth 32).setWidth 64).toNat =
      copy.toNat % 2 ^ 20 * 4096 := by
  rw [BitVec.toNat_setWidth, BitVec.toNat_mul, BitVec.toNat_setWidth]
  show (copy.toNat % 2 ^ 32 * 4096) % 2 ^ 32 % 2 ^ 64 = _
  omega

/-- The 32-bit product only keeps the low 20 bits of the index. -/
theorem walkAddr_eq_page (r : Region) (copy : U64) :
    walkAddr (r.start, copy) = r.page (copy.toNat % 2 ^ 20) := by
  unfold walkAddr Region.page
  congr 1
  apply BitVec.eq_of_toNat_eq
  rw [toNat_offset, BitVec.toNat_ofNat]
  show copy.toNat % 2 ^ 20 * 4096 = _
  omega

/-- Below `2 ^ 31` the casts of the walk change nothing. -/
theorem walkTable_eq_locate {l : List Region} {copy : U64} (small : copy.toNat < 2 ^ 31) :
    walkTable l copy = (Segments.locate (fun r : Region => r.pages.toNat) l copy.toNat).map
      fun p => (p.1.start, BitVec.ofNat 64 p.2) := by
  induction l generalizing copy with
  | nil => rfl
  | cons r l ih =>
    have low : ((copy.setWidth 32).signExtend 64).toNat = copy.toNat := by
      rw [Words.toNat_signExtend_low (by omega), Nat.mod_eq_of_lt (by omega)]
    simp only [walkTable, Segments.locate, BitVec.le_def, low]
    by_cases past : r.pages.toNat ≤ copy.toNat
    · have rest : (copy - r.pages).toNat = copy.toNat - r.pages.toNat := by
        rw [BitVec.toNat_sub_of_le (BitVec.le_def.2 past)]
      rw [if_pos past, if_neg (by omega), ih (by omega), rest]
    · rw [if_neg past, if_pos (by omega)]
      simp

end Bintos
