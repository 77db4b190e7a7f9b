import Bintos.Lib.Radix
import Bintos.Vm.Source

/-!
# Page tables in memory

The processor's view: the walk of a virtual address through four tables (`walk`), the tables as a
heap of nodes (`child`), and the entry that a path ends at (`leafAt`).  Entries of page-aligned
tables are apart from each other, so a store to one entry changes that word only (`word_writeWord`).
-/

namespace Bintos

/-- The index of a virtual address at level `l`; level 3 is the PML4. -/
def index (l : ℕ) (v : U64) : BitVec 9 := v.extractLsb' (12 + 9 * l) 9

/-- The way from the PML4 to the page table of a virtual address. -/
def path (v : U64) : List (BitVec 9) := [index 3 v, index 2 v, index 1 v]

/-- The physical address of entry `i` of a table. -/
def entryAddr (table : U64) (i : BitVec 9) : U64 := table + 8 * i.setWidth 64

/-- Entry `i` of a table. -/
def word (mem : Mem) (table : U64) (i : BitVec 9) : U64 := mem.readWord (entryAddr table i)

/-- What a walk yields: the frame number and the effective permissions. -/
structure Translation where
  frame : BitVec 40
  writable : Bool
  noExecute : Bool
  writethru : Bool
  user : Bool
  deriving DecidableEq, Repr

/-- Entry `i` of a table, when it is present. -/
def presentEntry (mem : Mem) (table : U64) (i : BitVec 9) : Option U64 :=
  if Entry.present (word mem table i) then some (word mem table i) else none

/-- The walk of the processor from the table at `root`. -/
def walk (mem : Mem) (root v : U64) : Option Translation := do
  let pml4e ← presentEntry mem root (index 3 v)
  let pdpe ← presentEntry mem (Entry.target pml4e) (index 2 v)
  let pde ← presentEntry mem (Entry.target pdpe) (index 1 v)
  let pte ← presentEntry mem (Entry.target pde) (index 0 v)
  let entries := [pml4e, pdpe, pde, pte]
  return {
    frame := Entry.frame pte
    writable := entries.all Entry.writable
    noExecute := entries.any Entry.noExecute
    writethru := Entry.writethru pte
    user := entries.all Entry.user }

/-- The tables as a heap: the child of a table at an index. -/
def child (mem : Mem) : Radix.Heap U64 (BitVec 9) := fun table i =>
  (presentEntry mem table i).map Entry.target

/-- The page-table entry at the end of a path, zero if there is no table. -/
def leafAt (mem : Mem) (root : U64) (p : List (BitVec 9)) (i : BitVec 9) : U64 :=
  ((Radix.descend (child mem) root p).map (word mem · i)).getD 0

/-- The address of a page or a frame. -/
def PageAligned (a : U64) : Prop := a.toNat % 4096 = 0

instance (a : U64) : Decidable (PageAligned a) := inferInstanceAs (Decidable (_ = _))

/-! ### Indices -/

theorem and_0x1FF_eq (v : U64) (l : ℕ) :
    (v >>> (12 + 9 * l)) &&& 0x1FF = (index l v).setWidth 64 := by
  have mask (j : ℕ) : (0x1FF : U64).getLsbD j = decide (j < 9) := by
    show (BitVec.ofNat 64 (2 ^ 9 - 1)).getLsbD j = _
    rw [BitVec.getLsbD_ofNat, Nat.testBit_two_pow_sub_one, ← Bool.decide_and]
    congr 1
    rw [eq_iff_iff]
    omega
  apply BitVec.eq_of_getLsbD_eq
  intro j hj
  simp only [BitVec.getLsbD_and, BitVec.getLsbD_ushiftRight, BitVec.getLsbD_setWidth, index,
    BitVec.getLsbD_extractLsb', mask]
  by_cases low : j < 9 <;> simp [low, hj]

theorem pml4Index_eq (v : U64) : pml4Index v = (index 3 v).setWidth 64 := and_0x1FF_eq v 3
theorem pdptIndex_eq (v : U64) : pdptIndex v = (index 2 v).setWidth 64 := and_0x1FF_eq v 2
theorem pdIndex_eq (v : U64) : pdIndex v = (index 1 v).setWidth 64 := and_0x1FF_eq v 1
theorem ptIndex_eq (v : U64) : ptIndex v = (index 0 v).setWidth 64 := and_0x1FF_eq v 0

/-- The entry that `map_page` reaches through the direct map. -/
theorem v2p_entry {α : Type} (s : Machine α) (table : U64) (i : BitVec 9) :
    s.v2p (table + s.hhdmoff + 8 * i.setWidth 64) = entryAddr table i := by
  unfold Machine.v2p entryAddr
  ring

/-! ### Entries in memory -/

theorem toNat_entryAddr {table : U64} (aligned : PageAligned table) (i : BitVec 9) :
    (entryAddr table i).toNat = table.toNat + 8 * i.toNat := by
  unfold PageAligned at aligned
  have hi := i.isLt
  have ht := table.isLt
  unfold entryAddr
  rw [BitVec.toNat_add, BitVec.toNat_mul, BitVec.toNat_setWidth]
  show (table.toNat + 8 * (i.toNat % 2 ^ 64) % 2 ^ 64) % 2 ^ 64 = _
  omega

theorem inRange_page {a x : U64} (aligned : PageAligned a) :
    Mem.InRange a 4096 x ↔ a.toNat ≤ x.toNat ∧ x.toNat < a.toNat + 4096 := by
  unfold PageAligned at aligned
  have ha := a.isLt
  exact Mem.inRange_iff (by omega)

theorem inRange_entry {table : U64} (aligned : PageAligned table) {i : BitVec 9} {x : U64}
    (hx : Mem.InRange (entryAddr table i) 8 x) : Mem.InRange table 4096 x := by
  have addr := toNat_entryAddr aligned i
  have hi := i.isLt
  rw [inRange_page aligned]
  unfold PageAligned at aligned
  have ht := table.isLt
  rw [Mem.inRange_iff (by omega)] at hx
  omega

/-- Different pages have no byte in common. -/
theorem pages_apart {a b x : U64} (ha : PageAligned a) (hb : PageAligned b) (h : a ≠ b)
    (hx : Mem.InRange a 4096 x) : ¬ Mem.InRange b 4096 x := by
  have different : a.toNat ≠ b.toNat := fun same => h (BitVec.eq_of_toNat_eq same)
  rw [inRange_page ha] at hx
  rw [inRange_page hb]
  unfold PageAligned at ha hb
  omega

theorem word_congr {mem mem' : Mem} {table : U64} (aligned : PageAligned table)
    (same : ∀ x, Mem.InRange table 4096 x → mem' x = mem x) (i : BitVec 9) :
    word mem' table i = word mem table i :=
  Mem.readWord_congr fun x hx => same x (inRange_entry aligned hx)

theorem word_eq_zero {mem : Mem} {table : U64} (aligned : PageAligned table)
    (zero : ∀ x, Mem.InRange table 4096 x → mem x = 0) (i : BitVec 9) : word mem table i = 0 :=
  Mem.readWord_eq_zero fun x hx => zero x (inRange_entry aligned hx)

/-- A store to an entry changes that entry only. -/
theorem word_writeWord {mem : Mem} {table table' : U64} (aligned : PageAligned table)
    (aligned' : PageAligned table') (i j : BitVec 9) (w : U64) :
    word (mem.writeWord (entryAddr table i) w) table' j =
      if table' = table ∧ j = i then w else word mem table' j := by
  split_ifs with same
  · obtain ⟨rfl, rfl⟩ := same
    exact Mem.readWord_writeWord ..
  · have here := toNat_entryAddr aligned i
    have there := toNat_entryAddr aligned' j
    have hi := i.isLt
    have hj := j.isLt
    have different : table'.toNat ≠ table.toNat ∨ j.toNat ≠ i.toNat := by
      rw [Decidable.not_and_iff_not_or_not] at same
      exact same.imp (fun h e => h (BitVec.eq_of_toNat_eq e)) fun h e =>
        h (BitVec.eq_of_toNat_eq e)
    unfold PageAligned at aligned aligned'
    apply Mem.readWord_writeWord_of_apart <;> bv_omega

/-- A store to an entry changes no byte outside its table. -/
theorem writeWord_entry_of_not_inRange {mem : Mem} {table x : U64} (aligned : PageAligned table)
    (i : BitVec 9) (w : U64) (outside : ¬ Mem.InRange table 4096 x) :
    mem.writeWord (entryAddr table i) w x = mem x :=
  Mem.writeWord_of_not_inRange mem w fun inside => outside (inRange_entry aligned inside)

theorem presentEntry_eq_some {mem : Mem} {table w : U64} {i : BitVec 9} :
    presentEntry mem table i = some w ↔ word mem table i = w ∧ Entry.present w = true := by
  rw [presentEntry]
  constructor
  · intro here
    split_ifs at here with present
    cases here
    exact ⟨rfl, present⟩
  · rintro ⟨rfl, present⟩
    exact if_pos present

theorem presentEntry_congr {mem mem' : Mem} {table : U64} {i : BitVec 9}
    (same : word mem' table i = word mem table i) :
    presentEntry mem' table i = presentEntry mem table i := by
  rw [presentEntry, presentEntry, same]

theorem child_congr {mem mem' : Mem} {table : U64} {i : BitVec 9}
    (same : word mem' table i = word mem table i) : child mem' table i = child mem table i := by
  rw [child, child, presentEntry_congr same]

theorem child_of_zero {mem : Mem} {table : U64} {i : BitVec 9} (zero : word mem table i = 0) :
    child mem table i = none := by
  rw [child, presentEntry, zero]
  rfl

/-! ### Virtual pages -/

/-- A 48-bit address, sign-extended. -/
def Canonical (v : U64) : Prop := (v.setWidth 48).signExtend 64 = v

instance (v : U64) : Decidable (Canonical v) := inferInstanceAs (Decidable (_ = _))

/-- What an address has in common with the others on its page. -/
def pageKey (v : U64) : List (BitVec 9) × BitVec 9 := (path v, index 0 v)

/-- The indices of canonical addresses agree exactly on one virtual page. -/
theorem pageKey_eq_iff {v v' : U64} (hv : Canonical v) (hv' : Canonical v') :
    pageKey v = pageKey v' ↔ v >>> 12 = v' >>> 12 := by
  constructor
  · intro same
    simp only [pageKey, path, Prod.mk.injEq, List.cons.injEq, and_true] at same
    obtain ⟨⟨i₃, i₂, i₁⟩, i₀⟩ := same
    have bit (l : ℕ) (h : index l v = index l v') (j : ℕ) (hj : j < 9) :
        v.getLsbD (12 + 9 * l + j) = v'.getLsbD (12 + 9 * l + j) := by
      have := congrArg (·.getLsbD j) h
      simpa [index, hj] using this
    have low (j : ℕ) (hj : j < 36) : v.getLsbD (12 + j) = v'.getLsbD (12 + j) := by
      have level : j / 9 = 0 ∨ j / 9 = 1 ∨ j / 9 = 2 ∨ j / 9 = 3 := by omega
      have split : 12 + j = 12 + 9 * (j / 9) + j % 9 := by omega
      rw [split]
      rcases level with l | l | l | l <;> rw [l]
      · exact bit 0 i₀ _ (by omega)
      · exact bit 1 i₁ _ (by omega)
      · exact bit 2 i₂ _ (by omega)
      · exact bit 3 i₃ _ (by omega)
    have high (w : U64) (hw : Canonical w) (j : ℕ) (hj : 48 ≤ j) (h64 : j < 64) :
        w.getLsbD j = w.getLsbD 47 := by
      have := congrArg (·.getLsbD j) hw
      simp only [BitVec.getLsbD_signExtend, BitVec.msb_eq_getLsbD_last] at this
      rw [← this]
      simp [h64, show ¬ j < 48 by omega]
    apply BitVec.eq_of_getLsbD_eq
    intro j hj
    rw [BitVec.getLsbD_ushiftRight, BitVec.getLsbD_ushiftRight]
    by_cases inside : j < 36
    · exact low j inside
    · by_cases top : 12 + j < 64
      · rw [high v hv _ (by omega) top, high v' hv' _ (by omega) top]
        exact low 35 (by omega)
      · rw [BitVec.getLsbD_of_ge _ _ (by omega), BitVec.getLsbD_of_ge _ _ (by omega)]
  · intro same
    have level (l : ℕ) : index l v = index l v' := by
      apply BitVec.eq_of_getLsbD_eq
      intro j hj
      have := congrArg (·.getLsbD (9 * l + j)) same
      simp only [BitVec.getLsbD_ushiftRight] at this
      simp only [index, BitVec.getLsbD_extractLsb', Nat.add_assoc, this]
    simp only [pageKey, path, level]

end Bintos
