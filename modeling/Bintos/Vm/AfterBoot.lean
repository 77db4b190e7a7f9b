import Bintos.Vm.BootMap
import Bintos.Vm.KernelFrames

/-!
# Memory management after the boot

`map_page` reaches every table through the direct map, and `frame_alloc` the bitmap and the frames that
it clears.  Of all these the address space that the boot loads has the page of the PML4 only, so the
next call of `map_page` for a page of the stack reads its second table at an address that is not mapped
(`not_managesMemory`).
-/

namespace Bintos

/-! ### Recorded accesses -/

section Trace

variable {α β γ : Type} {x : Kern α β} {f : β → Kern α γ}

/-- The computation forgets no access. -/
def KeepsTrace (x : Kern α β) : Prop := ∀ s, s.trace ⊆ (finalState (x.run s)).trace

/-- What comes after an access does not forget it. -/
theorem KeepsTrace.mem_bind (rest : ∀ b, KeepsTrace (f b)) {s : Machine α} {acc : Access}
    (made : acc ∈ (finalState (x.run s)).trace) : acc ∈ (finalState ((x >>= f).run s)).trace := by
  rw [EStateM.run_bind]
  cases run : x.run s with
  | ok b t =>
    rw [run] at made
    exact rest b t made
  | error e t =>
    rw [run] at made
    exact made

theorem KeepsTrace.bind (first : KeepsTrace x) (rest : ∀ b, KeepsTrace (f b)) :
    KeepsTrace (x >>= f) :=
  fun s _ made => KeepsTrace.mem_bind rest (first s made)

theorem keepsTrace_pure (b : β) : KeepsTrace (pure b : Kern α β) := fun _ => List.Subset.refl _

theorem keepsTrace_throw (e : Stop) : KeepsTrace (throw e : Kern α β) :=
  fun _ => List.Subset.refl _

theorem keepsTrace_get : KeepsTrace (get : Kern α (Machine α)) := fun _ => List.Subset.refl _

theorem keepsTrace_chassert (b : Bool) : KeepsTrace (chassert b : Kern α Unit) := by
  cases b
  · exact keepsTrace_throw _
  · exact keepsTrace_pure ()

theorem keepsTrace_modifyPmem (f : Pmem → Pmem) : KeepsTrace (modifyPmem f) :=
  fun _ => List.Subset.refl _

theorem keepsTrace_memset (p : U64) (c : U8) (n : U64) : KeepsTrace (memset p c n : Kern α Unit) :=
  fun s => List.subset_cons_self _ s.trace

theorem keepsTrace_getFrameFlags (frameNo : U64) : KeepsTrace (getFrameFlags frameNo) := by
  intro s
  rw [run_getFrameFlags]
  exact List.subset_cons_self _ s.trace

theorem keepsTrace_setFrameFlags (frameNo : U64) (flags : U8) :
    KeepsTrace (setFrameFlags frameNo flags) := by
  intro s
  rw [run_setFrameFlags]
  exact List.subset_cons_of_subset _ (List.subset_cons_self _ s.trace)

theorem keepsTrace_skipUnavail (fuel : ℕ) (flag : U8) : KeepsTrace (skipUnavail fuel flag) := by
  induction fuel generalizing flag with
  | zero => exact keepsTrace_throw _
  | succ fuel ih =>
    rw [skipUnavail]
    split_ifs
    · exact (keepsTrace_modifyPmem _).bind fun _ => keepsTrace_get.bind fun _ =>
        (keepsTrace_getFrameFlags _).bind fun _ => keepsTrace_get.bind fun _ =>
          keepsTrace_get.bind fun _ => (keepsTrace_chassert _).bind fun _ => ih _
    · exact keepsTrace_pure _

theorem keepsTrace_regionWalk (fuel : ℕ) (mapIdx : U8) (copy : U64) :
    KeepsTrace (regionWalk fuel mapIdx copy) := by
  induction fuel generalizing mapIdx copy with
  | zero => exact keepsTrace_throw _
  | succ fuel ih =>
    rw [regionWalk]
    refine keepsTrace_get.bind fun s => ?_
    dsimp only
    split_ifs
    · exact keepsTrace_get.bind fun _ => (keepsTrace_chassert _).bind fun _ => ih _ _
    · exact keepsTrace_pure _

theorem keepsTrace_frameAlloc (zeroed : Bool) : KeepsTrace (frameAlloc zeroed) := by
  unfold frameAlloc
  refine keepsTrace_get.bind fun s => keepsTrace_get.bind fun s' => ?_
  dsimp only
  split_ifs
  · exact keepsTrace_pure _
  all_goals
    refine keepsTrace_get.bind fun _ => (keepsTrace_getFrameFlags _).bind fun _ =>
      keepsTrace_get.bind fun _ => keepsTrace_get.bind fun _ =>
      (keepsTrace_skipUnavail _ _).bind fun _ => keepsTrace_get.bind fun _ =>
      (keepsTrace_setFrameFlags _ _).bind fun _ => keepsTrace_get.bind fun _ =>
      (keepsTrace_regionWalk _ _ _).bind fun _ => (keepsTrace_modifyPmem _).bind fun _ => ?_
  · exact keepsTrace_get.bind fun _ => (keepsTrace_memset _ _ _).bind fun _ => keepsTrace_pure _
  · exact keepsTrace_pure _

/-- A level of `map_page` begins with an access to its entry. -/
theorem subset_trace_nextTable {frameAlloc : Bool → Kern α U64} (keeps : ∀ z, KeepsTrace (frameAlloc z))
    {F : Type} [DecidableEq F] [Packed F] (present ptr : F) (link : U64 → List (F × U64))
    (entry : U64) (s : Machine α) :
    ⟨.table, entry, 8⟩ :: s.trace ⊆
      (finalState ((nextTable frameAlloc present ptr link entry).run s)).trace := by
  rw [run_nextTable]
  split_ifs
  · have called := keeps true (s.touch ⟨.table, entry, 8⟩)
    cases run : (frameAlloc true).run (s.touch ⟨.table, entry, 8⟩) with
    | ok a t =>
      rw [run] at called
      exact List.Subset.trans called (List.subset_append_right _ _)
    | error e t =>
      rw [run] at called
      exact called
  · exact List.subset_cons_self _ _

theorem keepsTrace_nextTable {frameAlloc : Bool → Kern α U64} (keeps : ∀ z, KeepsTrace (frameAlloc z))
    {F : Type} [DecidableEq F] [Packed F] (present ptr : F) (link : U64 → List (F × U64))
    (entry : U64) : KeepsTrace (nextTable frameAlloc present ptr link entry) := fun s =>
  List.Subset.trans (List.subset_cons_self _ _) (subset_trace_nextTable keeps present ptr link entry s)

theorem keepsTrace_storeFields {F : Type} [DecidableEq F] [Packed F] (entry : U64)
    (l : List (F × U64)) :
    KeepsTrace (l.forM fun a => storeField entry a.1 a.2 : Kern α Unit) := by
  intro s
  rw [run_storeFields]
  exact List.subset_append_right _ _

/-- A call whose PML4 entry points to a table below `2 ^ 40` goes on in that table. -/
theorem mem_trace_mapPage {frameAlloc : Bool → Kern α U64} (keeps : ∀ z, KeepsTrace (frameAlloc z))
    {s : Machine α} {c : MapCall} {table : U64} (here : tableAt s [index 3 c.vaddr] = some table)
    (low : table.toNat < 2 ^ 40) :
    ⟨.table, table + s.hhdmoff + 8 * pdptIndex c.vaddr, 8⟩ ∈
      (finalState ((mapPage frameAlloc c).run s)).trace := by
  obtain ⟨t, first⟩ : ∃ t, (pdptFor frameAlloc (s.pml4Addr + s.hhdmoff + 8 * pml4Index c.vaddr)).run s =
      .ok (table + s.hhdmoff) t := by
    obtain ⟨w, entry, rfl⟩ := Option.map_eq_some_iff.1
      ((tableAt_concat s [] (index 3 c.vaddr)).symm.trans here)
    obtain ⟨rfl, present⟩ := presentEntry_eq_some.1 entry
    rw [pdptFor, pml4Index_eq, run_nextTable_present links_pml4e frameAlloc rfl present,
      shift_frame_eq_target low]
    exact ⟨_, rfl⟩
  have rest : (mapPage frameAlloc c).run s =
      (pdFor frameAlloc (table + s.hhdmoff + 8 * pdptIndex c.vaddr) >>= fun pd =>
        ptFor frameAlloc (pd + 8 * pdIndex c.vaddr) >>= fun pt =>
          (pteAssignments c).forM fun a => storeField (pt + 8 * ptIndex c.vaddr) a.1 a.2).run t := by
    simp only [mapPage, EStateM.run_bind, EStateM.run_get, first]
  rw [rest]
  refine KeepsTrace.mem_bind (fun pd => ?_)
    (subset_trace_nextTable keeps _ _ _ _ _ List.mem_cons_self)
  exact (keepsTrace_nextTable keeps _ _ _ _).bind fun pt => keepsTrace_storeFields _ _

end Trace

/-! ### Later calls -/

/-- A call after the boot. -/
inductive LaterCall where
  | mapPage (c : MapCall)
  | frameAlloc (zeroed : Bool)

def LaterCall.exec : LaterCall → Kern Pmem Unit
  | .mapPage c => Bintos.mapPage Bintos.frameAlloc c
  | .frameAlloc zeroed => do
    let _ ← Bintos.frameAlloc zeroed

/-- The states between later calls that return. -/
inductive LaterRun (s₁ : Kernel) : Kernel → Prop
  | start : LaterRun s₁ s₁
  | call {s s' : Kernel} (c : LaterCall) :
      LaterRun s₁ s → c.exec.run s = .ok () s' → LaterRun s₁ s'

/-- Every byte of the access is mapped writable, and to where the direct map has it, by the tables
that CR3 points to. -/
def Mapped {α : Type} (s : Machine α) (acc : Access) : Prop :=
  ∃ root, s.cr3 = some root ∧ ∀ i < acc.len, ∃ t,
    walk s.mem root (acc.addr + BitVec.ofNat 64 i) = some t ∧
    t.physical (acc.addr + BitVec.ofNat 64 i) = s.v2p (acc.addr + BitVec.ofNat 64 i) ∧
    t.writable = true

/-- Every access of every later call is mapped when the call is made. -/
def ManagesMemory (s₁ : Kernel) : Prop :=
  ∀ s, LaterRun s₁ s → ∀ call : LaterCall,
    ∀ acc ∈ (finalState (call.exec.run { s with trace := [] })).trace, Mapped s acc

/-- Usable memory, the stack and the framebuffers are in the direct map, and the latter two are apart
from usable memory. -/
structure Layout (m : List MemmapEntry) (kernelEnd rsp off : U64) : Prop where
  ram : ∀ e ∈ usable m, ∀ p : U64, p.toNat ∈ e.extent → InDirectMap off kernelEnd (p + off)
  stack : ∀ v, StackPage rsp v →
    InDirectMap off kernelEnd v ∧ ∀ e ∈ usable m, (v - off).toNat ∉ e.extent
  framebuffers : ∀ v, FramebufferPage m off v → InDirectMap off kernelEnd v
  apart : ∀ e ∈ m, e.type = memmapFramebuffer → ∀ e' ∈ usable m, Disjoint e.extent e'.extent

/-- More calls than the boot makes of the allocator. -/
def bootBudget (m : List MemmapEntry) (kernelEnd : U64) : ℕ := 2 + 3 * bootSize m kernelEnd

/-- A boot that has loaded CR3, with distinct frames for its tables and without the reuse of a table at
or above `2 ^ 40`. -/
structure CleanBoot (m : List MemmapEntry) (off physicalBase kernelEnd rsp : U64)
    (s₀ s₁ : Kernel) : Prop where
  started : ∃ fuel mem, (initializeMemmap fuel m off).run (atBoot mem) = .ok () s₀
  loaded : ∃ fuel, bootFuel m kernelEnd ≤ fuel ∧
    (initializePaging frameAlloc fuel m physicalBase kernelEnd rsp).run s₀ = .ok () s₁
  inputs : BootInputs m physicalBase kernelEnd rsp off
  layout : Layout m kernelEnd rsp off
  two : 2 ≤ frames m
  distinct : DistinctAnswers m (bootBudget m kernelEnd)
  low : ∀ a t, (frameAlloc true).run s₀ = .ok a t →
    LowRun frameAlloc { t with pml4Addr := a } (bootCalls m physicalBase kernelEnd rsp off a)

section AfterBoot

variable {m : List MemmapEntry} {off physicalBase kernelEnd rsp : U64} {s₀ s₁ : Kernel}

theorem Layout.physical (layout : Layout m kernelEnd rsp off) {a : U64} (frame : IsFrame m a) :
    a.toNat < 2 ^ 52 := by
  obtain ⟨e, he, low, high⟩ := frame.inside
  have inside : a.toNat ∈ e.extent := by
    unfold MemmapEntry.extent
    rw [Set.mem_Ico]
    omega
  simpa using (layout.ram e he a inside).physical

theorem Layout.direct (hm : Conformant m) (inputs : BootInputs m physicalBase kernelEnd rsp off)
    (layout : Layout m kernelEnd rsp off) {a : U64} (frame : IsFrame m a) {v : U64}
    (page : DirectPage m rsp off a v) : InDirectMap off kernelEnd v := by
  rcases page with pml4 | stack | framebuffer
  · have aligned := frame.aligned hm
    have offset := inputs.offset_aligned
    unfold PageAligned at offset
    obtain ⟨e, he, low, high⟩ := frame.inside
    have same := shift_eq_iff.1 pml4
    have inside : (v - off).toNat ∈ e.extent := by
      unfold MemmapEntry.extent
      rw [BitVec.toNat_add] at same
      rw [Set.mem_Ico, BitVec.toNat_sub]
      omega
    simpa using layout.ram e he _ inside
  · exact (layout.stack v stack).1
  · exact layout.framebuffers v framebuffer

/-- What the boot maps in the direct map, once the kernel's allocator has given it the PML4. -/
theorem Layout.direct_of_root (hm : Conformant m)
    (inputs : BootInputs m physicalBase kernelEnd rsp off) (layout : Layout m kernelEnd rsp off)
    (two : 2 ≤ frames m) {n : ℕ} (distinct : DistinctAnswers m n) (fresh : Handed m off [] s₀)
    {a v : U64} {t : Kernel} (root : (budgetAlloc n true).run s₀ = .ok a t)
    (page : DirectPage m rsp s₀.hhdmoff a v) : InDirectMap s₀.hhdmoff kernelEnd v := by
  have granted := (fresh.grant hm two (fun _ => layout.physical) distinct root).2
  rw [fresh.ready.hhdmoff] at page ⊢
  exact layout.direct hm inputs (granted.isFrame a List.mem_cons_self) page

/-- The boot is one from any source that keeps the record of the frames. -/
theorem CleanBoot.boots_from (hm : Conformant m)
    (boot : CleanBoot m off physicalBase kernelEnd rsp s₀ s₁)
    (source : FrameSource (budgetAlloc (bootBudget m kernelEnd))) (first : source.Inv [] s₀)
    (records : ∀ taken t, source.Inv taken t → Handed m off taken t) :
    ∃ taken, Boots source m physicalBase kernelEnd rsp s₀ taken s₁ := by
  obtain ⟨fuel₀, mem, started⟩ := boot.started
  obtain ⟨fuel, enough, returns⟩ := boot.loaded
  have offset : s₀.hhdmoff = off := (initializeMemmap_spec hm started).1.hhdmoff
  have below : kernelEnd < 0xfffffffffffff000#64 := by
    by_contra last
    exact initializePaging_not_returns (BitVec.not_lt.1 last) _ _ _ _ _ _ returns
  have budget := budgetAlloc_upToBudget (bootBudget m kernelEnd)
  have fresh : Handed m off [] s₀ := handed_nil hm started
  have inputs : BootInputs m physicalBase kernelEnd rsp s₀.hhdmoff := offset ▸ boot.inputs
  have direct (a : U64) (t : Kernel) (root : (budgetAlloc (bootBudget m kernelEnd) true).run s₀ = .ok a t)
      (v : U64) (page : DirectPage m rsp s₀.hhdmoff a v) : InDirectMap s₀.hhdmoff kernelEnd v :=
    boot.layout.direct_of_root hm boot.inputs boot.two boot.distinct fresh root page
  have low (a : U64) (t : Kernel) (root : (budgetAlloc (bootBudget m kernelEnd) true).run s₀ = .ok a t) :
      LowRun (budgetAlloc (bootBudget m kernelEnd)) { t with pml4Addr := a }
        (bootCalls m physicalBase kernelEnd rsp s₀.hhdmoff a) := by
    rw [offset]
    exact (boot.low a t ((budget true).of_ok root)).of_upToBudget budget
  rcases initializePaging_cases source first inputs direct below low enough with
    ⟨taken, s', run, boots⟩ | stops
  · have same := (initializePaging_upToBudget budget fuel m physicalBase kernelEnd rsp).of_ok run
    rw [returns, EStateM.Result.ok.injEq] at same
    obtain ⟨-, rfl⟩ := same
    exact ⟨taken, boots⟩
  · obtain ⟨taken, t, e, t', few, handed, stopped, run⟩ := stops
    have handed : Handed m off taken t := records taken t handed
    have halted := handed.halted hm (by unfold bootBudget; omega) stopped
    rcases initializePaging_upToBudget budget fuel m physicalBase kernelEnd rsp s₀ with
      same | ⟨u, spent⟩
    · rw [returns, run] at same
      cases same
    · rw [run, halted] at spent
      cases spent

/-- The boot is one from a source of frames. -/
theorem CleanBoot.boots (hm : Conformant m) (boot : CleanBoot m off physicalBase kernelEnd rsp s₀ s₁) :
    ∃ taken, Boots (kernelSource hm boot.two off (fun _ => boot.layout.physical) boot.distinct) m
      physicalBase kernelEnd rsp s₀ taken s₁ := by
  obtain ⟨fuel, mem, started⟩ := boot.started
  exact boot.boots_from hm _ (handed_nil hm started) fun _ _ handed => handed

/-- Of usable memory the boot maps the page of the PML4 only. -/
theorem CleanBoot.walk_eq_none (hm : Conformant m)
    (boot : CleanBoot m off physicalBase kernelEnd rsp s₀ s₁) {e : MemmapEntry} (he : e ∈ usable m)
    {p : U64} (inside : p.toNat ∈ e.extent) (other : p >>> 12 ≠ s₁.pml4Addr >>> 12) :
    walk s₁.mem s₁.pml4Addr (p + off) = none := by
  obtain ⟨taken, boots⟩ := boot.boots hm
  have hhdmoff : s₁.hhdmoff = off := by
    obtain ⟨fuel, mem, started⟩ := boot.started
    exact boots.hhdmoff.trans (initializeMemmap_spec hm started).1.hhdmoff
  have aligned := hm.aligned e he
  have offset := boot.inputs.offset_aligned
  unfold PageAligned at offset
  by_contra present
  have canonical := (boot.layout.ram e he p inside).canonical
  have extent := Set.mem_Ico.1 inside
  rcases boots.mapped.nothing_else _ canonical present with ⟨above, below⟩ | pml4 | stack | framebuffer
  · -- then the first byte of the page is in the kernel's range
    have first : (pgRoundDown p).toNat ∈ e.extent := by
      rw [toNat_pgRoundDown]
      exact Set.mem_Ico.2 (by omega)
    refine (boot.layout.ram e he _ first).apart ?_
    rw [← pgRoundDown_add boot.inputs.offset_aligned, BitVec.le_def, BitVec.le_def,
      toNat_pgRoundDown]
    rw [BitVec.le_def, BitVec.toNat_ushiftRight, BitVec.toNat_ushiftRight] at above below
    simp only [Nat.shiftRight_eq_div_pow] at above below
    have vma := toNat_kernelVma
    omega
  · rw [hhdmoff] at pml4
    have same := shift_eq_iff.1 pml4
    rw [BitVec.toNat_add, BitVec.toNat_add] at same
    exact other (shift_eq_iff.2 (by omega))
  · have outside := (boot.layout.stack _ stack).2 e he
    rw [BitVec.add_sub_cancel] at outside
    exact outside inside
  · obtain ⟨e', he', type, q, low, high, page⟩ := framebuffer
    rw [hhdmoff] at page
    have same := shift_eq_iff.1 page
    rw [BitVec.toNat_add, BitVec.toNat_add] at same
    refine Set.disjoint_left.1 (boot.layout.apart e' he' type e he) (Set.mem_Ico.2 ⟨low, high⟩)
      (Set.mem_Ico.2 ?_)
    omega

theorem toNat_index (l : ℕ) (v : U64) : (index l v).toNat = v.toNat / 2 ^ (12 + 9 * l) % 2 ^ 9 := by
  rw [index, BitVec.extractLsb'_toNat, Nat.shiftRight_eq_div_pow]

/-- Two neighbouring pages of the stack are in the range of one PML4 entry. -/
theorem exists_neighbours (rsp off : U64) : ∃ b b' : U64, [b, b'].Sublist (strides 16 0) ∧
    index 3 (stackCall rsp off b).vaddr = index 3 (stackCall rsp off b').vaddr := by
  have level (b : U64) : (index 3 (stackCall rsp off b).vaddr).toNat =
      (rsp - b).toNat / 4096 * 4096 / 2 ^ 39 % 2 ^ 9 := by
    rw [toNat_index]
    show (pgRoundDown (rsp - b)).toNat / _ % _ = _
    rw [toNat_pgRoundDown]
  -- only the first page can be the first one of its entry's range
  by_cases first : rsp.toNat / 4096 % 2 ^ 27 = 0
  · refine ⟨4096, 8192, by decide, BitVec.eq_of_toNat_eq ?_⟩
    rw [level, level]
    bv_omega
  · refine ⟨0, 4096, by decide, BitVec.eq_of_toNat_eq ?_⟩
    rw [level, level]
    bv_omega

/-- The entries of a frame that is not the PML4 are not mapped. -/
theorem CleanBoot.not_mapped (hm : Conformant m)
    (boot : CleanBoot m off physicalBase kernelEnd rsp s₀ s₁) (loaded : s₁.cr3 = some s₁.pml4Addr)
    (root : PageAligned s₁.pml4Addr) {table : U64} (frame : IsFrame m table)
    (other : table ≠ s₁.pml4Addr) (i : BitVec 9) :
    ¬ Mapped s₁ ⟨.table, table + off + 8 * i.setWidth 64, 8⟩ := by
  rintro ⟨pml4, here, bytes⟩
  rw [loaded, Option.some_inj] at here
  obtain ⟨t, present, -⟩ := bytes 0 (Nat.succ_pos 7)
  have present : walk s₁.mem pml4 (table + off + 8 * i.setWidth 64) = some t := by
    simpa using present
  have aligned : PageAligned table := frame.aligned hm
  have place := toNat_entryAddr aligned i
  have small := i.isLt
  obtain ⟨e, he, bottom, top⟩ := frame.inside
  have inside : (entryAddr table i).toNat ∈ e.extent := by
    unfold MemmapEntry.extent
    rw [Set.mem_Ico]
    omega
  have elsewhere : entryAddr table i >>> 12 ≠ s₁.pml4Addr >>> 12 := by
    unfold PageAligned at aligned root
    rw [ne_eq, shift_eq_iff]
    intro same
    exact other (BitVec.eq_of_toNat_eq (by omega))
  have address : entryAddr table i + off = table + off + 8 * i.setWidth 64 := by
    unfold entryAddr
    ring
  have unmapped := boot.walk_eq_none hm he inside elsewhere
  rw [address, here, present] at unmapped
  cases unmapped

/-- A call of `map_page` for a page of the stack makes an access that is not mapped. -/
theorem CleanBoot.exists_unmapped (hm : Conformant m)
    (boot : CleanBoot m off physicalBase kernelEnd rsp s₀ s₁) : ∃ b acc,
    acc ∈ (finalState ((mapPage frameAlloc (stackCall rsp off b)).run { s₁ with trace := [] })).trace ∧
      ¬ Mapped s₁ acc := by
  obtain ⟨taken, boots⟩ := boot.boots hm
  have handed : Handed m off taken s₁ := boots.inv
  have hhdmoff : s₁.hhdmoff = off := handed.ready.hhdmoff
  obtain ⟨b, b', neighbours, same⟩ := exists_neighbours rsp off
  obtain ⟨table, found, low⟩ : ∃ table,
      tableAt s₁ [index 3 (stackCall rsp off b).vaddr] = some table ∧ table.toNat < 2 ^ 40 := by
    refine @boots.shared (stackCall rsp off b) (stackCall rsp off b') ?_ _ ?_ ?_
    · rw [hhdmoff]
      have calls : (stackCalls rsp off).Sublist
          (bootCalls m physicalBase kernelEnd rsp off s₁.pml4Addr) :=
        ((List.sublist_cons_self _ _).trans (List.sublist_append_left _ _)).trans
          (List.sublist_append_left _ _)
      exact (neighbours.map (stackCall rsp off)).trans calls
    · simp [way]
    · simp [way, same]
  have member := boots.tables.owned (by simp) found
  have other : table ≠ s₁.pml4Addr :=
    boots.tables.ne_of_path_ne (p := []) (by simp) (by simp) rfl found (by simp)
  have root : PageAligned s₁.pml4Addr :=
    boots.tables.aligned _ (boots.tables.owned (p := []) (by simp) rfl)
  have made := mem_trace_mapPage keepsTrace_frameAlloc (s := { s₁ with trace := [] }) found low
  refine ⟨b, _, made, ?_⟩
  show ¬ Mapped s₁ ⟨.table, table + s₁.hhdmoff + 8 * pdptIndex (stackCall rsp off b).vaddr, 8⟩
  rw [hhdmoff, pdptIndex_eq]
  exact boot.not_mapped hm boots.mapped.cr3 root (handed.isFrame table member) other _

/-- **Memory management after the boot.**  No boot that has met neither of the two defects leaves an
address space in which its memory management can go on. -/
theorem not_managesMemory (hm : Conformant m)
    (boot : CleanBoot m off physicalBase kernelEnd rsp s₀ s₁) : ¬ ManagesMemory s₁ := by
  intro manages
  obtain ⟨b, acc, made, unmapped⟩ := boot.exists_unmapped hm
  exact unmapped (manages s₁ .start (.mapPage (stackCall rsp off b)) acc made)

/-- A machine with memory below `2 ^ 40` and frames for all tables boots. -/
theorem exists_cleanBoot (hm : Conformant m)
    (started : ∃ fuel mem, (initializeMemmap fuel m off).run (atBoot mem) = .ok () s₀)
    (inputs : BootInputs m physicalBase kernelEnd rsp off) (layout : Layout m kernelEnd rsp off)
    (below : kernelEnd < 0xfffffffffffff000#64) (two : 2 ≤ frames m)
    (low : ∀ a, IsFrame m a → a.toNat < 2 ^ 40) (room : bootBudget m kernelEnd ≤ capacity m)
    (small : bootBudget m kernelEnd ≤ 2 ^ 20) :
    ∃ s₁, CleanBoot m off physicalBase kernelEnd rsp s₀ s₁ := by
  obtain ⟨fuel₀, mem, returns₀⟩ := started
  have fresh : Handed m off [] s₀ := handed_nil hm returns₀
  have offset : s₀.hhdmoff = off := fresh.ready.hhdmoff
  have distinct : DistinctAnswers m (bootBudget m kernelEnd) := distinctAnswers_of_le hm small
  have budget := budgetAlloc_upToBudget (bootBudget m kernelEnd)
  let source := kernelSource hm two off (fun _ => layout.physical) distinct
  have supplies : source.Supplies (1 + 3 * bootSize m kernelEnd) := by
    unfold bootBudget at room small
    exact kernelSource_supplies hm two off _ _ (by unfold bootBudget; omega) (by omega) (by omega)
  -- no table is at or above `2 ^ 40`, and the budget is enough
  have run_low (a : U64) (t : Kernel) (root : (frameAlloc true).run s₀ = .ok a t) :
      (budgetAlloc (bootBudget m kernelEnd) true).run s₀ = .ok a t ∧
      LowRun (budgetAlloc (bootBudget m kernelEnd)) { t with pml4Addr := a }
        (bootCalls m physicalBase kernelEnd rsp off a) ∧
      LowRun frameAlloc { t with pml4Addr := a } (bootCalls m physicalBase kernelEnd rsp off a) := by
    have within : (budgetAlloc (bootBudget m kernelEnd) true).run s₀ = .ok a t := by
      have cursor := fresh.cursor
      rw [run_budgetAlloc, if_neg, root]
      rw [cursor]
      unfold bootBudget
      simp
    obtain ⟨grants, inv⟩ := source.grant fresh within
    have start : ZeroedPml4 source { t with pml4Addr := a } :=
      ⟨source.write inv rfl rfl fun _ _ => rfl, grants.aligned, grants.zeroed⟩
    have low_budget : LowRun (budgetAlloc (bootBudget m kernelEnd)) { t with pml4Addr := a }
        (bootCalls m physicalBase kernelEnd rsp off a) :=
      lowRun_of_frames source start.inv (tableTree_of_zeroed start.aligned start.zeroed).1
        fun taken t (handed : Handed m off taken t) b hb => low b (handed.isFrame b hb)
    refine ⟨within, low_budget, low_budget.to_upToBudget budget fun t' spent => ?_⟩
    rcases start.mapPages_cases low_budget with ⟨_, s', run, -⟩ | stops
    · rw [spent] at run
      cases run
    · rw [length_bootCalls] at stops
      exact supplies.not_stops stops
  have cases := initializePaging_cases source fresh (offset ▸ inputs)
    (fun a t root v page => layout.direct_of_root hm inputs two distinct fresh root page) below
    (fun a t root => by
      rw [offset]
      exact (run_low a t ((budget true).of_ok root)).2.1) le_rfl
  obtain ⟨taken, s₁, run, -⟩ := cases.resolve_right supplies.not_stops
  refine ⟨s₁, ⟨fuel₀, mem, returns₀⟩, ⟨bootFuel m kernelEnd, le_rfl, ?_⟩, inputs, layout, two, distinct,
    fun a t root => (run_low a t root).2.2⟩
  exact (initializePaging_upToBudget budget _ m physicalBase kernelEnd rsp).of_ok run

end AfterBoot

/-! ### A boot -/

/-- 256 usable pages from 1 MiB on. -/
def oneMegabyte : List MemmapEntry := [⟨0x100000, 0x100000, memmapUsable⟩]

theorem conformant_oneMegabyte : Conformant oneMegabyte := by
  constructor <;> simp [usable, oneMegabyte, memmapUsable]

/-- The stack is below usable memory. -/
theorem layout_oneMegabyte :
    Layout oneMegabyte 0xffffffff80001fff#64 0xffff800000080000#64 higherHalf := by
  have offset : higherHalf.toNat = 0xffff800000000000 := rfl
  have direct (v : U64) (low : 0xffff800000000000 ≤ v.toNat) (high : v.toNat < 0xffff800001000000) :
      InDirectMap higherHalf 0xffffffff80001fff#64 v := by
    refine ⟨canonical_of_le (by omega), ?_, ?_⟩
    · rintro ⟨above, -⟩
      have vma := toNat_kernelVma
      have above : kernelVma.toNat ≤ v.toNat := above
      omega
    · rw [BitVec.toNat_sub]
      omega
  have usable_eq : usable oneMegabyte = [⟨0x100000, 0x100000, memmapUsable⟩] := by decide
  have extent (p : ℕ) : p ∈ (⟨0x100000, 0x100000, memmapUsable⟩ : MemmapEntry).extent ↔
      0x100000 ≤ p ∧ p < 0x200000 := Set.mem_Ico
  constructor
  · intro e he p inside
    rw [usable_eq, List.mem_singleton] at he
    subst he
    rw [extent] at inside
    have place : (p + higherHalf).toNat = p.toNat + 0xffff800000000000 := by
      rw [BitVec.toNat_add]
      omega
    exact direct _ (by omega) (by omega)
  · rintro v ⟨k, hk, page⟩
    have same := shift_eq_iff.1 page
    have top : (0xffff800000080000#64).toNat = 0xffff800000080000 := rfl
    rw [BitVec.toNat_sub, BitVec.toNat_ofNat] at same
    refine ⟨direct v (by omega) (by omega), fun e he inside => ?_⟩
    rw [usable_eq, List.mem_singleton] at he
    subst he
    rw [extent, BitVec.toNat_sub] at inside
    omega
  · rintro v ⟨e, he, framebuffer, -⟩
    rw [List.mem_singleton.1 he] at framebuffer
    exact absurd framebuffer (by decide)
  · intro e he framebuffer
    rw [List.mem_singleton.1 he] at framebuffer
    exact absurd framebuffer (by decide)

theorem oneMegabyte_boots : ∃ s₀ s₁,
    CleanBoot oneMegabyte higherHalf 0x1000000 0xffffffff80001fff#64 0xffff800000080000#64 s₀ s₁ := by
  have image : BootInputs oneMegabyte 0x1000000 0xffffffff80001fff#64 0xffff800000080000#64
      higherHalf := ⟨by decide, by decide, by decide, by decide, by decide, by decide⟩
  obtain ⟨s₀, started⟩ : ∃ s₀,
      (initializeMemmap 129 oneMegabyte higherHalf).run (atBoot fun _ => 0) = .ok () s₀ :=
    initializeMemmap_returns conformant_oneMegabyte (e := ⟨0x100000, 0x100000, memmapUsable⟩)
      (by decide) (by decide) (by decide) (by decide) _
  have low (a : U64) (frame : IsFrame oneMegabyte a) : a.toNat < 2 ^ 40 := by
    obtain ⟨e, he, -, top⟩ := frame.inside
    rw [show usable oneMegabyte = [⟨0x100000, 0x100000, memmapUsable⟩] by decide,
      List.mem_singleton] at he
    subst he
    have top : a.toNat + 4096 ≤ 0x100000 + 0x100000 := top
    omega
  obtain ⟨s₁, boot⟩ := exists_cleanBoot conformant_oneMegabyte ⟨_, _, started⟩ image
    layout_oneMegabyte (by decide) (by decide) low (by decide) (by decide)
  exact ⟨s₀, s₁, boot⟩

theorem oneMegabyte_unmanaged : ∃ s₀ s₁,
    CleanBoot oneMegabyte higherHalf 0x1000000 0xffffffff80001fff#64 0xffff800000080000#64 s₀ s₁ ∧
      ¬ ManagesMemory s₁ := by
  obtain ⟨s₀, s₁, boot⟩ := oneMegabyte_boots
  exact ⟨s₀, s₁, boot, not_managesMemory conformant_oneMegabyte boot⟩

/-- Mapping a page of the stack again reads a table that is not mapped. -/
theorem oneMegabyte_stack_unmapped : ∃ s₀ s₁ b acc,
    CleanBoot oneMegabyte higherHalf 0x1000000 0xffffffff80001fff#64 0xffff800000080000#64 s₀ s₁ ∧
    acc ∈ (finalState ((mapPage frameAlloc (stackCall 0xffff800000080000#64 higherHalf b)).run
      { s₁ with trace := [] })).trace ∧ ¬ Mapped s₁ acc ∧ ¬ ManagesMemory s₁ := by
  obtain ⟨s₀, s₁, boot⟩ := oneMegabyte_boots
  obtain ⟨b, acc, made, unmapped⟩ := boot.exists_unmapped conformant_oneMegabyte
  exact ⟨s₀, s₁, b, acc, boot, made, unmapped,
    fun manages => unmapped (manages s₁ .start (.mapPage _) acc made)⟩

end Bintos
