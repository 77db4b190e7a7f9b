import Bintos.Pmem.Memmap
import Bintos.Vm.Boot
import Bintos.Vm.LastCall

/-!
# The address space that `initializePaging` loads

At the moment CR3 is loaded, the kernel's pages, the stack and the page of the PML4 are mapped where
they were, and besides them only framebuffers are (`BootMapped`).  That holds as long as no call reuses
a table at or above `2 ^ 40` and exactly when the kernel does not reach into the last page of the address
space, where its loop never ends (`bootMapped_iff`).
-/

namespace Bintos

/-- The physical address that a walk yields for the address `v`. -/
def Translation.physical (t : Translation) (v : U64) : U64 :=
  (t.frame ++ v.setWidth 12).setWidth 64

/-- A page of the kernel. -/
def KernelPage (kernelEnd v : U64) : Prop :=
  kernelVma >>> 12 ≤ v >>> 12 ∧ v >>> 12 ≤ kernelEnd >>> 12

/-- One of the 16 pages that end with the page of the stack pointer. -/
def StackPage (rsp v : U64) : Prop :=
  ∃ k < 16, v >>> 12 = (rsp - BitVec.ofNat 64 (4096 * k)) >>> 12

/-- A page of the direct map with a byte of a framebuffer. -/
def FramebufferPage (r : List MemmapEntry) (hhdmoff v : U64) : Prop :=
  ∃ e ∈ r, e.type = memmapFramebuffer ∧ ∃ q : U64, e.base.toNat ≤ q.toNat ∧
    q.toNat < e.base.toNat + e.length.toNat ∧ v >>> 12 = (q + hhdmoff) >>> 12

/-- A page of the direct map that the boot maps. -/
def DirectPage (r : List MemmapEntry) (rsp hhdmoff pml4 v : U64) : Prop :=
  v >>> 12 = (pml4 + hhdmoff) >>> 12 ∨ StackPage rsp v ∨ FramebufferPage r hhdmoff v

/-- A canonical address of the direct map outside the kernel's range. -/
structure InDirectMap (hhdmoff kernelEnd v : U64) : Prop where
  canonical : Canonical v
  apart : ¬ (kernelVma ≤ v ∧ v ≤ kernelEnd)
  /-- physical addresses have 52 bits -/
  physical : (v - hhdmoff).toNat < 2 ^ 52

/-- What the boot loader promises `initialize_paging`. -/
structure BootInputs (r : List MemmapEntry) (physicalBase kernelEnd rsp hhdmoff : U64) : Prop where
  /-- more than the assertion of `initialize_memmap` admits -/
  entries : r.length < 256
  offset_aligned : PageAligned hhdmoff
  base_aligned : PageAligned physicalBase
  above : kernelVma ≤ kernelEnd
  /-- physical addresses have 52 bits -/
  image : physicalBase.toNat + (kernelEnd - kernelVma).toNat < 2 ^ 52
  stack : 16 * 4096 ≤ (rsp - hhdmoff).toNat

/-- The address space after the boot, which CR3 points to.  The kernel's pages lead to its image, the pages
of the stack and that of the PML4 to their places behind the direct map, and apart from pages of
framebuffers nothing else is mapped. -/
structure BootMapped {α : Type} (r : List MemmapEntry) (physicalBase kernelEnd rsp : U64)
    (s : Machine α) : Prop where
  cr3 : s.cr3 = some s.pml4Addr
  kernel : ∀ v : U64, kernelVma ≤ v → v ≤ kernelEnd → ∃ t, walk s.mem s.pml4Addr v = some t ∧
    t.physical v = physicalBase + (v - kernelVma) ∧ t.writable = true ∧ t.noExecute = false
  stack : ∀ v : U64, StackPage rsp v → ∃ t, walk s.mem s.pml4Addr v = some t ∧
    t.physical v = v - s.hhdmoff
  pml4 : ∀ v : U64, v >>> 12 = (s.pml4Addr + s.hhdmoff) >>> 12 →
    ∃ t, walk s.mem s.pml4Addr v = some t ∧ t.physical v = v - s.hhdmoff
  nothing_else : ∀ v : U64, Canonical v → walk s.mem s.pml4Addr v ≠ none →
    KernelPage kernelEnd v ∨ DirectPage r rsp s.hhdmoff s.pml4Addr v

/-! ### Arithmetic of pages -/

theorem shift_eq_iff {v v' : U64} : v >>> 12 = v' >>> 12 ↔ v.toNat / 4096 = v'.toNat / 4096 := by
  rw [← BitVec.toNat_inj, BitVec.toNat_ushiftRight, BitVec.toNat_ushiftRight,
    Nat.shiftRight_eq_div_pow, Nat.shiftRight_eq_div_pow]

theorem toNat_kernelVma : kernelVma.toNat = 0xffffffff80000000 := rfl

/-- Rounding down and moving by a multiple of the page size commute. -/
theorem pgRoundDown_add {d : U64} (aligned : PageAligned d) (v : U64) :
    pgRoundDown (v + d) = pgRoundDown v + d := by
  unfold PageAligned at aligned
  apply BitVec.eq_of_toNat_eq
  rw [toNat_pgRoundDown, BitVec.toNat_add, BitVec.toNat_add, toNat_pgRoundDown]
  omega

/-- The upper half of the address space is canonical. -/
theorem canonical_of_le {v : U64} (above : 2 ^ 64 - 2 ^ 47 ≤ v.toNat) : Canonical v := by
  have high (i : ℕ) (hi : 47 ≤ i) (h64 : i < 64) : v.getLsbD i = true := by
    have small : (~~~v).toNat < 2 ^ i := by
      rw [BitVec.toNat_not]
      calc 2 ^ 64 - 1 - v.toNat < 2 ^ 47 := by omega
        _ ≤ 2 ^ i := Nat.pow_le_pow_right (by decide) hi
    have clear : (~~~v).getLsbD i = false := Nat.testBit_lt_two_pow small
    simpa [h64] using clear
  apply BitVec.eq_of_getLsbD_eq
  intro i hi
  rw [BitVec.getLsbD_signExtend, BitVec.msb_eq_getLsbD_last]
  by_cases low : i < 48
  · simp [low, hi]
  · rw [if_neg low, BitVec.getLsbD_setWidth, high i (by omega) hi, decide_eq_true hi]
    exact high 47 (by decide) (by decide)

theorem canonical_of_kernelVma_le {v : U64} (above : kernelVma ≤ v) : Canonical v := by
  have above : kernelVma.toNat ≤ v.toNat := above
  have vma := toNat_kernelVma
  exact canonical_of_le (by omega)

/-- The physical address of a walk that ends at the entry of a call. -/
theorem toNat_physical {c : MapCall} (low : c.paddr.toNat < 2 ^ 52) (v : U64) :
    (c.translation.physical v).toNat = c.paddr.toNat / 4096 * 4096 + v.toNat % 4096 := by
  have frame : (Entry.frame c.paddr).toNat = c.paddr.toNat / 4096 := by
    rw [Entry.frame, BitVec.extractLsb'_toNat, Nat.shiftRight_eq_div_pow]
    omega
  have offset : (v.setWidth 12).toNat < 2 ^ 12 := (v.setWidth 12).isLt
  rw [Translation.physical, BitVec.toNat_setWidth, BitVec.toNat_append,
    ← Nat.shiftLeft_add_eq_or_of_lt offset, Nat.shiftLeft_eq, BitVec.toNat_setWidth]
  show ((Entry.frame c.paddr).toNat * 2 ^ 12 + v.toNat % 2 ^ 12) % 2 ^ 64 = _
  rw [frame]
  omega

/-! ### The calls and their pages -/

section Calls

variable {r : List MemmapEntry} {physicalBase kernelEnd rsp hhdmoff pml4 v v' : U64} {c : MapCall}

theorem DirectPage.congr (h : DirectPage r rsp hhdmoff pml4 v) (same : v >>> 12 = v' >>> 12) :
    DirectPage r rsp hhdmoff pml4 v' := by
  unfold DirectPage StackPage FramebufferPage at h ⊢
  rwa [← same]

/-- Framebuffers are in physical memory. -/
theorem framebuffer_end
    (direct : ∀ v, DirectPage r rsp hhdmoff pml4 v → InDirectMap hhdmoff kernelEnd v)
    {e : MemmapEntry} (he : e ∈ r) (framebuffer : e.type = memmapFramebuffer)
    (nonempty : 0 < e.length.toNat) : e.base.toNat + e.length.toNat ≤ 2 ^ 52 := by
  have low (q : U64) (from_base : e.base.toNat ≤ q.toNat)
      (inside : q.toNat < e.base.toNat + e.length.toNat) : q.toNat < 2 ^ 52 := by
    have page := direct (q + hhdmoff)
      (Or.inr (Or.inr ⟨e, he, framebuffer, q, from_base, inside, rfl⟩))
    simpa using page.physical
  by_contra past
  have base := low e.base le_rfl (by omega)
  have top : (0x10000000000000#64).toNat = 2 ^ 52 := rfl
  have wrong := low 0x10000000000000#64 (by omega) (by omega)
  omega

/-- The calls into the direct map map pages of the direct map to where they are. -/
theorem directCalls_spec (inputs : BootInputs r physicalBase kernelEnd rsp hhdmoff)
    (direct : ∀ v, DirectPage r rsp hhdmoff pml4 v → InDirectMap hhdmoff kernelEnd v)
    (hc : c ∈ directCalls r rsp hhdmoff pml4) :
    c.vaddr = c.paddr + hhdmoff ∧ DirectPage r rsp hhdmoff pml4 c.vaddr := by
  rcases List.mem_append.1 hc with hc | hc
  · rcases List.mem_cons.1 hc with rfl | hc
    · exact ⟨rfl, Or.inl rfl⟩
    · obtain ⟨b, hb, rfl⟩ := List.mem_map.1 hc
      obtain ⟨k, hk, rfl⟩ := mem_strides.1 hb
      have same : rsp - (0 + BitVec.ofNat 64 (4096 * k)) =
          rsp - hhdmoff - (0 + BitVec.ofNat 64 (4096 * k)) + hhdmoff := by ring
      constructor
      · show pgRoundDown _ = pgRoundDown _ + hhdmoff
        rw [same, pgRoundDown_add inputs.offset_aligned]
      · refine Or.inr (Or.inl ⟨k, hk, ?_⟩)
        show pgRoundDown _ >>> 12 = _
        rw [shift_eq_iff, toNat_pgRoundDown, zero_add]
        omega
  · obtain ⟨e, he, hc⟩ := List.mem_flatMap.1 hc
    unfold framebufferCalls at hc
    split_ifs at hc with framebuffer
    · obtain ⟨b, hb, rfl⟩ := List.mem_map.1 hc
      obtain ⟨k, hk, rfl⟩ := mem_strides.1 hb
      unfold pageCount at hk
      have bound := framebuffer_end direct he framebuffer (by omega)
      have offset : (e.base + (0 + BitVec.ofNat 64 (4096 * k))).toNat = e.base.toNat + 4096 * k := by
        rw [zero_add, BitVec.toNat_add, BitVec.toNat_ofNat]
        omega
      have place : (framebufferCall e hhdmoff (0 + BitVec.ofNat 64 (4096 * k))).vaddr =
          e.base + (0 + BitVec.ofNat 64 (4096 * k)) + hhdmoff := by
        show e.base + hhdmoff + _ = _
        ring
      refine ⟨place, Or.inr (Or.inr ⟨e, he, framebuffer,
        e.base + (0 + BitVec.ofNat 64 (4096 * k)), ?_, ?_, by rw [place]⟩)⟩
      · omega
      · omega
    · cases hc

/-- The calls for the kernel map its pages to the image. -/
theorem kernelCalls_spec (inputs : BootInputs r physicalBase kernelEnd rsp hhdmoff)
    (hc : c ∈ kernelCalls physicalBase kernelEnd) :
    ∃ k, c.vaddr.toNat = kernelVma.toNat + 4096 * k ∧ c.vaddr.toNat ≤ kernelEnd.toNat ∧
      c.paddr.toNat = physicalBase.toNat + 4096 * k ∧ c.paddr.toNat < 2 ^ 52 ∧
      c.writable = true ∧ c.noExecute = false := by
  obtain ⟨b, hb, rfl⟩ := List.mem_map.1 hc
  obtain ⟨k, hk, rfl⟩ := mem_strides.1 hb
  unfold kernelPages at hk
  have distance := BitVec.toNat_sub_of_le inputs.above
  have image := inputs.image
  have above : kernelVma.toNat ≤ kernelEnd.toNat := inputs.above
  have top := kernelEnd.isLt
  have vma := toNat_kernelVma
  have vaddr : (kernelVma + (0 + BitVec.ofNat 64 (4096 * k))).toNat =
      kernelVma.toNat + 4096 * k := by
    rw [zero_add, BitVec.toNat_add, BitVec.toNat_ofNat]
    omega
  have paddr : (physicalBase + (0 + BitVec.ofNat 64 (4096 * k))).toNat =
      physicalBase.toNat + 4096 * k := by
    rw [zero_add, BitVec.toNat_add, BitVec.toNat_ofNat]
    omega
  refine ⟨k, vaddr, ?_, paddr, ?_, rfl, rfl⟩
  · exact vaddr.trans_le (by omega)
  · exact paddr.trans_lt (by omega)

theorem canonical_bootCalls (inputs : BootInputs r physicalBase kernelEnd rsp hhdmoff)
    (direct : ∀ v, DirectPage r rsp hhdmoff pml4 v → InDirectMap hhdmoff kernelEnd v)
    (hc : c ∈ bootCalls r physicalBase kernelEnd rsp hhdmoff pml4) : Canonical c.vaddr := by
  rcases List.mem_append.1 hc with hc | hc
  · exact (direct _ (directCalls_spec inputs direct hc).2).canonical
  · obtain ⟨k, vaddr, -⟩ := kernelCalls_spec inputs hc
    exact canonical_of_kernelVma_le (by rw [BitVec.le_def]; omega)

theorem lastCall_isSome {calls : List MapCall} (hc : c ∈ calls) (same : c.vaddr >>> 12 = v >>> 12) :
    ∃ c', lastCall calls v = some c' := by
  rw [← Option.isSome_iff_exists, lastCall, List.find?_isSome]
  exact ⟨c, List.mem_reverse.2 hc, decide_eq_true same⟩

/-- The last call for a page of the direct map is one into the direct map. -/
theorem last_of_directPage (inputs : BootInputs r physicalBase kernelEnd rsp hhdmoff)
    (direct : ∀ v, DirectPage r rsp hhdmoff pml4 v → InDirectMap hhdmoff kernelEnd v)
    (page : DirectPage r rsp hhdmoff pml4 v)
    (last : lastCall (bootCalls r physicalBase kernelEnd rsp hhdmoff pml4) v = some c) :
    c ∈ directCalls r rsp hhdmoff pml4 := by
  obtain ⟨hc, same⟩ := lastCall_mem last
  rcases List.mem_append.1 hc with hc | hc
  · exact hc
  · obtain ⟨k, vaddr, top, -⟩ := kernelCalls_spec inputs hc
    refine absurd ⟨?_, ?_⟩ (direct _ (page.congr same.symm)).apart
    · rw [BitVec.le_def]
      omega
    · exact top

/-- The last call for a page of the kernel is one of the kernel's loop. -/
theorem last_of_kernel (inputs : BootInputs r physicalBase kernelEnd rsp hhdmoff)
    (direct : ∀ v, DirectPage r rsp hhdmoff pml4 v → InDirectMap hhdmoff kernelEnd v)
    (above : kernelVma ≤ v) (below : v ≤ kernelEnd)
    (last : lastCall (bootCalls r physicalBase kernelEnd rsp hhdmoff pml4) v = some c) :
    c ∈ kernelCalls physicalBase kernelEnd := by
  obtain ⟨hc, same⟩ := lastCall_mem last
  rcases List.mem_append.1 hc with hc | hc
  · have page := (directCalls_spec inputs direct hc).2.congr same
    exact absurd ⟨above, below⟩ (direct v page).apart
  · exact hc

/-- A page of the direct map that some call maps is translated to where it is. -/
theorem physical_of_directPage (inputs : BootInputs r physicalBase kernelEnd rsp hhdmoff)
    (direct : ∀ v, DirectPage r rsp hhdmoff pml4 v → InDirectMap hhdmoff kernelEnd v)
    (page : DirectPage r rsp hhdmoff pml4 v)
    (last : lastCall (bootCalls r physicalBase kernelEnd rsp hhdmoff pml4) v = some c) :
    c.translation.physical v = v - hhdmoff := by
  obtain ⟨place, there⟩ :=
    directCalls_spec inputs direct (last_of_directPage inputs direct page last)
  have same := shift_eq_iff.1 (lastCall_mem last).2
  have low : c.paddr.toNat < 2 ^ 52 := by
    have := (direct _ there).physical
    rwa [place, show c.paddr + hhdmoff - hhdmoff = c.paddr by ring] at this
  have aligned := inputs.offset_aligned
  unfold PageAligned at aligned
  apply BitVec.eq_of_toNat_eq
  rw [toNat_physical low]
  have sum := congrArg BitVec.toNat place
  rw [BitVec.toNat_add] at sum
  rw [BitVec.toNat_sub]
  omega

/-- A page of the kernel is translated to the image. -/
theorem physical_of_kernel (inputs : BootInputs r physicalBase kernelEnd rsp hhdmoff)
    (hc : c ∈ kernelCalls physicalBase kernelEnd) (above : kernelVma ≤ v)
    (same : c.vaddr >>> 12 = v >>> 12) :
    c.translation.physical v = physicalBase + (v - kernelVma) := by
  obtain ⟨k, vaddr, -, paddr, low, -⟩ := kernelCalls_spec inputs hc
  have same := shift_eq_iff.1 same
  have aligned := inputs.base_aligned
  unfold PageAligned at aligned
  have vma := toNat_kernelVma
  have distance := BitVec.toNat_sub_of_le above
  have above : kernelVma.toNat ≤ v.toNat := above
  apply BitVec.eq_of_toNat_eq
  rw [toNat_physical low, BitVec.toNat_add, distance]
  omega

/-- Every page of the kernel has its call. -/
theorem exists_kernelCall (physicalBase : U64) (above : kernelVma ≤ v) (below : v ≤ kernelEnd) :
    ∃ c ∈ kernelCalls physicalBase kernelEnd, c.vaddr >>> 12 = v >>> 12 := by
  have vma := toNat_kernelVma
  have distance := BitVec.toNat_sub_of_le (BitVec.le_trans above below)
  have above : kernelVma.toNat ≤ v.toNat := above
  have below : v.toNat ≤ kernelEnd.toNat := below
  have top := kernelEnd.isLt
  refine ⟨_, List.mem_map_of_mem (mem_strides.2 ⟨(v.toNat - kernelVma.toNat) / 4096, ?_, rfl⟩), ?_⟩
  · unfold kernelPages
    omega
  · show (kernelVma + _) >>> 12 = _
    rw [shift_eq_iff, zero_add, BitVec.toNat_add, BitVec.toNat_ofNat]
    omega

theorem exists_stackCall (hhdmoff : U64) (page : StackPage rsp v) :
    ∃ c ∈ stackCalls rsp hhdmoff, c.vaddr >>> 12 = v >>> 12 := by
  obtain ⟨k, hk, same⟩ := page
  refine ⟨_, List.mem_map_of_mem (mem_strides.2 ⟨k, hk, rfl⟩), ?_⟩
  show pgRoundDown _ >>> 12 = _
  rw [same, shift_eq_iff, toNat_pgRoundDown, zero_add]
  omega

end Calls

/-! ### The boot -/

section Boot

variable {α : Type} {r : List MemmapEntry} {physicalBase kernelEnd rsp : U64} {s' : Machine α}

/-- The calls make the promised address space. -/
theorem bootMapped_of_walks
    (inputs : BootInputs r physicalBase kernelEnd rsp s'.hhdmoff)
    (direct : ∀ v, DirectPage r rsp s'.hhdmoff s'.pml4Addr v →
      InDirectMap s'.hhdmoff kernelEnd v)
    (walks : ∀ v, walk s'.mem s'.pml4Addr v =
      (lastCallFor (bootCalls r physicalBase kernelEnd rsp s'.hhdmoff s'.pml4Addr) (pageKey v)).map
        MapCall.translation)
    (loaded : s'.cr3 = some s'.pml4Addr) : BootMapped r physicalBase kernelEnd rsp s' := by
  have walks (v : U64) (hv : Canonical v) : walk s'.mem s'.pml4Addr v =
      (lastCall (bootCalls r physicalBase kernelEnd rsp s'.hhdmoff s'.pml4Addr) v).map
        MapCall.translation := by
    rw [walks v, lastCallFor_pageKey (fun c hc => canonical_bootCalls inputs direct hc) hv]
  have mapped (v : U64) (page : DirectPage r rsp s'.hhdmoff s'.pml4Addr v) {c : MapCall}
      (hc : c ∈ directCalls r rsp s'.hhdmoff s'.pml4Addr) (same : c.vaddr >>> 12 = v >>> 12) :
      ∃ t, walk s'.mem s'.pml4Addr v = some t ∧ t.physical v = v - s'.hhdmoff := by
    have hc : c ∈ bootCalls r physicalBase kernelEnd rsp s'.hhdmoff s'.pml4Addr :=
      List.mem_append_left _ hc
    obtain ⟨c', last⟩ := lastCall_isSome hc same
    refine ⟨c'.translation, ?_, physical_of_directPage inputs direct page last⟩
    rw [walks v (direct v page).canonical, last, Option.map_some]
  refine ⟨loaded, ?_, ?_, ?_, ?_⟩
  · intro v above below
    obtain ⟨c, hc, same⟩ := exists_kernelCall physicalBase above below
    have hc : c ∈ bootCalls r physicalBase kernelEnd rsp s'.hhdmoff s'.pml4Addr :=
      List.mem_append_right _ hc
    obtain ⟨c', last⟩ := lastCall_isSome hc same
    have kernel := last_of_kernel inputs direct above below last
    obtain ⟨-, -, -, -, -, writable, executable⟩ := kernelCalls_spec inputs kernel
    refine ⟨c'.translation, ?_, physical_of_kernel inputs kernel above (lastCall_mem last).2,
      writable, executable⟩
    rw [walks v (canonical_of_kernelVma_le above), last, Option.map_some]
  · intro v page
    obtain ⟨c, hc, same⟩ := exists_stackCall s'.hhdmoff page
    exact mapped v (Or.inr (Or.inl page))
      (List.mem_append_left _ (List.mem_cons_of_mem _ hc)) same
  · intro v page
    exact mapped v (Or.inl page) (List.mem_append_left _ List.mem_cons_self) page.symm
  · intro v hv present
    rw [walks v hv] at present
    obtain ⟨t, here⟩ := Option.ne_none_iff_exists'.1 present
    obtain ⟨c, last, -⟩ := Option.map_eq_some_iff.1 here
    obtain ⟨hc, same⟩ := lastCall_mem last
    rcases List.mem_append.1 hc with hc | hc
    · exact Or.inr ((directCalls_spec inputs direct hc).2.congr same)
    · left
      obtain ⟨k, vaddr, top, -⟩ := kernelCalls_spec inputs hc
      rw [KernelPage, ← same]
      constructor <;>
      · rw [BitVec.le_def, BitVec.toNat_ushiftRight, BitVec.toNat_ushiftRight]
        simp only [Nat.shiftRight_eq_div_pow]
        exact Nat.div_le_div_right (by omega)

variable {frameAlloc : Bool → Kern α U64} {s : Machine α}

/-- What the boot leaves behind. -/
structure Boots (source : FrameSource frameAlloc) (r : List MemmapEntry)
    (physicalBase kernelEnd rsp : U64) (s : Machine α) (taken : List U64) (s' : Machine α) : Prop where
  inv : source.Inv taken s'
  tables : TableTree taken s'
  hhdmoff : s'.hhdmoff = s.hhdmoff
  mapped : BootMapped r physicalBase kernelEnd rsp s'
  shared : SharedLow (bootCalls r physicalBase kernelEnd rsp s'.hhdmoff s'.pml4Addr) s'
  walks : ∀ v, walk s'.mem s'.pml4Addr v =
    (lastCallFor (bootCalls r physicalBase kernelEnd rsp s'.hhdmoff s'.pml4Addr) (pageKey v)).map
      MapCall.translation
  root : ∃ t, (frameAlloc true).run s = .ok s'.pml4Addr t

/-- The boot makes the calls and loads CR3, unless the allocator stops. -/
theorem initializePaging_cases (source : FrameSource frameAlloc) (fresh : source.Inv [] s)
    (inputs : BootInputs r physicalBase kernelEnd rsp s.hhdmoff)
    (direct : ∀ a t, (frameAlloc true).run s = .ok a t → ∀ v,
      DirectPage r rsp s.hhdmoff a v → InDirectMap s.hhdmoff kernelEnd v)
    (below : kernelEnd < 0xfffffffffffff000#64)
    (low : ∀ a t, (frameAlloc true).run s = .ok a t →
      LowRun frameAlloc { t with pml4Addr := a }
        (bootCalls r physicalBase kernelEnd rsp s.hhdmoff a))
    {fuel : ℕ} (enough : bootFuel r kernelEnd ≤ fuel) :
    (∃ taken s', (initializePaging frameAlloc fuel r physicalBase kernelEnd rsp).run s = .ok () s' ∧
      Boots source r physicalBase kernelEnd rsp s taken s') ∨
    source.Stops (1 + 3 * bootSize r kernelEnd)
      ((initializePaging frameAlloc fuel r physicalBase kernelEnd rsp).run s) := by
  cases root : (frameAlloc true).run s with
  | error e t =>
    refine Or.inr ⟨[], s, e, t, Nat.zero_le _, fresh, root, ?_⟩
    rw [initializePaging, EStateM.run_bind, root]
  | ok a t =>
    have direct := direct a t root
    have low := low a t root
    obtain ⟨grants, inv⟩ := source.grant fresh root
    have sizes : ∀ e ∈ r, e.type = memmapFramebuffer → e.length.toNat ≤ 2 ^ 64 - 4096 := by
      intro e he framebuffer
      by_cases nonempty : 0 < e.length.toNat
      · have := framebuffer_end direct he framebuffer nonempty
        omega
      · omega
    have start : ZeroedPml4 source { t with pml4Addr := a } :=
      ⟨source.write inv rfl rfl fun _ _ => rfl, grants.aligned, grants.zeroed⟩
    rw [run_initializePaging fresh root inputs.entries sizes inputs.above below low enough]
    rcases start.mapPages_cases low with ⟨taken, s', run, inv', after, walks⟩ | stops
    · have offset : s'.hhdmoff = s.hhdmoff := after.hhdmoff.trans grants.hhdmoff
      have pml4 : s'.pml4Addr = a := after.pml4Addr
      have shared := low.sharedLow source start.inv
        (tableTree_of_zeroed start.aligned start.zeroed).1 run
      rw [run]
      rw [← offset, ← pml4] at direct walks shared
      rw [← offset] at inputs
      exact Or.inl ⟨taken, { s' with cr3 := some s'.pml4Addr }, rfl,
        source.write inv' rfl rfl fun _ _ => rfl,
        ⟨after.tables.tree, after.tables.owned, after.tables.aligned, after.tables.entries⟩, offset,
        bootMapped_of_walks inputs direct walks rfl, shared, walks, t, by rw [root, pml4]⟩
    · obtain ⟨e, t', run, failed⟩ := stops.exists_error
      rw [length_bootCalls] at failed
      rw [run]
      exact Or.inr (failed Unit)

end Boot

/-! ### Boots from a pool -/

theorem nodup_strides {n : ℕ} (bound : n ≤ 2 ^ 52) (start : U64) : (strides n start).Nodup := by
  induction n generalizing start with
  | zero => exact List.nodup_nil
  | succ n ih =>
    rw [strides, List.nodup_cons]
    refine ⟨fun again => ?_, ih (by omega) _⟩
    obtain ⟨k, hk, same⟩ := mem_strides.1 again
    have same := congrArg BitVec.toNat same
    unfold frameAllocationSize at same
    rw [BitVec.toNat_add, BitVec.toNat_add, BitVec.toNat_ofNat] at same
    have start := start.isLt
    have size : (4096 : U64).toNat = 4096 := rfl
    omega

/-- Zeroed memory and a pool of the `n` frames from `0x1000` on. -/
def bootStart (n : ℕ) : Machine (List U64) where
  mem := fun _ => 0
  hhdmoff := 0xffff800000000000#64
  pml4Addr := 0
  cr3 := none
  trace := []
  alloc := strides n 0x1000

theorem frame_of_pool {n : ℕ} (bound : n < 2 ^ 28) {a : U64} (ha : a ∈ strides n 0x1000) :
    PageAligned a ∧ a.toNat < 2 ^ 40 := by
  obtain ⟨k, hk, rfl⟩ := mem_strides.1 ha
  have start : (0x1000 : U64).toNat = 4096 := rfl
  unfold PageAligned
  rw [BitVec.toNat_add, BitVec.toNat_ofNat, start]
  constructor <;> omega

theorem supply_bootStart {n : ℕ} (bound : n < 2 ^ 28) :
    Supply (strides n 0x1000) [] (bootStart n) := by
  refine ⟨fun a ha => ?_, nodup_strides (by omega) _, fun b hb => absurd hb List.not_mem_nil, rfl⟩
  obtain ⟨aligned, low⟩ := frame_of_pool bound ha
  exact ⟨aligned, low.trans (by decide), List.not_mem_nil⟩

/-- The first frame is the PML4, and no frame of the pool is at or above `2 ^ 40`. -/
theorem bootStart_first {n : ℕ} (bound : n < 2 ^ 28) {a : U64} {t : Machine (List U64)}
    (root : (popFrame true).run (bootStart n) = .ok a t) :
    a = 0x1000 ∧ ∀ calls, LowRun popFrame { t with pml4Addr := a } calls := by
  obtain ⟨grants, supply⟩ := (supply_bootStart bound).grant root
  have start : ZeroedPml4 (popSource (strides n 0x1000)) { t with pml4Addr := a } :=
    ⟨(popSource _).write supply rfl rfl fun _ _ => rfl, grants.aligned, grants.zeroed⟩
  constructor
  · have order := supply.order
    cases n with
    | zero => simp [strides] at order
    | succ n => exact (List.cons.inj order).1
  · intro calls
    refine lowRun_of_frames (popSource (strides n 0x1000)) start.inv
      (tableTree_of_zeroed start.aligned start.zeroed).1 fun taken t supply b hb => ?_
    have supply : Supply (strides n 0x1000) taken t := supply
    have pooled : b ∈ strides n 0x1000 := by
      rw [← supply.order]
      exact List.mem_append_left _ (List.mem_reverse.2 hb)
    exact (frame_of_pool bound pooled).2

/-- The stack is at 1 MiB of physical memory and the image at 2 MiB. -/
theorem bootInputs_bootStart {r : List MemmapEntry} (short : r.length < 256) {kernelEnd : U64}
    (above : kernelVma ≤ kernelEnd) :
    BootInputs r 0x200000 kernelEnd 0xffff800000100000 0xffff800000000000#64 where
  entries := short
  offset_aligned := by decide
  base_aligned := by decide
  above := above
  image := by
    have distance := BitVec.toNat_sub_of_le above
    have vma := toNat_kernelVma
    have top := kernelEnd.isLt
    have base : (0x200000 : U64).toNat = 0x200000 := rfl
    omega
  stack := by decide

/-- The first 4 GiB of the direct map. -/
theorem inDirectMap_of_place (kernelEnd : U64) {v : U64} (above : 0xffff800000000000 ≤ v.toNat)
    (below : v.toNat < 0xffff800100000000) : InDirectMap 0xffff800000000000#64 kernelEnd v := by
  have vma := toNat_kernelVma
  refine ⟨canonical_of_le (by omega), ?_, ?_⟩
  · rintro ⟨kernel, -⟩
    have kernel : kernelVma.toNat ≤ v.toNat := kernel
    omega
  · have offset : (0xffff800000000000#64).toNat = 0xffff800000000000 := by decide
    rw [BitVec.toNat_sub]
    omega

/-- With framebuffers below 4 GiB the boot stays in this part. -/
theorem inDirectMap_bootStart {r : List MemmapEntry} (low : ∀ e ∈ r,
    e.base.toNat + e.length.toNat ≤ 2 ^ 32) (kernelEnd v : U64)
    (page : DirectPage r 0xffff800000100000 0xffff800000000000#64 0x1000 v) :
    InDirectMap 0xffff800000000000#64 kernelEnd v := by
  rcases page with pml4 | ⟨k, hk, stack⟩ | ⟨e, he, -, q, -, inside, framebuffer⟩
  · have same := shift_eq_iff.1 pml4
    have first : (0x1000 + 0xffff800000000000#64 : U64).toNat = 0xffff800000001000 := by decide
    exact inDirectMap_of_place _ (by omega) (by omega)
  · have same := shift_eq_iff.1 stack
    have top : (0xffff800000100000 : U64).toNat = 0xffff800000100000 := by decide
    rw [BitVec.toNat_sub, BitVec.toNat_ofNat] at same
    exact inDirectMap_of_place _ (by omega) (by omega)
  · have same := shift_eq_iff.1 framebuffer
    have bound := low e he
    have offset : (0xffff800000000000#64).toNat = 0xffff800000000000 := by decide
    rw [BitVec.toNat_add] at same
    exact inDirectMap_of_place _ (by omega) (by omega)

/-! ### The address space -/

section Space

variable {α : Type} {frameAlloc : Bool → Kern α U64} {s : Machine α} {r : List MemmapEntry}
  {physicalBase kernelEnd rsp : U64}

/-- **The address space after the boot.**  As long as no call reuses a table at or above `2 ^ 40`, the
boot loads CR3 with the promised address space exactly when the kernel ends below the last page of the
address space. -/
theorem bootMapped_iff (source : FrameSource frameAlloc) (fresh : source.Inv [] s)
    (supplies : source.Supplies (1 + 3 * bootFuel r kernelEnd))
    (inputs : BootInputs r physicalBase kernelEnd rsp s.hhdmoff)
    (direct : ∀ a t, (frameAlloc true).run s = .ok a t → ∀ v,
      DirectPage r rsp s.hhdmoff a v → InDirectMap s.hhdmoff kernelEnd v)
    (low : ∀ a t, (frameAlloc true).run s = .ok a t →
      LowRun frameAlloc { t with pml4Addr := a }
        (bootCalls r physicalBase kernelEnd rsp s.hhdmoff a)) :
    (∀ fuel, bootFuel r kernelEnd ≤ fuel → ∃ s',
      (initializePaging frameAlloc fuel r physicalBase kernelEnd rsp).run s = .ok () s' ∧
        s'.hhdmoff = s.hhdmoff ∧ BootMapped r physicalBase kernelEnd rsp s') ↔
      kernelEnd < 0xfffffffffffff000#64 := by
  constructor
  · intro loads
    obtain ⟨s', returns, -⟩ := loads (bootFuel r kernelEnd) le_rfl
    by_contra last
    exact initializePaging_not_returns (BitVec.not_lt.1 last) _ _ _ _ _ _ returns
  · intro below fuel enough
    rcases initializePaging_cases source fresh inputs direct below low enough with
      ⟨taken, s', returns, boots⟩ | stops
    · exact ⟨s', returns, boots.hhdmoff, boots.mapped⟩
    · have fewer := bootSize_le r kernelEnd
      exact absurd (stops.mono (by omega)) supplies.not_stops

end Space

/-- A kernel of two pages boots from a pool of 100 frames. -/
theorem twoPages_boots : ∃ s',
    (initializePaging popFrame (bootFuel [] 0xffffffff80001fff#64) [] 0x200000
      0xffffffff80001fff#64 0xffff800000100000).run (bootStart 100) = .ok () s' ∧
      s'.hhdmoff = (bootStart 100).hhdmoff ∧
    BootMapped [] 0x200000 0xffffffff80001fff#64 0xffff800000100000 s' := by
  have bound : 100 < 2 ^ 28 := by decide
  refine (bootMapped_iff (popSource (strides 100 0x1000)) (supply_bootStart bound) ?_
    (bootInputs_bootStart (by decide) (by decide)) ?_ ?_).2 (by decide) _ le_rfl
  · refine popSource_supplies ?_
    rw [length_strides]
    decide
  · intro a t root v page
    rw [(bootStart_first bound root).1] at page
    exact inDirectMap_bootStart (by simp) _ v page
  · exact fun a t root => (bootStart_first bound root).2 _

/-- A kernel that ends on the last page of the address space never loads CR3, although the pool has a
frame for each of the `2 ^ 27 + 2 ^ 18 + 2 ^ 9 + 1` tables that there can be. -/
theorem lastPage_never_loads :
    (popSource (strides (2 ^ 28 - 1) 0x1000)).Inv [] (bootStart (2 ^ 28 - 1)) ∧
    BootInputs [] 0x200000 0xfffffffffffff000#64 0xffff800000100000
      (bootStart (2 ^ 28 - 1)).hhdmoff ∧
    (∀ a t, (popFrame true).run (bootStart (2 ^ 28 - 1)) = .ok a t → ∀ v,
      DirectPage [] 0xffff800000100000 (bootStart (2 ^ 28 - 1)).hhdmoff a v →
        InDirectMap (bootStart (2 ^ 28 - 1)).hhdmoff 0xfffffffffffff000#64 v) ∧
    ∀ fuel s', (initializePaging popFrame fuel [] 0x200000 0xfffffffffffff000#64
      0xffff800000100000).run (bootStart (2 ^ 28 - 1)) ≠ .ok () s' := by
  have bound : 2 ^ 28 - 1 < 2 ^ 28 := by decide
  generalize 2 ^ 28 - 1 = n at bound ⊢
  refine ⟨supply_bootStart bound, bootInputs_bootStart (by decide) (by decide), fun a t root v page => ?_,
    fun fuel s' => initializePaging_not_returns (by decide) popFrame fuel [] _ _ s'⟩
  rw [(bootStart_first bound root).1] at page
  exact inDirectMap_bootStart (by simp) _ v page

end Bintos
