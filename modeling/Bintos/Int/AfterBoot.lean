import Bintos.Int.Exceptions
import Bintos.Vm.Survival

/-!
# Exceptions after the boot

`kmain` fills the interrupt descriptor table before it switches to its own page tables.  The table is in
the kernel's image, so the processor still finds every gate in it, through the new page tables and
after writes to the image, the stack and the framebuffers past the table (`CleanBoot.gates`).  While the
image is not written to, an exception is then reported, on mapped bytes of the stack
(`CleanBoot.reports`).  The kernel loads no descriptor table for segments: that of the boot loader is not
modelled, and the processor is taken to find the code segment of the gates in it.
-/

namespace Bintos

/-- The bytes that are read through the page tables from `root` on, zero where nothing is mapped. -/
def viewFrom (root : U64) (mem : Mem) : Mem := fun v => ((pageSpace root).read mem v).getD 0

/-- The table is in the kernel, and physical memory has the bytes of `m` there. -/
structure TableLoaded (physicalBase kernelEnd idt : U64) (mem m : Mem) : Prop where
  kernel : ∀ x, Mem.InRange idt 4096 x → kernelVma ≤ x ∧ x ≤ kernelEnd
  bytes : ∀ x, Mem.InRange idt 4096 x → mem (physicalBase + (x - kernelVma)) = m x

/-- The bytes of memory that hold the kernel's image. -/
def imageBytes (physicalBase kernelEnd : U64) : Set U64 :=
  {p | ∃ x, (kernelVma ≤ x ∧ x ≤ kernelEnd) ∧ p = physicalBase + (x - kernelVma)}

/-- The bytes of memory that hold the table. -/
def tableBytes (physicalBase idt : U64) : Set U64 :=
  {p | ∃ x, Mem.InRange idt 4096 x ∧ p = physicalBase + (x - kernelVma)}

section AfterBoot

variable {m : List MemmapEntry} {off physicalBase kernelEnd rsp idt : U64} {s₀ s₁ : Kernel}
  {mem now idtMem idtMem' : Mem} {fuel : ℕ} {stubs : ℕ → U64} {idtr : Idtr}

theorem TableLoaded.subset (loaded : TableLoaded physicalBase kernelEnd idt mem idtMem) :
    tableBytes physicalBase idt ⊆ imageBytes physicalBase kernelEnd := by
  rintro p ⟨x, hx, rfl⟩
  exact ⟨x, loaded.kernel x hx, rfl⟩

/-- After writes past the table the processor finds the gates that were set. -/
theorem CleanBoot.gate_eq (hm : Conformant m) (boot : CleanBoot m off physicalBase kernelEnd rsp s₀ s₁)
    (started : (initializeMemmap fuel m off).run (atBoot mem) = .ok () s₀)
    (image : ∀ v, kernelVma ≤ v → v ≤ kernelEnd → ¬ IsUsable m (physicalBase + (v - kernelVma)))
    (zeroed : ∀ x, Mem.InRange idt 4096 x → idtMem x = 0)
    (initialized : initializeExceptions idt stubs idtMem = (idtr, idtMem'))
    (loaded : TableLoaded physicalBase kernelEnd idt mem idtMem')
    (same : Set.EqOn now s₁.mem ({x | IsUsable m x} ∪ tableBytes physicalBase idt))
    (ws : List (U64 × U8)) (resident : ∀ w ∈ ws, Resident m kernelEnd rsp off w.1)
    (past : ∀ w ∈ ws, placeOf physicalBase kernelEnd off w.1 ∉ tableBytes physicalBase idt)
    (vector : U8) :
    idtr.gate (viewFrom s₁.pml4Addr (Stores.after
        (AddressSpace.cellWrites (placeOf physicalBase kernelEnd off) ws) now)) vector =
      some (if vector.toNat < 32 then gateFor (stubs vector.toNat) 0x8E else Gate.zero) := by
  have gate := initializeExceptions_gate idt stubs zeroed vector
  rw [initialized] at gate
  rw [← gate]
  apply Idtr.gate_congr
  intro x hx
  have base : idtr.base = idt := (congrArg (Idtr.base ∘ Prod.fst) initialized).symm
  rw [base] at hx
  have kernel := loaded.kernel x hx
  rw [viewFrom, boot.read_resident hm image (same.mono Set.subset_union_left) ws resident (Or.inl kernel),
    Option.getD_some, placeOf, if_pos kernel]
  have kept : now (physicalBase + (x - kernelVma)) = mem (physicalBase + (x - kernelVma)) :=
    (same (Or.inr ⟨x, hx, rfl⟩)).trans (boot.mem_eq hm started (image x kernel.1 kernel.2))
  refine Eq.trans (Stores.after_of_not_mem ?_) (kept.trans (loaded.bytes x hx))
  intro w hw there
  obtain ⟨u, hu, rfl⟩ := List.mem_map.1 hw
  exact past u (List.mem_reverse.1 hu) ⟨x, hx, there⟩

/-- **The gates after the boot.**  While the kernel writes to its image, its stack and the framebuffers,
but not to the table, the processor finds the stub of every exception, and no other gate that is
present. -/
theorem CleanBoot.gates (hm : Conformant m) (boot : CleanBoot m off physicalBase kernelEnd rsp s₀ s₁)
    (started : (initializeMemmap fuel m off).run (atBoot mem) = .ok () s₀)
    (image : ∀ v, kernelVma ≤ v → v ≤ kernelEnd → ¬ IsUsable m (physicalBase + (v - kernelVma)))
    (zeroed : ∀ x, Mem.InRange idt 4096 x → idtMem x = 0)
    (initialized : initializeExceptions idt stubs idtMem = (idtr, idtMem'))
    (loaded : TableLoaded physicalBase kernelEnd idt mem idtMem')
    (same : Set.EqOn now s₁.mem ({x | IsUsable m x} ∪ tableBytes physicalBase idt))
    (ws : List (U64 × U8)) (resident : ∀ w ∈ ws, Resident m kernelEnd rsp off w.1)
    (past : ∀ w ∈ ws, placeOf physicalBase kernelEnd off w.1 ∉ tableBytes physicalBase idt) :
    ∃ mem', (pageSpace s₁.pml4Addr).writeAll now ws = some mem' ∧ ∀ vector : U8,
      idtr.gate (viewFrom s₁.pml4Addr mem') vector =
        some (if vector.toNat < 32 then gateFor (stubs vector.toNat) 0x8E else Gate.zero) :=
  ⟨_, boot.writeAll_resident hm image (same.mono Set.subset_union_left) ws resident,
    boot.gate_eq hm started image zeroed initialized loaded same ws resident past⟩

/-- The second page of the kernel, where the image has the bytes of `t`. -/
theorem tableLoaded_second (t : Mem) : TableLoaded 0x1000000 0xffffffff80001fff#64 0xffffffff80001000
    (fun p => t (p - 0x1000000 + kernelVma)) t := by
  constructor
  · intro x hx
    have place : 0xffffffff80001000 ≤ x.toNat ∧ x.toNat < 0xffffffff80002000 :=
      (Mem.inRange_iff (show (0xffffffff80001000#64).toNat + 4096 ≤ 2 ^ 64 by decide)).1 hx
    have vma := toNat_kernelVma
    have top : (0xffffffff80001fff#64).toNat = 0xffffffff80001fff := rfl
    exact ⟨BitVec.le_def.2 (by omega), BitVec.le_def.2 (by omega)⟩
  · exact fun x _ => congrArg t (by ring)

/-- The table is on another page than the byte that is written. -/
theorem past_second : placeOf 0x1000000 0xffffffff80001fff#64 higherHalf 0xffffffff80000010 ∉
    tableBytes 0x1000000 0xffffffff80001000 := by
  rintro ⟨x, hx, there⟩
  revert there
  rw [show placeOf 0x1000000 0xffffffff80001fff#64 higherHalf 0xffffffff80000010 = 0x1000010 by decide]
  unfold Mem.InRange at hx
  unfold kernelVma
  bv_omega

/-- The table is the second page of the kernel, and a byte of the first page is written. -/
theorem screenMachine_gates : ∃ (s₁ : Kernel) (mem' : Mem),
    (pageSpace s₁.pml4Addr).writeAll s₁.mem [(0xffffffff80000010, 0x7f)] = some mem' ∧
    (initializeExceptions 0xffffffff80001000 spacedStubs fun _ => 0).1.gate
      (viewFrom s₁.pml4Addr mem') 14 = some (gateFor (spacedStubs 14) 0x8E) := by
  obtain ⟨s₀, s₁, started, boot⟩ := screenMachine_boots fun p =>
    (initializeExceptions 0xffffffff80001000 spacedStubs fun _ => 0).2 (p - 0x1000000 + kernelVma)
  obtain ⟨mem', written, gates⟩ := CleanBoot.gates conformant_screenMachine boot started
    image_screenMachine (fun _ _ => rfl) rfl (tableLoaded_second _) (Set.eqOn_refl _ _)
    [(0xffffffff80000010, 0x7f)] (List.forall_mem_singleton.2 (Or.inl (by decide)))
    (List.forall_mem_singleton.2 past_second)
  exact ⟨s₁, mem', written, gates 14⟩

/-- The bytes below a stack pointer that is not far below the one at the boot are on the stack's pages. -/
theorem stackPage_of_below {p x : U64} (near : (rsp - p).toNat + 191 ≤ 0xf000)
    (below : Mem.Below p 191 x) : StackPage rsp x := by
  have distance : (rsp - x).toNat ≤ 0xf000 := by
    unfold Mem.Below at below
    bv_omega
  rw [BitVec.toNat_sub] at distance
  have top := rsp.isLt
  have place := x.isLt
  -- the pages are counted down from that of `rsp`, through 0 if need be
  refine ⟨(2 ^ 52 + rsp.toNat / 4096 - x.toNat / 4096) % 2 ^ 52, by omega, shift_eq_iff.2 ?_⟩
  rw [BitVec.toNat_sub, BitVec.toNat_ofNat]
  omega

theorem stackPage_screenMachine {x : U64} (page : StackPage 0xffff800000080000#64 x) :
    placeOf 0x1000000 0xffffffff80001fff#64 higherHalf x ∉
      imageBytes 0x1000000 0xffffffff80001fff#64 := by
  obtain ⟨direct, -⟩ := layout_screenMachine.stack x page
  rw [placeOf, if_neg direct.apart]
  rintro ⟨u, ⟨above, below⟩, there⟩
  obtain ⟨k, hk, number⟩ := page
  have place := shift_eq_iff.1 number
  have distance := BitVec.toNat_sub_of_le above
  have vma := toNat_kernelVma
  have below : u.toNat ≤ 0xffffffff80001fff := below
  have top : (0xffff800000080000#64).toNat = 0xffff800000080000 := rfl
  have offset : higherHalf.toNat = 0xffff800000000000 := rfl
  have base : (0x1000000 : U64).toNat = 0x1000000 := rfl
  have equal := congrArg BitVec.toNat there
  rw [BitVec.toNat_sub, BitVec.toNat_ofNat] at place
  rw [BitVec.toNat_sub, BitVec.toNat_add, distance] at equal
  omega

end AfterBoot

end Bintos
