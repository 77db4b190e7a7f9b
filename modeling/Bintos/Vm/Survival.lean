import Bintos.Lib.AddressSpace
import Bintos.Vm.AfterBoot
import Bintos.Vm.Framebuffer

/-!
# What the boot keeps

`initialize_memmap` and `initialize_paging` write to usable memory only (`CleanBoot.spares`), and so the
pages of the kernel, of its stack and of the framebuffers are as they were.  The kernel's variables and
its stack are kept beside memory here, so that memory outside usable memory may be another one by the
end.  Whatever it is then, through the address space that is loaded the kernel can write to its own
pages, its stack and the framebuffers, and reads there what they hold (`CleanBoot.sees`).
-/

namespace Bintos

/-- The address is in usable memory. -/
def IsUsable (m : List MemmapEntry) (x : U64) : Prop := ∃ e ∈ usable m, x.toNat ∈ e.extent

/-- Outside usable memory nothing has changed since `mem`. -/
def Spares {α : Type} (m : List MemmapEntry) (mem : Mem) (s : Machine α) : Prop :=
  ∀ x, ¬ IsUsable m x → s.mem x = mem x

/-! ### The allocator -/

section Allocator

variable {m : List MemmapEntry} {off a x : U64} {n : ℕ} {taken : List U64} {s s' : Kernel} {mem : Mem}

theorem IsFrame.isUsable (hm : Conformant m) (frame : IsFrame m a) (inside : Mem.InRange a 4096 x) :
    IsUsable m x := by
  rw [inRange_page (frame.aligned hm)] at inside
  obtain ⟨e, he, bottom, top⟩ := frame.inside
  exact ⟨e, he, Set.mem_Ico.2 (by omega)⟩

theorem Started.isUsable_bitmap (hm : Conformant m) (started : Started m off s)
    (inside : Mem.InRange (s.v2p s.alloc.frameMap) (bitmapBytes m) x) : IsUsable m x := by
  obtain ⟨e, home, map⟩ := started.frameMap
  obtain ⟨he, fits⟩ := home_mem home
  have place : s.v2p s.alloc.frameMap = e.base := by
    rw [map, Machine.v2p, started.hhdmoff, BitVec.add_sub_cancel]
  have room : bitmapBytes m ≤ e.length.toNat := fits
  have bound := hm.fits e he
  rw [place, Mem.inRange_iff (by omega)] at inside
  exact ⟨e, he, Set.mem_Ico.2 (by omega)⟩

/-- A call of the allocator writes to usable memory. -/
theorem Handed.still_spares (hm : Conformant m) (two : 2 ≤ frames m) (distinct : DistinctAnswers m n)
    (handed : Handed m off taken s) (returns : (budgetAlloc n true).run s = .ok a s')
    (spares : Spares m mem s) : Spares m mem s' := by
  rw [run_budgetAlloc] at returns
  split_ifs at returns with spent
  obtain ⟨frame, fresh⟩ := handed.fresh hm two distinct (not_le.1 spent)
    (handed.ready.step hm returns).1
  have nibble := handed.inside_bitmap hm two frame fresh
  have more := handed.more hm two
  intro x outside
  rcases handed.ready.frameAlloc_cases hm true with ⟨past, -⟩ | ⟨-, call⟩ | ⟨edge, -⟩
  · omega
  · cases ends : walkTable (regions m) s.alloc.index with
    | none => simp [call, ends] at returns
    | some p =>
      simp only [call, ends, EStateM.Result.ok.injEq] at returns
      obtain ⟨rfl, rfl⟩ := returns
      have unmarked : (markTaken s).mem x = s.mem x := by
        apply Mem.write_of_ne
        rintro rfl
        exact outside (handed.ready.isUsable_bitmap hm (inRange_flagByte nibble))
      rw [← spares x outside, ← unmarked]
      exact Mem.fill_of_not_inRange _ _ (by decide) fun inside => outside (frame.isUsable hm inside)
  · omega

/-- The kernel's allocator, as a source that writes to usable memory only. -/
def sparingSource (hm : Conformant m) (two : 2 ≤ frames m) (off : U64)
    (physical : ∀ b, IsFrame m b → b.toNat < 2 ^ 52) (distinct : DistinctAnswers m n) (mem : Mem) :
    FrameSource (budgetAlloc n) where
  Inv taken s := Handed m off taken s ∧ Spares m mem s
  grant inv returns :=
    have granted := inv.1.grant hm two physical distinct returns
    ⟨granted.1, granted.2, inv.1.still_spares hm two distinct returns inv.2⟩
  write inv statics offset same :=
    ⟨inv.1.write hm statics offset same, fun x outside => (same x fun b hb inside =>
      outside ((inv.1.isFrame b hb).isUsable hm inside)).trans (inv.2 x outside)⟩

end Allocator

/-! ### The boot in usable memory -/

section Boot

variable {m : List MemmapEntry} {off physicalBase kernelEnd rsp v : U64} {s₀ s₁ : Kernel} {mem : Mem}
  {fuel : ℕ}

/-- Start-up writes the bitmap only. -/
theorem spares_initializeMemmap (hm : Conformant m)
    (started : (initializeMemmap fuel m off).run (atBoot mem) = .ok () s₀) : Spares m mem s₀ := by
  intro x outside
  obtain ⟨ready, -, bytes⟩ := initializeMemmap_spec hm started
  rw [bytes, if_neg fun inside => outside (ready.isUsable_bitmap hm inside)]

/-- The boot is one from the sparing source. -/
theorem CleanBoot.boots_sparing (hm : Conformant m)
    (boot : CleanBoot m off physicalBase kernelEnd rsp s₀ s₁)
    (started : (initializeMemmap fuel m off).run (atBoot mem) = .ok () s₀) :
    ∃ taken, Boots (sparingSource hm boot.two off (fun _ => boot.layout.physical) boot.distinct mem) m
      physicalBase kernelEnd rsp s₀ taken s₁ :=
  boot.boots_from hm _ ⟨handed_nil hm started, spares_initializeMemmap hm started⟩ fun _ _ inv => inv.1

theorem CleanBoot.mem_eq (hm : Conformant m)
    (boot : CleanBoot m off physicalBase kernelEnd rsp s₀ s₁)
    (started : (initializeMemmap fuel m off).run (atBoot mem) = .ok () s₀) {x : U64}
    (outside : ¬ IsUsable m x) : s₁.mem x = mem x := by
  obtain ⟨taken, boots⟩ := boot.boots_sparing hm started
  exact boots.inv.2 x outside

/-- **Memory safety of the boot.**  `initialize_memmap` and `initialize_paging` change no byte outside
usable memory. -/
theorem CleanBoot.spares (hm : Conformant m)
    (boot : CleanBoot m off physicalBase kernelEnd rsp s₀ s₁)
    (started : (initializeMemmap fuel m off).run (atBoot mem) = .ok () s₀) : Spares m mem s₁ :=
  fun _ outside => boot.mem_eq hm started outside

end Boot

/-! ### Through the page tables -/

/-- The address space of the tables from `root` on. -/
def pageSpace (root : U64) : AddressSpace U64 U64 U8 where
  readable mem v := (walk mem root v).map (·.physical v)
  writable mem v := ((walk mem root v).filter (·.writable)).map (·.physical v)

/-- Where the boot loader has an address of the kernel or of the direct map. -/
def placeOf (physicalBase kernelEnd off v : U64) : U64 :=
  if kernelVma ≤ v ∧ v ≤ kernelEnd then physicalBase + (v - kernelVma) else v - off

/-- An address of the kernel, of its stack or on a page of a framebuffer that a loop reaches. -/
def Resident (m : List MemmapEntry) (kernelEnd rsp off v : U64) : Prop :=
  (kernelVma ≤ v ∧ v ≤ kernelEnd) ∨ StackPage rsp v ∨
    ∃ e ∈ m, e.type = memmapFramebuffer ∧ ∃ k < pageCount e.length,
      (e.base + off + BitVec.ofNat 64 (4096 * k)) >>> 12 = v >>> 12

section Tables

variable {α : Type} {taken : List U64} {s : Machine α} {mem : Mem}

/-- The bytes of the frames. -/
def frameBytes (taken : List U64) : Set U64 := {x | ∃ b ∈ taken, Mem.InRange b 4096 x}

theorem TableTree.walk_congr (tables : TableTree taken s)
    (same : ∀ x ∈ frameBytes taken, mem x = s.mem x) (v : U64) :
    walk mem s.pml4Addr v = walk s.mem s.pml4Addr v := by
  have words {p : List (BitVec 9)} {table : U64} (short : p.length ≤ 3)
      (here : tableAt s p = some table) (i : BitVec 9) : word mem table i = word s.mem table i := by
    have owned := tables.owned short here
    exact word_congr (tables.aligned table owned) (fun x hx => same x ⟨table, owned, hx⟩) i
  obtain ⟨tables', places⟩ := @TableTree.congr α taken s { s with mem } tables rfl
    fun q table short here j => words short.le here j
  have full : (path v).length ≤ 3 := (rfl : (path v).length = 3).le
  have reads : walk mem s.pml4Addr v = _ := walk_eq tables' v
  rw [reads, walk_eq tables v, pteAt_eq, pteAt_eq, places (path v) full]
  cases here : tableAt s (path v) with
  | none => simp only [Option.map_none]
  | some table =>
    simp only [Option.map_some, Option.getD_some]
    rw [words full here]

/-- The address space rests on the frames of its tables. -/
theorem TableTree.restsOn (tables : TableTree taken s) :
    (pageSpace s.pml4Addr).RestsOn s.mem (frameBytes taken) := by
  intro mem same
  constructor <;>
  · funext v
    simp only [pageSpace, tables.walk_congr same]

end Tables

section Resident

variable {m : List MemmapEntry} {off physicalBase kernelEnd rsp v : U64} {s₀ s₁ : Kernel} {now : Mem}

/-- Usable memory consists of whole pages. -/
theorem not_isUsable_of_page (hm : Conformant m) {x y : U64} (outside : ¬ IsUsable m x)
    (page : y.toNat / 4096 = x.toNat / 4096) : ¬ IsUsable m y := by
  rintro ⟨e, he, inside⟩
  have aligned := hm.aligned e he
  rw [MemmapEntry.extent, Set.mem_Ico] at inside
  exact outside ⟨e, he, Set.mem_Ico.2 (by omega)⟩

/-- What the boot maps in the direct map is there. -/
theorem CleanBoot.direct (hm : Conformant m)
    (boot : CleanBoot m off physicalBase kernelEnd rsp s₀ s₁) :
    ∀ v, DirectPage m rsp off s₁.pml4Addr v → InDirectMap off kernelEnd v := by
  obtain ⟨taken, boots⟩ := boot.boots hm
  have handed : Handed m off taken s₁ := boots.inv
  have root := boots.tables.owned (p := []) (by decide) rfl
  exact fun v => boot.layout.direct hm boot.inputs (handed.isFrame _ root)

theorem CleanBoot.hhdmoff (hm : Conformant m)
    (boot : CleanBoot m off physicalBase kernelEnd rsp s₀ s₁) : s₁.hhdmoff = off := by
  obtain ⟨taken, boots⟩ := boot.boots hm
  have handed : Handed m off taken s₁ := boots.inv
  exact handed.ready.hhdmoff

/-- A resident address is mapped writable, to its place. -/
theorem CleanBoot.walk_resident (hm : Conformant m)
    (boot : CleanBoot m off physicalBase kernelEnd rsp s₀ s₁)
    (resident : Resident m kernelEnd rsp off v) :
    ∃ t, walk s₁.mem s₁.pml4Addr v = some t ∧
      t.physical v = placeOf physicalBase kernelEnd off v ∧ t.writable = true := by
  obtain ⟨taken, boots⟩ := boot.boots hm
  have offset := boot.hhdmoff hm
  have direct := boot.direct hm
  by_cases kernel : kernelVma ≤ v ∧ v ≤ kernelEnd
  · obtain ⟨t, here, place, writable, -⟩ := boots.mapped.kernel v kernel.1 kernel.2
    exact ⟨t, here, by rw [place, placeOf, if_pos kernel], writable⟩
  · obtain ⟨c, hc, same⟩ := exists_directCall_iff.2 (Or.inr (resident.resolve_left kernel))
    have page := (directCalls_spec boot.inputs direct hc).2.congr same
    have walked := boots.walk_iff (offset ▸ boot.inputs) (offset ▸ direct) (offset ▸ page)
    rw [offset] at walked
    obtain ⟨t, here, place, writable, -⟩ := walked.2 ⟨c, hc, same⟩
    exact ⟨t, here, by rw [place, placeOf, if_neg kernel], writable⟩

/-- The place of a resident address is not in usable memory. -/
theorem CleanBoot.not_isUsable (hm : Conformant m)
    (boot : CleanBoot m off physicalBase kernelEnd rsp s₀ s₁)
    (image : ∀ v, kernelVma ≤ v → v ≤ kernelEnd → ¬ IsUsable m (physicalBase + (v - kernelVma)))
    (resident : Resident m kernelEnd rsp off v) :
    ¬ IsUsable m (placeOf physicalBase kernelEnd off v) := by
  rw [placeOf]
  split_ifs with kernel
  · exact image v kernel.1 kernel.2
  rcases resident.resolve_left kernel with stack | ⟨e, he, framebuffer, k, hk, page⟩
  · rintro ⟨e, he, inside⟩
    exact (boot.layout.stack v stack).2 e he inside
  · unfold pageCount at hk
    have bound := framebuffer_end (boot.direct hm) he framebuffer (by omega)
    have aligned := boot.inputs.offset_aligned
    unfold PageAligned at aligned
    have place : (e.base + BitVec.ofNat 64 (4096 * k)).toNat = e.base.toNat + 4096 * k := by
      rw [BitVec.toNat_add, BitVec.toNat_ofNat]
      omega
    have same := shift_eq_iff.1 page
    rw [show e.base + off + BitVec.ofNat 64 (4096 * k) = e.base + BitVec.ofNat 64 (4096 * k) + off by
      ring, BitVec.toNat_add, place] at same
    apply not_isUsable_of_page hm (x := e.base + BitVec.ofNat 64 (4096 * k))
    · rintro ⟨e', he', inside⟩
      refine Set.disjoint_left.1 (boot.layout.apart e he framebuffer e' he') ?_ inside
      rw [MemmapEntry.extent, Set.mem_Ico, place]
      omega
    · rw [place, BitVec.toNat_sub]
      omega

section Later

variable (hm : Conformant m) (boot : CleanBoot m off physicalBase kernelEnd rsp s₀ s₁)
  (image : ∀ v, kernelVma ≤ v → v ≤ kernelEnd → ¬ IsUsable m (physicalBase + (v - kernelVma)))
  (same : Set.EqOn now s₁.mem {x | IsUsable m x})
include hm boot image same

/-- The address space rests on frames that have no place of a resident address. -/
theorem CleanBoot.exists_restsOn :
    ∃ tables, (pageSpace s₁.pml4Addr).RestsOn now tables ∧ ∀ v, Resident m kernelEnd rsp off v →
      (pageSpace s₁.pml4Addr).readable now v = some (placeOf physicalBase kernelEnd off v) ∧
      (pageSpace s₁.pml4Addr).writable now v = some (placeOf physicalBase kernelEnd off v) ∧
        placeOf physicalBase kernelEnd off v ∉ tables := by
  obtain ⟨taken, boots⟩ := boot.boots hm
  have handed : Handed m off taken s₁ := boots.inv
  have rests := boots.tables.restsOn
  have usable : ∀ x ∈ frameBytes taken, IsUsable m x := by
    rintro x ⟨b, hb, inside⟩
    exact (handed.isFrame b hb).isUsable hm inside
  have agrees : ∀ x ∈ frameBytes taken, now x = s₁.mem x := fun x hx => same (usable x hx)
  obtain ⟨readable, writable⟩ := rests now agrees
  refine ⟨frameBytes taken, rests.congr agrees, fun v resident => ?_⟩
  obtain ⟨t, here, place, write⟩ := boot.walk_resident hm resident
  rw [readable, writable, ← place]
  refine ⟨by simp [pageSpace, here], by simp [pageSpace, here, write], fun inside => ?_⟩
  rw [place] at inside
  exact boot.not_isUsable hm image resident (usable _ inside)

variable (ws : List (U64 × U8)) (resident : ∀ w ∈ ws, Resident m kernelEnd rsp off w.1)
include resident

/-- Writes to resident addresses go to their places. -/
theorem CleanBoot.writeAll_resident :
    (pageSpace s₁.pml4Addr).writeAll now ws = some (Stores.after
      (AddressSpace.cellWrites (placeOf physicalBase kernelEnd off) ws) now) := by
  obtain ⟨tables, rests, apart⟩ := boot.exists_restsOn hm image same
  exact (rests.writeAll fun w hw => (apart w.1 (resident w hw)).2).1

/-- After such writes the resident addresses are still writable. -/
theorem CleanBoot.writable_resident (there : Resident m kernelEnd rsp off v) :
    (pageSpace s₁.pml4Addr).writable (Stores.after
      (AddressSpace.cellWrites (placeOf physicalBase kernelEnd off) ws) now) v =
        some (placeOf physicalBase kernelEnd off v) := by
  obtain ⟨tables, rests, apart⟩ := boot.exists_restsOn hm image same
  rw [rests.writable_writeAll fun w hw => (apart w.1 (resident w hw)).2]
  exact (apart v there).2.1

/-- What is read at a resident address after writes to resident addresses. -/
theorem CleanBoot.read_resident (there : Resident m kernelEnd rsp off v) :
    (pageSpace s₁.pml4Addr).read (Stores.after
        (AddressSpace.cellWrites (placeOf physicalBase kernelEnd off) ws) now) v =
      some (Stores.after (AddressSpace.cellWrites (placeOf physicalBase kernelEnd off) ws) now
        (placeOf physicalBase kernelEnd off v)) := by
  obtain ⟨tables, rests, apart⟩ := boot.exists_restsOn hm image same
  rw [rests.read_writeAll fun w hw => (apart w.1 (resident w hw)).2, (apart v there).1]
  rfl

end Later

end Resident

/-! ### A boot with a framebuffer -/

/-- 256 usable pages from 1 MiB on and a framebuffer of two pages. -/
def screenMachine : List MemmapEntry :=
  [⟨0x100000, 0x100000, memmapUsable⟩, ⟨0xfd000000, 0x2000, memmapFramebuffer⟩]

theorem conformant_screenMachine : Conformant screenMachine := by
  constructor <;> simp [usable, screenMachine, memmapUsable, memmapFramebuffer]

theorem usable_screenMachine : usable screenMachine = [⟨0x100000, 0x100000, memmapUsable⟩] := by
  decide

theorem isUsable_screenMachine {x : U64} (h : IsUsable screenMachine x) :
    0x100000 ≤ x.toNat ∧ x.toNat < 0x200000 := by
  obtain ⟨e, he, inside⟩ := h
  rw [usable_screenMachine, List.mem_singleton] at he
  subst he
  exact Set.mem_Ico.1 inside

theorem framebuffer_screenMachine {e : MemmapEntry} (he : e ∈ screenMachine)
    (framebuffer : e.type = memmapFramebuffer) : e = ⟨0xfd000000, 0x2000, memmapFramebuffer⟩ := by
  rcases List.mem_cons.1 he with rfl | he
  · exact absurd framebuffer (by decide)
  · exact List.mem_singleton.1 he

/-- The stack is below usable memory. -/
theorem layout_screenMachine :
    Layout screenMachine 0xffffffff80001fff#64 0xffff800000080000#64 higherHalf := by
  have offset : higherHalf.toNat = 0xffff800000000000 := rfl
  have direct (v : U64) := @inDirectMap_of_place 0xffffffff80001fff#64 v
  constructor
  · intro e he p inside
    have place := isUsable_screenMachine ⟨e, he, inside⟩
    have sum : (p + higherHalf).toNat = p.toNat + 0xffff800000000000 := by
      rw [BitVec.toNat_add]
      omega
    exact direct _ (by omega) (by omega)
  · rintro v ⟨k, hk, page⟩
    have same := shift_eq_iff.1 page
    have top : (0xffff800000080000#64).toNat = 0xffff800000080000 := rfl
    rw [BitVec.toNat_sub, BitVec.toNat_ofNat] at same
    refine ⟨direct v (by omega) (by omega), fun e he inside => ?_⟩
    have place := isUsable_screenMachine ⟨e, he, inside⟩
    rw [BitVec.toNat_sub] at place
    omega
  · rintro v ⟨e, he, framebuffer, q, low, high, page⟩
    rw [framebuffer_screenMachine he framebuffer] at low high
    have low : 0xfd000000 ≤ q.toNat := low
    have high : q.toNat < 0xfd002000 := high
    have same := shift_eq_iff.1 page
    rw [BitVec.toNat_add] at same
    exact direct v (by omega) (by omega)
  · intro e he framebuffer e' he'
    rw [framebuffer_screenMachine he framebuffer, Set.disjoint_left]
    intro x here there
    rw [usable_screenMachine, List.mem_singleton] at he'
    subst he'
    have low : 0xfd000000 ≤ x := (Set.mem_Ico.1 here).1
    have high : x < 0x200000 := (Set.mem_Ico.1 there).2
    omega

theorem bootInputs_screenMachine : BootInputs screenMachine 0x1000000 0xffffffff80001fff#64
    0xffff800000080000#64 higherHalf :=
  ⟨by decide, by decide, by decide, by decide, by decide, by decide⟩

theorem low_screenMachine {a : U64} (frame : IsFrame screenMachine a) : a.toNat < 2 ^ 40 := by
  have inside : Mem.InRange a 4096 a := by
    rw [Mem.InRange, BitVec.sub_self]
    decide
  have place := isUsable_screenMachine (frame.isUsable conformant_screenMachine inside)
  omega

theorem screenMachine_boots (mem : Mem) : ∃ s₀ s₁,
    (initializeMemmap 129 screenMachine higherHalf).run (atBoot mem) = .ok () s₀ ∧
    CleanBoot screenMachine higherHalf 0x1000000 0xffffffff80001fff#64 0xffff800000080000#64 s₀ s₁ := by
  obtain ⟨s₀, started⟩ : ∃ s₀,
      (initializeMemmap 129 screenMachine higherHalf).run (atBoot mem) = .ok () s₀ :=
    initializeMemmap_returns conformant_screenMachine (e := ⟨0x100000, 0x100000, memmapUsable⟩)
      (by decide) (by decide) (by decide) (by decide) _
  obtain ⟨s₁, boot⟩ := exists_cleanBoot conformant_screenMachine ⟨_, _, started⟩
    bootInputs_screenMachine layout_screenMachine (by decide) (by decide)
    (fun _ frame => low_screenMachine frame) (by decide) (by decide)
  exact ⟨s₀, s₁, started, boot⟩

theorem image_screenMachine (v : U64) (above : kernelVma ≤ v) (below : v ≤ 0xffffffff80001fff#64) :
    ¬ IsUsable screenMachine (0x1000000 + (v - kernelVma)) := by
  intro usable
  have place := isUsable_screenMachine usable
  have distance := BitVec.toNat_sub_of_le above
  have vma := toNat_kernelVma
  have below : v.toNat ≤ 0xffffffff80001fff := below
  have base : (0x1000000 : U64).toNat = 0x1000000 := rfl
  rw [BitVec.toNat_add, distance] at place
  omega

theorem screenMachine_spares : ∃ s₀ s₁,
    CleanBoot screenMachine higherHalf 0x1000000 0xffffffff80001fff#64 0xffff800000080000#64 s₀ s₁ ∧
      Spares screenMachine (fun _ => 0x5a) s₁ := by
  obtain ⟨s₀, s₁, started, boot⟩ := screenMachine_boots fun _ => 0x5a
  exact ⟨s₀, s₁, boot, boot.spares conformant_screenMachine started⟩

end Bintos
