import Bintos.Vm.BootMap

/-!
# The framebuffers after the boot

The loop over a framebuffer counts bytes from the base of the entry, and `map_page` works on pages.  A
framebuffer whose base is not aligned can reach into one page more than the loop has rounds, and that
page is mapped only if some other call maps it (`framebuffersMapped_iff`).  No other page is missed.
-/

namespace Bintos

/-- Every byte of every framebuffer is mapped into the direct map, writable and not executable. -/
def FramebuffersMapped {α : Type} (r : List MemmapEntry) (s : Machine α) : Prop :=
  ∀ e ∈ r, e.type = memmapFramebuffer → ∀ p : U64, e.base.toNat ≤ p.toNat →
    p.toNat < e.base.toNat + e.length.toNat →
      ∃ t, walk s.mem s.pml4Addr (p + s.hhdmoff) = some t ∧ t.physical (p + s.hhdmoff) = p ∧
        t.writable = true ∧ t.noExecute = true

/-- The last byte of a framebuffer is on the page of the PML4, on a page of the stack or on a page that
is a multiple of 4096 bytes behind the base of a framebuffer and inside its length. -/
def LastPageReached (r : List MemmapEntry) (rsp hhdmoff pml4 : U64) (e : MemmapEntry) : Prop :=
  let last := e.base + e.length - 1 + hhdmoff
  last >>> 12 = (pml4 + hhdmoff) >>> 12 ∨ StackPage rsp last ∨
    ∃ e' ∈ r, e'.type = memmapFramebuffer ∧ ∃ k < pageCount e'.length,
      (e'.base + hhdmoff + BitVec.ofNat 64 (4096 * k)) >>> 12 = last >>> 12

section Calls

variable {r : List MemmapEntry} {physicalBase kernelEnd rsp hhdmoff pml4 v : U64} {e : MemmapEntry}
  {c : MapCall}

/-- All calls into the direct map ask for writable pages without code. -/
theorem flags_of_directCalls (hc : c ∈ directCalls r rsp hhdmoff pml4) :
    c.writable = true ∧ c.noExecute = true := by
  rcases List.mem_append.1 hc with hc | hc
  · rcases List.mem_cons.1 hc with rfl | hc
    · exact ⟨rfl, rfl⟩
    · obtain ⟨b, -, rfl⟩ := List.mem_map.1 hc
      exact ⟨rfl, rfl⟩
  · obtain ⟨e, -, hc⟩ := List.mem_flatMap.1 hc
    unfold framebufferCalls at hc
    split_ifs at hc
    · obtain ⟨b, -, rfl⟩ := List.mem_map.1 hc
      exact ⟨rfl, rfl⟩
    · cases hc

/-- The pages that the calls into the direct map map. -/
theorem exists_directCall_iff :
    (∃ c ∈ directCalls r rsp hhdmoff pml4, c.vaddr >>> 12 = v >>> 12) ↔
      v >>> 12 = (pml4 + hhdmoff) >>> 12 ∨ StackPage rsp v ∨
        ∃ e ∈ r, e.type = memmapFramebuffer ∧ ∃ k < pageCount e.length,
          (e.base + hhdmoff + BitVec.ofNat 64 (4096 * k)) >>> 12 = v >>> 12 := by
  constructor
  · rintro ⟨c, hc, same⟩
    rcases List.mem_append.1 hc with hc | hc
    · rcases List.mem_cons.1 hc with rfl | hc
      · exact Or.inl same.symm
      · obtain ⟨b, hb, rfl⟩ := List.mem_map.1 hc
        obtain ⟨k, hk, rfl⟩ := mem_strides.1 hb
        refine Or.inr (Or.inl ⟨k, hk, ?_⟩)
        have same : pgRoundDown (rsp - (0 + BitVec.ofNat 64 (4096 * k))) >>> 12 = v >>> 12 := same
        rw [← same, shift_eq_iff, toNat_pgRoundDown, zero_add]
        omega
    · obtain ⟨e, he, hc⟩ := List.mem_flatMap.1 hc
      unfold framebufferCalls at hc
      split_ifs at hc with framebuffer
      · obtain ⟨b, hb, rfl⟩ := List.mem_map.1 hc
        obtain ⟨k, hk, rfl⟩ := mem_strides.1 hb
        refine Or.inr (Or.inr ⟨e, he, framebuffer, k, hk, ?_⟩)
        rw [zero_add] at same
        exact same
      · cases hc
  · rintro (page | stack | ⟨e, he, framebuffer, k, hk, same⟩)
    · exact ⟨_, List.mem_append_left _ List.mem_cons_self, page.symm⟩
    · obtain ⟨c, hc, same⟩ := exists_stackCall hhdmoff stack
      exact ⟨c, List.mem_append_left _ (List.mem_cons_of_mem _ hc), same⟩
    · refine ⟨framebufferCall e hhdmoff (0 + BitVec.ofNat 64 (4096 * k)),
        List.mem_append_right _ (List.mem_flatMap.2 ⟨e, he, ?_⟩), ?_⟩
      · unfold framebufferCalls
        rw [if_pos framebuffer]
        exact List.mem_map_of_mem (mem_strides.2 ⟨k, hk, rfl⟩)
      · rw [← same, zero_add]
        rfl

/-- Every byte of a framebuffer is on a page of a round of its loop or on the page of the last byte. -/
theorem page_of_framebuffer (aligned : PageAligned hhdmoff)
    (physical : e.base.toNat + e.length.toNat ≤ 2 ^ 52) {p : U64} (above : e.base.toNat ≤ p.toNat)
    (below : p.toNat < e.base.toNat + e.length.toNat) :
    (∃ k < pageCount e.length,
      (e.base + hhdmoff + BitVec.ofNat 64 (4096 * k)) >>> 12 = (p + hhdmoff) >>> 12) ∨
    (p + hhdmoff) >>> 12 = (e.base + e.length - 1 + hhdmoff) >>> 12 := by
  have last : (e.base + e.length - 1).toNat = e.base.toNat + e.length.toNat - 1 := by bv_omega
  have page (q q' : U64) (same : q.toNat / 4096 = q'.toNat / 4096) :
      (q + hhdmoff) >>> 12 = (q' + hhdmoff) >>> 12 := by
    unfold PageAligned at aligned
    rw [shift_eq_iff, BitVec.toNat_add, BitVec.toNat_add]
    omega
  by_cases round : p.toNat / 4096 - e.base.toNat / 4096 < pageCount e.length
  · left
    refine ⟨_, round, ?_⟩
    unfold pageCount at round
    have place : e.base + hhdmoff +
        BitVec.ofNat 64 (4096 * (p.toNat / 4096 - e.base.toNat / 4096)) =
        e.base + BitVec.ofNat 64 (4096 * (p.toNat / 4096 - e.base.toNat / 4096)) + hhdmoff := by ring
    rw [place]
    apply page
    rw [BitVec.toNat_add, BitVec.toNat_ofNat]
    omega
  · right
    unfold pageCount at round
    apply page
    omega

/-- The last page is reached when the loop's last round is on it. -/
theorem lastPageReached_of_offset (aligned : PageAligned hhdmoff) (he : e ∈ r)
    (framebuffer : e.type = memmapFramebuffer) (nonempty : 0 < e.length.toNat)
    (physical : e.base.toNat + e.length.toNat ≤ 2 ^ 52)
    (offset : e.base.toNat % 4096 + (e.length.toNat - 1) % 4096 < 4096) :
    LastPageReached r rsp hhdmoff pml4 e := by
  unfold PageAligned at aligned
  refine Or.inr (Or.inr ⟨e, he, framebuffer, (e.length.toNat - 1) / 4096, ?_, ?_⟩)
  · unfold pageCount
    omega
  · have last : (e.base + e.length - 1).toNat = e.base.toNat + e.length.toNat - 1 := by bv_omega
    have place : e.base + hhdmoff + BitVec.ofNat 64 (4096 * ((e.length.toNat - 1) / 4096)) =
        e.base + BitVec.ofNat 64 (4096 * ((e.length.toNat - 1) / 4096)) + hhdmoff := by ring
    have base : (e.base + BitVec.ofNat 64 (4096 * ((e.length.toNat - 1) / 4096))).toNat =
        e.base.toNat + 4096 * ((e.length.toNat - 1) / 4096) := by
      rw [BitVec.toNat_add, BitVec.toNat_ofNat]
      omega
    rw [place, shift_eq_iff, BitVec.toNat_add, base, BitVec.toNat_add, last]
    omega

end Calls

section Boot

variable {α : Type} {frameAlloc : Bool → Kern α U64} {source : FrameSource frameAlloc}
  {r : List MemmapEntry} {physicalBase kernelEnd rsp a v : U64} {taken : List U64}
  {s s' t : Machine α}

/-- A page of the direct map is mapped as promised exactly when some call is for it. -/
theorem Boots.walk_iff (boots : Boots source r physicalBase kernelEnd rsp s taken s')
    (inputs : BootInputs r physicalBase kernelEnd rsp s'.hhdmoff)
    (direct : ∀ v, DirectPage r rsp s'.hhdmoff s'.pml4Addr v →
      InDirectMap s'.hhdmoff kernelEnd v)
    (page : DirectPage r rsp s'.hhdmoff s'.pml4Addr v) :
    (∃ t, walk s'.mem s'.pml4Addr v = some t ∧ t.physical v = v - s'.hhdmoff ∧
      t.writable = true ∧ t.noExecute = true) ↔
    ∃ c ∈ directCalls r rsp s'.hhdmoff s'.pml4Addr, c.vaddr >>> 12 = v >>> 12 := by
  have walks : walk s'.mem s'.pml4Addr v =
      (lastCall (bootCalls r physicalBase kernelEnd rsp s'.hhdmoff s'.pml4Addr) v).map
        MapCall.translation := by
    rw [boots.walks v, lastCallFor_pageKey (fun c hc => canonical_bootCalls inputs direct hc)
      (direct v page).canonical]
  constructor
  · rintro ⟨t, here, -⟩
    rw [walks, Option.map_eq_some_iff] at here
    obtain ⟨c, last, -⟩ := here
    exact ⟨c, last_of_directPage inputs direct page last, (lastCall_mem last).2⟩
  · rintro ⟨c, hc, same⟩
    have made : c ∈ bootCalls r physicalBase kernelEnd rsp s'.hhdmoff s'.pml4Addr :=
      List.mem_append_left _ hc
    obtain ⟨c', last⟩ := lastCall_isSome made same
    have flags := flags_of_directCalls (last_of_directPage inputs direct page last)
    refine ⟨c'.translation, ?_, physical_of_directPage inputs direct page last, flags⟩
    rw [walks, last, Option.map_some]

/-- Of the pages of the framebuffers, only the last ones may be missed. -/
theorem Boots.framebuffers_iff (boots : Boots source r physicalBase kernelEnd rsp s taken s')
    (inputs : BootInputs r physicalBase kernelEnd rsp s'.hhdmoff)
    (direct : ∀ v, DirectPage r rsp s'.hhdmoff s'.pml4Addr v →
      InDirectMap s'.hhdmoff kernelEnd v) :
    FramebuffersMapped r s' ↔ ∀ e ∈ r, e.type = memmapFramebuffer → 0 < e.length.toNat →
      LastPageReached r rsp s'.hhdmoff s'.pml4Addr e := by
  have byte (p : U64) : p + s'.hhdmoff - s'.hhdmoff = p := by ring
  have page {e : MemmapEntry} (he : e ∈ r) (framebuffer : e.type = memmapFramebuffer) {p : U64}
      (above : e.base.toNat ≤ p.toNat) (inside : p.toNat < e.base.toNat + e.length.toNat) :
      DirectPage r rsp s'.hhdmoff s'.pml4Addr (p + s'.hhdmoff) :=
    Or.inr (Or.inr ⟨e, he, framebuffer, p, above, inside, rfl⟩)
  constructor
  · intro mapped e he framebuffer nonempty
    have physical := framebuffer_end direct he framebuffer nonempty
    have last : (e.base + e.length - 1).toNat = e.base.toNat + e.length.toNat - 1 := by bv_omega
    have above : e.base.toNat ≤ (e.base + e.length - 1).toNat := by omega
    have inside : (e.base + e.length - 1).toNat < e.base.toNat + e.length.toNat := by omega
    have walked := mapped e he framebuffer _ above inside
    refine exists_directCall_iff.1 ((boots.walk_iff inputs direct
      (page he framebuffer above inside)).1 ?_)
    rwa [byte]
  · intro reached e he framebuffer p above inside
    have physical := framebuffer_end direct he framebuffer (by omega)
    have walked := boots.walk_iff inputs direct (page he framebuffer above inside)
    rw [byte] at walked
    refine walked.2 (exists_directCall_iff.2 ?_)
    rcases page_of_framebuffer inputs.offset_aligned physical above inside with round | last
    · exact Or.inr (Or.inr ⟨e, he, framebuffer, round⟩)
    · unfold StackPage
      rw [last]
      exact reached e he framebuffer (by omega)

/-- **The framebuffers.**  The boot loads CR3 with all bytes of the framebuffers mapped exactly when the
last page of every framebuffer is reached by some loop.  As in the other results about the boot, no
call reuses a table at or above `2 ^ 40`. -/
theorem framebuffersMapped_iff (source : FrameSource frameAlloc) (fresh : source.Inv [] s)
    (supplies : source.Supplies (1 + 3 * bootSize r kernelEnd))
    (inputs : BootInputs r physicalBase kernelEnd rsp s.hhdmoff)
    (root : (frameAlloc true).run s = .ok a t)
    (direct : ∀ v, DirectPage r rsp s.hhdmoff a v → InDirectMap s.hhdmoff kernelEnd v)
    (below : kernelEnd < 0xfffffffffffff000#64)
    (low : LowRun frameAlloc { t with pml4Addr := a }
      (bootCalls r physicalBase kernelEnd rsp s.hhdmoff a))
    {fuel : ℕ} (enough : bootFuel r kernelEnd ≤ fuel) :
    ∃ s', (initializePaging frameAlloc fuel r physicalBase kernelEnd rsp).run s = .ok () s' ∧
      (FramebuffersMapped r s' ↔ ∀ e ∈ r, e.type = memmapFramebuffer → 0 < e.length.toNat →
        LastPageReached r rsp s.hhdmoff a e) := by
  have first {a' : U64} {t' : Machine α} (root' : (frameAlloc true).run s = .ok a' t') :
      a' = a ∧ t' = t := by
    rw [root] at root'
    cases root'
    exact ⟨rfl, rfl⟩
  rcases initializePaging_cases source fresh inputs
    (fun a' t' root' => (first root').1 ▸ direct) below
    (fun a' t' root' => by rw [(first root').1, (first root').2]; exact low) enough with
    ⟨taken, s', returns, boots⟩ | stops
  · obtain ⟨t', root'⟩ := boots.root
    have pml4 := (first root').1
    have offset := boots.hhdmoff
    refine ⟨s', returns, ?_⟩
    rw [← offset, ← pml4] at direct ⊢
    exact boots.framebuffers_iff (offset ▸ inputs) direct
  · exact absurd stops supplies.not_stops

end Boot

/-! ### Two framebuffers -/

/-- A framebuffer of two pages. -/
def alignedFramebuffer : List MemmapEntry := [⟨0xfd000000, 0x2000, memmapFramebuffer⟩]

/-- A framebuffer of 4096 bytes that begins in the middle of a page. -/
def unalignedFramebuffer : List MemmapEntry := [⟨0xfd000800, 0x1000, memmapFramebuffer⟩]

/-- The first frame of the pool, as `frame_alloc` returns it. -/
theorem bootStart_root : ∃ t, (popFrame true).run (bootStart 100) = .ok 0x1000 t := by
  have list : (bootStart 100).alloc = 0x1000 :: strides 99 0x2000 := rfl
  exact ⟨_, run_popFrame_cons list⟩

theorem alignedFramebuffer_mapped : ∃ s',
    (initializePaging popFrame (bootFuel alignedFramebuffer 0xffffffff80001fff#64)
      alignedFramebuffer 0x200000 0xffffffff80001fff#64 0xffff800000100000).run (bootStart 100) =
        .ok () s' ∧ FramebuffersMapped alignedFramebuffer s' := by
  have bound : 100 < 2 ^ 28 := by decide
  have inputs : BootInputs alignedFramebuffer 0x200000 0xffffffff80001fff#64 0xffff800000100000
      0xffff800000000000#64 := bootInputs_bootStart (by decide) (by decide)
  have supplies : (popSource (strides 100 0x1000)).Supplies
      (1 + 3 * bootSize alignedFramebuffer 0xffffffff80001fff#64) :=
    popSource_supplies (by rw [length_strides]; decide)
  obtain ⟨t, root⟩ := bootStart_root
  obtain ⟨s', returns, mapped⟩ := framebuffersMapped_iff (popSource (strides 100 0x1000))
    (supply_bootStart bound) supplies inputs root (inDirectMap_bootStart (by decide) _) (by decide)
    ((bootStart_first bound root).2 _) le_rfl
  refine ⟨s', returns, mapped.2 fun e he framebuffer nonempty => ?_⟩
  have one : e = ⟨0xfd000000, 0x2000, memmapFramebuffer⟩ := List.mem_singleton.1 he
  subst one
  exact lastPageReached_of_offset (by decide) he framebuffer nonempty (by decide) (by decide)

/-- Its second half is on a page that is not mapped. -/
theorem unalignedFramebuffer_not_mapped : ∃ s',
    (initializePaging popFrame (bootFuel unalignedFramebuffer 0xffffffff80001fff#64)
      unalignedFramebuffer 0x200000 0xffffffff80001fff#64 0xffff800000100000).run (bootStart 100) =
        .ok () s' ∧ ¬ FramebuffersMapped unalignedFramebuffer s' := by
  have bound : 100 < 2 ^ 28 := by decide
  have inputs : BootInputs unalignedFramebuffer 0x200000 0xffffffff80001fff#64 0xffff800000100000
      0xffff800000000000#64 := bootInputs_bootStart (by decide) (by decide)
  have supplies : (popSource (strides 100 0x1000)).Supplies
      (1 + 3 * bootSize unalignedFramebuffer 0xffffffff80001fff#64) :=
    popSource_supplies (by rw [length_strides]; decide)
  rcases initializePaging_cases (popSource (strides 100 0x1000)) (supply_bootStart bound) inputs
    (fun a t root => (bootStart_first bound root).1 ▸ inDirectMap_bootStart (by decide) _) (by decide)
    (fun a t root => (bootStart_first bound root).2 _) le_rfl with ⟨taken, s', returns, boots⟩ | stops
  · have offset : s'.hhdmoff = 0xffff800000000000#64 := boots.hhdmoff
    obtain ⟨t, root⟩ := boots.root
    have pml4 : s'.pml4Addr = 0x1000 := (bootStart_first bound root).1
    refine ⟨s', returns, fun mapped => ?_⟩
    have reached := (boots.framebuffers_iff (offset ▸ inputs)
      (by rw [offset, pml4]; exact inDirectMap_bootStart (by decide) _)).1 mapped
      _ List.mem_cons_self rfl (by decide)
    rw [offset, pml4] at reached
    rcases reached with root | stack | ⟨e, he, -, k, hk, round⟩
    · exact absurd root (by decide)
    · exact absurd stack (by unfold StackPage; decide)
    · have one : e = ⟨0xfd000800, 0x1000, memmapFramebuffer⟩ := List.mem_singleton.1 he
      subst one
      have first : k = 0 := Nat.lt_one_iff.1 hk
      subst first
      exact absurd round (by decide)
  · exact absurd stops supplies.not_stops

end Bintos
