import Mathlib.Algebra.Order.BigOperators.Group.List
import Mathlib.Algebra.GroupWithZero.Nat
import Mathlib.Algebra.Order.Group.Nat
import Mathlib.Order.CompletePartialOrder
import Bintos.Vm.Refine

/-!
# The calls of `initializePaging`

`initializePaging` allocates the PML4, makes the calls of `bootCalls` one after the other and loads CR3
(`run_initializePaging`), provided that its loops end: the kernel's end is below the last page of the
address space and the memory map has fewer than 256 entries.  Otherwise the loop over the kernel's
pages never returns (`mapKernel_not_returns`).
-/

namespace Bintos

/-! ### Loops over pages -/

section Loops

variable {α : Type}

/-- The first `n` values of a counter that grows by the size of a page. -/
def strides : ℕ → U64 → List U64
  | 0, _ => []
  | n + 1, start => start :: strides n (start + frameAllocationSize)

theorem mem_strides {n : ℕ} {start b : U64} :
    b ∈ strides n start ↔ ∃ k < n, b = start + BitVec.ofNat 64 (4096 * k) := by
  induction n generalizing start with
  | zero => simp [strides]
  | succ n ih =>
    have next (k : ℕ) : start + BitVec.ofNat 64 (4096 * (k + 1)) =
        start + frameAllocationSize + BitVec.ofNat 64 (4096 * k) := by
      unfold frameAllocationSize
      bv_omega
    rw [strides, List.mem_cons, ih]
    constructor
    · rintro (rfl | ⟨k, hk, rfl⟩)
      · exact ⟨0, by omega, by simp⟩
      · exact ⟨k + 1, by omega, (next k).symm⟩
    · rintro ⟨k, hk, rfl⟩
      cases k with
      | zero => exact Or.inl (by simp)
      | succ k => exact Or.inr ⟨k, by omega, next k⟩

theorem length_strides (n : ℕ) (start : U64) : (strides n start).length = n := by
  induction n generalizing start with
  | zero => rfl
  | succ n ih => rw [strides, List.length_cons, ih]

/-- A loop whose condition holds for `n` rounds makes the calls for these rounds. -/
theorem pageLoop_eq (frameAlloc : Bool → Kern α U64) {more : U64 → Bool} (call : U64 → MapCall)
    {n fuel : ℕ} {start : U64} (rounds : ∀ b ∈ strides n start, more b = true)
    (ends : more (start + BitVec.ofNat 64 (4096 * n)) = false) (enough : n < fuel) :
    pageLoop more (fun b => mapPage frameAlloc (call b)) fuel start =
      mapPages frameAlloc ((strides n start).map call) := by
  induction n generalizing start fuel with
  | zero =>
    obtain ⟨fuel, rfl⟩ := Nat.exists_eq_add_of_lt enough
    have ends : more start = false := by simpa using ends
    simp [pageLoop, ends, strides, mapPages]
  | succ n ih =>
    obtain ⟨fuel, rfl⟩ := Nat.exists_eq_add_of_lt enough
    have last : start + BitVec.ofNat 64 (4096 * (n + 1)) =
        start + frameAllocationSize + BitVec.ofNat 64 (4096 * n) := by
      unfold frameAllocationSize
      bv_omega
    have first : more start = true := rounds start List.mem_cons_self
    have later : ∀ b ∈ strides n (start + frameAllocationSize), more b = true :=
      fun b hb => rounds b (List.mem_cons_of_mem _ hb)
    have rest := ih later (last ▸ ends) (show n < n + 1 + fuel by omega)
    rw [show n + 1 + fuel + 1 = (n + 1 + fuel) + 1 from rfl, pageLoop, if_pos first, rest]
    rfl

/-- The two counters of the kernel's loop stay in step. -/
theorem mapKernel_eq_pageLoop (frameAlloc : Bool → Kern α U64) (physicalBase kernelEnd : U64)
    (fuel : ℕ) (bytes : U64) :
    mapKernel frameAlloc physicalBase kernelEnd fuel (kernelVma + bytes) bytes =
      pageLoop (fun b => kernelVma + b ≤ kernelEnd)
        (fun b => mapPage frameAlloc (kernelCall physicalBase (kernelVma + b) b)) fuel bytes := by
  induction fuel generalizing bytes with
  | zero => rfl
  | succ fuel ih =>
    rw [mapKernel, pageLoop, BitVec.add_assoc, ih]
    simp only [decide_eq_true_eq]

/-- At the last page of the address space the kernel's loop wraps around and never returns. -/
theorem mapKernel_not_returns (frameAlloc : Bool → Kern α U64) {physicalBase kernelEnd : U64}
    (last : 0xfffffffffffff000#64 ≤ kernelEnd) (fuel : ℕ) {addr : U64} (aligned : PageAligned addr)
    (bytes : U64) (s s' : Machine α) :
    (mapKernel frameAlloc physicalBase kernelEnd fuel addr bytes).run s ≠ .ok () s' := by
  induction fuel generalizing addr bytes s with
  | zero => exact nofun
  | succ fuel ih =>
    unfold PageAligned at aligned
    have more : addr ≤ kernelEnd := by bv_omega
    have next : PageAligned (addr + frameAllocationSize) := by
      unfold PageAligned frameAllocationSize
      bv_omega
    rw [mapKernel, if_pos more, EStateM.run_bind]
    cases (mapPage frameAlloc (kernelCall physicalBase addr bytes)).run s with
    | ok u t => exact ih next _ t
    | error e t => exact nofun

end Loops

/-! ### The calls -/

/-- The number of pages that `len` bytes begin. -/
def pageCount (len : U64) : ℕ := (len.toNat + 4095) / 4096

/-- The number of the kernel's pages, from `KERNEL_VMA` to the page of `KERNEL_END`. -/
def kernelPages (kernelEnd : U64) : ℕ := (kernelEnd - kernelVma).toNat / 4096 + 1

/-- The call for the page of the PML4 itself. -/
def pml4Call (hhdmoff pml4 : U64) : MapCall := ⟨pml4 + hhdmoff, pml4, true, true, true, false⟩

def stackCalls (rsp hhdmoff : U64) : List MapCall := (strides 16 0).map (stackCall rsp hhdmoff)

def framebufferCalls (hhdmoff : U64) (e : MemmapEntry) : List MapCall :=
  if e.type = memmapFramebuffer then
    (strides (pageCount e.length) 0).map (framebufferCall e hhdmoff)
  else []

def kernelCalls (physicalBase kernelEnd : U64) : List MapCall :=
  (strides (kernelPages kernelEnd) 0).map fun b => kernelCall physicalBase (kernelVma + b) b

/-- The calls of `initialize_paging` into the direct map. -/
def directCalls (r : List MemmapEntry) (rsp hhdmoff pml4 : U64) : List MapCall :=
  pml4Call hhdmoff pml4 :: stackCalls rsp hhdmoff ++ r.flatMap (framebufferCalls hhdmoff)

/-- The calls of `initialize_paging`. -/
def bootCalls (r : List MemmapEntry) (physicalBase kernelEnd rsp hhdmoff pml4 : U64) :
    List MapCall :=
  directCalls r rsp hhdmoff pml4 ++ kernelCalls physicalBase kernelEnd

/-- The number of calls of `initialize_paging`. -/
def bootSize (r : List MemmapEntry) (kernelEnd : U64) : ℕ :=
  17 + (r.map fun e => if e.type = memmapFramebuffer then pageCount e.length else 0).sum +
    kernelPages kernelEnd

/-- Rounds that are enough for every loop of `initialize_paging`. -/
def bootFuel (r : List MemmapEntry) (kernelEnd : U64) : ℕ :=
  17 + r.length + (r.map fun e => pageCount e.length).sum + kernelPages kernelEnd

theorem length_bootCalls (r : List MemmapEntry) (physicalBase kernelEnd rsp hhdmoff pml4 : U64) :
    (bootCalls r physicalBase kernelEnd rsp hhdmoff pml4).length = bootSize r kernelEnd := by
  have framebuffers : (r.flatMap (framebufferCalls hhdmoff)).length =
      (r.map fun e => if e.type = memmapFramebuffer then pageCount e.length else 0).sum := by
    rw [List.length_flatMap]
    congr 1
    refine List.map_congr_left fun e _ => ?_
    unfold framebufferCalls
    split_ifs
    · rw [List.length_map, length_strides]
    · rfl
  rw [bootCalls, directCalls, List.length_append, List.length_append, List.length_cons, stackCalls,
    kernelCalls, List.length_map, List.length_map, length_strides, length_strides, framebuffers]
  unfold bootSize
  omega

theorem bootSize_le (r : List MemmapEntry) (kernelEnd : U64) :
    bootSize r kernelEnd ≤ bootFuel r kernelEnd := by
  have fewer : (r.map fun e => if e.type = memmapFramebuffer then pageCount e.length else 0).sum ≤
      (r.map fun e => pageCount e.length).sum := by
    refine List.sum_le_sum fun e _ => ?_
    split_ifs
    · exact le_rfl
    · exact Nat.zero_le _
  unfold bootSize bootFuel
  omega

section Run

variable {α : Type} {frameAlloc : Bool → Kern α U64} {source : FrameSource frameAlloc}
  {taken : List U64} {s s' : Machine α} {r : List MemmapEntry}

theorem rounds_below {len : U64} (bound : len.toNat ≤ 2 ^ 64 - 4096) :
    ∀ b ∈ strides (pageCount len) 0, decide (b < len) = true := by
  intro b hb
  obtain ⟨k, hk, rfl⟩ := mem_strides.1 hb
  unfold pageCount at hk
  rw [decide_eq_true_eq, zero_add, BitVec.lt_def, BitVec.toNat_ofNat]
  omega

theorem ends_below {len : U64} (bound : len.toNat ≤ 2 ^ 64 - 4096) :
    decide ((0 : U64) + BitVec.ofNat 64 (4096 * pageCount len) < len) = false := by
  unfold pageCount
  rw [decide_eq_false_iff_not, zero_add, BitVec.lt_def, BitVec.toNat_ofNat]
  omega

theorem run_mapFramebuffers_framebuffer {e : MemmapEntry} {i : U8} (here : r[i.toNat]? = some e)
    (framebuffer : e.type = memmapFramebuffer) (loopFuel fuel : ℕ) :
    (mapFramebuffers frameAlloc r loopFuel (fuel + 1) i).run s =
      match (pageLoop (· < e.length)
          (fun b => mapPage frameAlloc (framebufferCall e s.hhdmoff b)) loopFuel 0).run s with
      | .ok _ t => (mapFramebuffers frameAlloc r loopFuel fuel (i + 1)).run t
      | .error e t => .error e t := by
  rw [mapFramebuffers, here]
  simp only [if_pos framebuffer]
  rw [EStateM.run_bind, EStateM.run_get]
  show (pageLoop (fun b => decide (b < e.length))
    (fun b => mapPage frameAlloc (framebufferCall e s.hhdmoff b)) loopFuel 0 >>= fun _ =>
      mapFramebuffers frameAlloc r loopFuel fuel (i + 1)).run s = _
  rw [EStateM.run_bind]
  cases (pageLoop (fun b => decide (b < e.length))
    (fun b => mapPage frameAlloc (framebufferCall e s.hhdmoff b)) loopFuel 0).run s <;> rfl

theorem mapFramebuffers_other {e : MemmapEntry} {i : U8} (here : r[i.toNat]? = some e)
    (other : e.type ≠ memmapFramebuffer) (loopFuel fuel : ℕ) :
    mapFramebuffers frameAlloc r loopFuel (fuel + 1) i =
      mapFramebuffers frameAlloc r loopFuel fuel (i + 1) := by
  rw [mapFramebuffers, here]
  exact if_neg other

/-- The loop over the memory map makes the calls for its framebuffers. -/
theorem run_mapFramebuffers (inv : source.Inv taken s) (tables : TableTree taken s) {i : U8}
    {loopFuel fuel : ℕ} (short : r.length < 256) (within : i.toNat ≤ r.length)
    (low : LowRun frameAlloc s ((r.drop i.toNat).flatMap (framebufferCalls s.hhdmoff)))
    (sizes : ∀ e ∈ r, e.type = memmapFramebuffer →
      e.length.toNat ≤ 2 ^ 64 - 4096 ∧ pageCount e.length < loopFuel)
    (enough : r.length - i.toNat < fuel) :
    (mapFramebuffers frameAlloc r loopFuel fuel i).run s =
      (mapPages frameAlloc ((r.drop i.toNat).flatMap (framebufferCalls s.hhdmoff))).run s := by
  induction fuel generalizing i s taken with
  | zero => omega
  | succ fuel ih =>
    by_cases done : i.toNat = r.length
    · have past : r[i.toNat]? = none := List.getElem?_eq_none (by omega)
      rw [mapFramebuffers, past, List.drop_of_length_le (by omega)]
      rfl
    · have inside : i.toNat < r.length := by omega
      have next : (i + 1).toNat = i.toNat + 1 := by bv_omega
      have here : r[i.toNat]? = some r[i.toNat] := List.getElem?_eq_getElem inside
      have member : r[i.toNat] ∈ r := List.getElem_mem inside
      rw [List.drop_eq_getElem_cons inside, List.flatMap_cons, ← next] at low ⊢
      generalize r[i.toNat] = e at here member low ⊢
      by_cases framebuffer : e.type = memmapFramebuffer
      · obtain ⟨bound, rounds⟩ := sizes e member framebuffer
        have loop := pageLoop_eq frameAlloc (framebufferCall e s.hhdmoff) (rounds_below bound)
          (ends_below bound) rounds
        have its_calls : framebufferCalls s.hhdmoff e =
            (strides (pageCount e.length) 0).map (framebufferCall e s.hhdmoff) := if_pos framebuffer
        rw [run_mapFramebuffers_framebuffer here framebuffer, loop, ← its_calls,
          run_mapPages_append]
        obtain ⟨first, rest⟩ := lowRun_append.1 low
        rcases mapPages_cases source inv tables first with ⟨taken', t, run, inv', after⟩ | stops
        · rw [run]
          have rest := rest t run
          rw [← after.hhdmoff] at rest ⊢
          exact ih inv' after.tables (by omega) rest (by omega)
        · obtain ⟨e, t, run, -⟩ := stops.exists_error
          rw [run]
      · have no_calls : framebufferCalls s.hhdmoff e = [] := if_neg framebuffer
        rw [no_calls, List.nil_append] at low ⊢
        rw [mapFramebuffers_other here framebuffer]
        exact ih inv tables (by omega) low (by omega)

theorem stackLoop_eq (frameAlloc : Bool → Kern α U64) (rsp hhdmoff : U64) {fuel : ℕ}
    (enough : 16 < fuel) :
    pageLoop (· < 16 * frameAllocationSize)
      (fun bytes => mapPage frameAlloc (stackCall rsp hhdmoff bytes)) fuel 0 =
      mapPages frameAlloc (stackCalls rsp hhdmoff) := by
  refine pageLoop_eq frameAlloc (stackCall rsp hhdmoff) (fun b hb => ?_) (by decide) enough
  obtain ⟨k, hk, rfl⟩ := mem_strides.1 hb
  rw [decide_eq_true_eq, zero_add, BitVec.lt_def, BitVec.toNat_ofNat]
  show 4096 * k % 2 ^ 64 < 65536
  omega

theorem kernelLoop_eq (frameAlloc : Bool → Kern α U64) (physicalBase : U64) {kernelEnd : U64}
    (above : kernelVma ≤ kernelEnd) (below : kernelEnd < 0xfffffffffffff000#64) {fuel : ℕ}
    (enough : kernelPages kernelEnd < fuel) :
    mapKernel frameAlloc physicalBase kernelEnd fuel kernelVma 0 =
      mapPages frameAlloc (kernelCalls physicalBase kernelEnd) := by
  have same := mapKernel_eq_pageLoop frameAlloc physicalBase kernelEnd fuel 0
  rw [add_zero] at same
  have distance : (kernelEnd - kernelVma).toNat = kernelEnd.toNat - kernelVma.toNat :=
    BitVec.toNat_sub_of_le above
  have vma : kernelVma.toNat = 0xffffffff80000000 := rfl
  have below : kernelEnd.toNat < 0xfffffffffffff000 := below
  have above : 0xffffffff80000000 ≤ kernelEnd.toNat := above
  rw [same]
  refine pageLoop_eq frameAlloc (fun b => kernelCall physicalBase (kernelVma + b) b)
    (fun b hb => ?_) ?_ enough
  · obtain ⟨k, hk, rfl⟩ := mem_strides.1 hb
    unfold kernelPages at hk
    rw [decide_eq_true_eq, zero_add, BitVec.le_def, BitVec.toNat_add, BitVec.toNat_ofNat, vma]
    omega
  · unfold kernelPages
    rw [decide_eq_false_iff_not, zero_add, BitVec.le_def, BitVec.toNat_add, BitVec.toNat_ofNat, vma]
    omega

theorem run_initializePaging_start (fuel : ℕ) (r : List MemmapEntry) (physicalBase kernelEnd rsp a : U64)
    {t : Machine α} (root : (frameAlloc true).run s = .ok a t) :
    (initializePaging frameAlloc fuel r physicalBase kernelEnd rsp).run s =
      (mapPage frameAlloc (pml4Call t.hhdmoff a) >>= fun _ =>
        pageLoop (· < 16 * frameAllocationSize)
          (fun bytes => mapPage frameAlloc (stackCall rsp t.hhdmoff bytes)) fuel 0 >>= fun _ =>
        mapFramebuffers frameAlloc r fuel fuel 0 >>= fun _ =>
        mapKernel frameAlloc physicalBase kernelEnd fuel kernelVma 0 >>= fun _ =>
        modify fun s => { s with cr3 := some s.pml4Addr }).run { t with pml4Addr := a } := by
  rw [initializePaging, EStateM.run_bind, root]
  rfl

/-- **The calls of `initialize_paging`.**  After the allocation of the PML4 it makes the calls of
`bootCalls` and loads CR3. -/
theorem run_initializePaging (inv : source.Inv [] s) {physicalBase kernelEnd rsp a : U64}
    {t : Machine α} (root : (frameAlloc true).run s = .ok a t) (short : r.length < 256)
    (sizes : ∀ e ∈ r, e.type = memmapFramebuffer → e.length.toNat ≤ 2 ^ 64 - 4096)
    (above : kernelVma ≤ kernelEnd) (below : kernelEnd < 0xfffffffffffff000#64)
    (low : LowRun frameAlloc { t with pml4Addr := a }
      (bootCalls r physicalBase kernelEnd rsp s.hhdmoff a)) {fuel : ℕ}
    (enough : bootFuel r kernelEnd ≤ fuel) :
    (initializePaging frameAlloc fuel r physicalBase kernelEnd rsp).run s =
      match (mapPages frameAlloc (bootCalls r physicalBase kernelEnd rsp s.hhdmoff a)).run
          { t with pml4Addr := a } with
      | .ok _ t' => .ok () { t' with cr3 := some t'.pml4Addr }
      | .error e t' => .error e t' := by
  obtain ⟨grants, inv'⟩ := source.grant inv root
  have rounds : ∀ e ∈ r, pageCount e.length ≤ (r.map fun e => pageCount e.length).sum := fun e he =>
    List.le_sum_of_mem (List.mem_map_of_mem he)
  unfold bootFuel at enough
  have sizes : ∀ e ∈ r, e.type = memmapFramebuffer →
      e.length.toNat ≤ 2 ^ 64 - 4096 ∧ pageCount e.length < fuel := fun e he framebuffer =>
    ⟨sizes e he framebuffer, by have := rounds e he; omega⟩
  have zeroed : TableTree [a] { t with pml4Addr := a } :=
    (tableTree_of_zeroed (s := { t with pml4Addr := a }) grants.aligned grants.zeroed).1
  have ready : source.Inv [a] { t with pml4Addr := a } :=
    source.write inv' rfl rfl fun _ _ => rfl
  have kept : ({ t with pml4Addr := a } : Machine α).hhdmoff = s.hhdmoff := grants.hhdmoff
  rw [run_initializePaging_start fuel r physicalBase kernelEnd rsp a root]
  generalize ({ t with pml4Addr := a } : Machine α) = u at low zeroed ready kept ⊢
  rw [grants.hhdmoff, stackLoop_eq frameAlloc rsp s.hhdmoff (by omega),
    kernelLoop_eq frameAlloc physicalBase above below (by omega), ← bind_assoc]
  obtain ⟨direct, -⟩ := lowRun_append.1 low
  obtain ⟨first, framebuffers⟩ := lowRun_append.1 direct
  show (mapPages frameAlloc (pml4Call s.hhdmoff a :: stackCalls rsp s.hhdmoff) >>= _).run u = _
  rw [EStateM.run_bind, bootCalls, run_mapPages_append, directCalls, run_mapPages_append]
  rcases mapPages_cases source ready zeroed first with ⟨taken₁, s₁, run₁, inv₁, after₁⟩ | stops
  swap
  · obtain ⟨e, t₁, run₁, -⟩ := stops.exists_error
    rw [run₁]
  simp only [run₁]
  have offset : s₁.hhdmoff = s.hhdmoff := after₁.hhdmoff.trans kept
  have framebuffers := framebuffers s₁ run₁
  rw [← offset] at framebuffers ⊢
  have loop := run_mapFramebuffers inv₁ after₁.tables (i := 0) short (Nat.zero_le _) framebuffers
    sizes (show r.length - (0 : U8).toNat < fuel by show r.length - 0 < fuel; omega)
  rw [EStateM.run_bind, loop, show r.drop (0 : U8).toNat = r from rfl]
  cases (mapPages frameAlloc (r.flatMap (framebufferCalls s₁.hhdmoff))).run s₁ with
  | error e t₂ => rfl
  | ok _ s₂ =>
    simp only []
    rw [EStateM.run_bind]
    cases (mapPages frameAlloc (kernelCalls physicalBase kernelEnd)).run s₂ <;> rfl

/-- With the kernel's end on the last page of the address space, CR3 is never loaded. -/
theorem initializePaging_not_returns {physicalBase kernelEnd : U64}
    (last : 0xfffffffffffff000#64 ≤ kernelEnd) (frameAlloc : Bool → Kern α U64) (fuel : ℕ)
    (r : List MemmapEntry) (rsp : U64) (s s' : Machine α) :
    (initializePaging frameAlloc fuel r physicalBase kernelEnd rsp).run s ≠ .ok () s' := by
  intro returns
  cases root : (frameAlloc true).run s with
  | error e t =>
    rw [initializePaging, EStateM.run_bind, root] at returns
    cases returns
  | ok a t =>
    rw [run_initializePaging_start fuel r physicalBase kernelEnd rsp a root] at returns
    obtain ⟨_, t₁, _, returns⟩ := run_bind_eq_ok.1 returns
    obtain ⟨_, t₂, _, returns⟩ := run_bind_eq_ok.1 returns
    obtain ⟨_, t₃, _, returns⟩ := run_bind_eq_ok.1 returns
    obtain ⟨_, t₄, kernel, _⟩ := run_bind_eq_ok.1 returns
    exact mapKernel_not_returns frameAlloc last fuel (by decide) 0 t₃ t₄ kernel

end Run

end Bintos
