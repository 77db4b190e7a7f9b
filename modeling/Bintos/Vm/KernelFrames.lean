import Bintos.Pmem.Enumerate
import Bintos.Vm.Boot

/-!
# The kernel's allocator as a source of frames

The first `n` answers of `frameAlloc` are distinct frames on most machines: when no region has more than
`2 ^ 20` pages, and on every machine for `n` up to `2 ^ 20` (`distinctAnswers_of_le`).  With that many calls
as a budget the allocator is a source of fresh frames (`kernelSource`), and a boot that does not use up
the budget is a boot with `frameAlloc` itself (`initializePaging_upToBudget`).
-/

namespace Bintos

/-! ### Budgets -/

section Budget

variable {α β γ : Type}

/-- The two computations agree, unless the first one runs out of its budget. -/
def UpToBudget (x y : Kern α β) : Prop :=
  ∀ s, x.run s = y.run s ∨ ∃ t, x.run s = .error .outOfFuel t

theorem UpToBudget.refl (x : Kern α β) : UpToBudget x x := fun _ => Or.inl rfl

theorem UpToBudget.of_ok {x y : Kern α β} (h : UpToBudget x y) {s s' : Machine α} {b : β}
    (returns : x.run s = .ok b s') : y.run s = .ok b s' := by
  rcases h s with same | ⟨t, stopped⟩
  · rw [← same, returns]
  · rw [returns] at stopped
    cases stopped

theorem UpToBudget.bind {x y : Kern α β} {f g : β → Kern α γ} (first : UpToBudget x y)
    (rest : ∀ b, UpToBudget (f b) (g b)) : UpToBudget (x >>= f) (y >>= g) := by
  intro s
  rw [EStateM.run_bind, EStateM.run_bind]
  rcases first s with same | ⟨t, stopped⟩
  · rw [same]
    cases y.run s with
    | ok b t => exact rest b t
    | error e t => exact Or.inl rfl
  · rw [stopped]
    exact Or.inr ⟨t, rfl⟩

variable {f g : Bool → Kern α U64}

theorem UpToBudget.nextTable {F : Type} [DecidableEq F] [Packed F] (h : ∀ z, UpToBudget (f z) (g z))
    (present ptr : F) (link : U64 → List (F × U64)) (entry : U64) :
    UpToBudget (nextTable f present ptr link entry) (nextTable g present ptr link entry) := by
  refine (UpToBudget.refl _).bind fun held => ?_
  split_ifs
  · exact (h true).bind fun _ => .refl _
  · exact .refl _

theorem UpToBudget.mapPage (h : ∀ z, UpToBudget (f z) (g z)) (c : MapCall) :
    UpToBudget (mapPage f c) (mapPage g c) :=
  (UpToBudget.refl _).bind fun _ => (UpToBudget.refl _).bind fun _ =>
    (UpToBudget.nextTable h _ _ _ _).bind fun _ => (UpToBudget.nextTable h _ _ _ _).bind fun _ =>
      (UpToBudget.nextTable h _ _ _ _).bind fun _ => .refl _

theorem UpToBudget.pageLoop (more : U64 → Bool) {b b' : U64 → Kern α Unit}
    (h : ∀ bytes, UpToBudget (b bytes) (b' bytes)) (fuel : ℕ) (bytes : U64) :
    UpToBudget (pageLoop more b fuel bytes) (pageLoop more b' fuel bytes) := by
  induction fuel generalizing bytes with
  | zero => exact .refl _
  | succ fuel ih =>
    rw [Bintos.pageLoop, Bintos.pageLoop]
    split_ifs
    · exact (h bytes).bind fun _ => ih _
    · exact .refl _

theorem UpToBudget.mapFramebuffers (h : ∀ z, UpToBudget (f z) (g z)) (r : List MemmapEntry)
    (loopFuel fuel : ℕ) (i : U8) :
    UpToBudget (mapFramebuffers f r loopFuel fuel i) (mapFramebuffers g r loopFuel fuel i) := by
  induction fuel generalizing i with
  | zero => exact .refl _
  | succ fuel ih =>
    cases here : r[i.toNat]? with
    | none =>
      rw [Bintos.mapFramebuffers, Bintos.mapFramebuffers, here]
      exact .refl _
    | some e =>
      by_cases framebuffer : e.type = memmapFramebuffer
      · intro s
        rw [run_mapFramebuffers_framebuffer here framebuffer,
          run_mapFramebuffers_framebuffer here framebuffer]
        rcases UpToBudget.pageLoop (· < e.length)
          (fun b => UpToBudget.mapPage h (framebufferCall e s.hhdmoff b)) loopFuel 0 s with
          same | ⟨t, stopped⟩
        · rw [same]
          cases (Bintos.pageLoop (fun b => decide (b < e.length))
            (fun b => Bintos.mapPage g (framebufferCall e s.hhdmoff b)) loopFuel 0).run s with
          | ok _ t => exact ih _ t
          | error e t => exact Or.inl rfl
        · rw [stopped]
          exact Or.inr ⟨t, rfl⟩
      · rw [mapFramebuffers_other here framebuffer, mapFramebuffers_other here framebuffer]
        exact ih _

theorem UpToBudget.mapKernel (h : ∀ z, UpToBudget (f z) (g z)) (physicalBase kernelEnd : U64)
    (fuel : ℕ) (addr bytes : U64) :
    UpToBudget (mapKernel f physicalBase kernelEnd fuel addr bytes)
      (mapKernel g physicalBase kernelEnd fuel addr bytes) := by
  induction fuel generalizing addr bytes with
  | zero => exact .refl _
  | succ fuel ih =>
    rw [Bintos.mapKernel, Bintos.mapKernel]
    split_ifs
    · exact (UpToBudget.mapPage h _).bind fun _ => ih _ _
    · exact .refl _

/-- A boot with a budget of allocations is the boot, unless the budget runs out. -/
theorem initializePaging_upToBudget (h : ∀ z, UpToBudget (f z) (g z)) (fuel : ℕ)
    (r : List MemmapEntry) (physicalBase kernelEnd rsp : U64) :
    UpToBudget (initializePaging f fuel r physicalBase kernelEnd rsp)
      (initializePaging g fuel r physicalBase kernelEnd rsp) :=
  (h true).bind fun _ => (UpToBudget.refl _).bind fun _ => (UpToBudget.refl _).bind fun _ =>
    (UpToBudget.mapPage h _).bind fun _ =>
      (UpToBudget.pageLoop _ (fun _ => UpToBudget.mapPage h _) _ _).bind fun _ =>
        (UpToBudget.mapFramebuffers h _ _ _ _).bind fun _ =>
          (UpToBudget.mapKernel h _ _ _ _ _).bind fun _ => .refl _

theorem LowRun.of_upToBudget (h : ∀ z, UpToBudget (f z) (g z)) {s : Machine α}
    {calls : List MapCall} (low : LowRun g s calls) : LowRun f s calls := by
  induction calls generalizing s with
  | nil => trivial
  | cons c calls ih =>
    exact ⟨low.1, fun s' returns => ih (low.2 s' ((UpToBudget.mapPage h c).of_ok returns))⟩

/-- The converse, when the budget is enough for the calls. -/
theorem LowRun.to_upToBudget (h : ∀ z, UpToBudget (f z) (g z)) {s : Machine α}
    {calls : List MapCall} (low : LowRun f s calls)
    (enough : ∀ t, (mapPages f calls).run s ≠ .error .outOfFuel t) : LowRun g s calls := by
  induction calls generalizing s with
  | nil => trivial
  | cons c calls ih =>
    refine ⟨low.1, fun s' returns => ?_⟩
    rcases UpToBudget.mapPage h c s with same | ⟨t, stopped⟩
    · have returns := same.trans returns
      refine ih (low.2 s' returns) fun t spent => enough t ?_
      rw [run_mapPages_cons, returns]
      exact spent
    · exact absurd (by rw [run_mapPages_cons, stopped]) (enough t)

end Budget

/-! ### Distinct answers -/

section Distinct

variable {m : List MemmapEntry} {off : U64} {n : ℕ}

/-- No two of the first `n` calls return the same frame. -/
def DistinctAnswers (m : List MemmapEntry) (n : ℕ) : Prop :=
  ∀ i j a, i < n → j < n → answer m i = some a → answer m j = some a → a ≠ -1 → i = j

/-- The pages of the table, one region after the other. -/
def pagesOf (m : List MemmapEntry) : List U64 :=
  Segments.concat (·.pages.toNat) Region.page (regions m)

theorem distinctAnswers_of_pages (hm : Conformant m)
    (pages : ∀ k < n, k < frames m → answer m k = (pagesOf m)[k]?) : DistinctAnswers m n := by
  intro i j a hi hj first second valid
  have more (k : ℕ) (value : answer m k = some a) : k < frames m := by
    by_contra past
    rw [answer, if_neg past, Option.some_inj] at value
    exact valid value.symm
  rw [pages i hi (more i first)] at first
  rw [pages j hj (more j second)] at second
  have inside := (List.getElem?_eq_some_iff.1 first).1
  exact (List.getElem?_inj inside (nodup_pages hm)).1 (first.trans second.symm)

/-- The first `2 ^ 20` answers are distinct on every machine. -/
theorem distinctAnswers_of_le (hm : Conformant m) (few : n ≤ 2 ^ 20) : DistinctAnswers m n := by
  refine distinctAnswers_of_pages hm fun k hk more => ?_
  rw [answer_eq more (by omega), pagesOf, Segments.getElem?_concat]
  cases place : Segments.locate (fun r : Region => r.pages.toNat) (regions m) k with
  | none => rfl
  | some p =>
    have before : p.2 ≤ k := Segments.locate_le place
    rw [Option.map_some, Option.map_some, Nat.mod_eq_of_lt (by omega)]

/-- There are not more frames than pages in the table. -/
theorem length_le_capacity (hm : Conformant m) {l : List U64} (distinct : l.Nodup)
    (frames : ∀ a ∈ l, IsFrame m a) : l.length ≤ capacity m := by
  have pages : l ⊆ pagesOf m := by
    intro a ha
    obtain ⟨e, he, k, inside, place⟩ := frames a ha
    refine Segments.mem_concat.2 ⟨finalRegion m e, List.mem_map_of_mem he, k, ?_, ?_⟩
    · show k < (finalRegion m e).pages.toNat
      rw [toNat_finalRegion_pages hm he]
      omega
    · refine BitVec.eq_of_toNat_eq ?_
      rw [toNat_finalRegion_page hm he, place]
      rw [toNat_finalRegion_pages hm he]
      omega
  calc l.length ≤ (pagesOf m).length := (distinct.subperm pages).length_le
    _ = capacity m := Segments.length_concat _ _ _

end Distinct

/-! ### The allocator with a budget -/

/-- `frame_alloc` for the first `n` frames. -/
def budgetAlloc (n : ℕ) (zeroed : Bool) : Kern Pmem U64 := do
  if n ≤ (← get).alloc.index.toNat then
    throw .outOfFuel
  frameAlloc zeroed

section Source

variable {m : List MemmapEntry} {off a : U64} {n : ℕ} {taken : List U64} {s s' : Kernel}

theorem run_budgetAlloc (n : ℕ) (zeroed : Bool) (s : Kernel) :
    (budgetAlloc n zeroed).run s =
      if n ≤ s.alloc.index.toNat then .error .outOfFuel s else (frameAlloc zeroed).run s := by
  rw [budgetAlloc, EStateM.run_bind, EStateM.run_get]
  by_cases spent : n ≤ s.alloc.index.toNat <;> simp [spent]

theorem budgetAlloc_upToBudget (n : ℕ) (zeroed : Bool) :
    UpToBudget (budgetAlloc n zeroed) (frameAlloc zeroed) := by
  intro s
  rw [run_budgetAlloc]
  split_ifs
  · exact Or.inr ⟨s, rfl⟩
  · exact Or.inl rfl

/-- The kernel is ready and has handed out the frames of `taken`, the last one first. -/
structure Handed (m : List MemmapEntry) (off : U64) (taken : List U64) (s : Kernel) : Prop where
  ready : Ready m off s
  cursor : s.alloc.index.toNat = taken.length
  answers : ∀ k a, taken.reverse[k]? = some a → answer m k = some a
  distinct : taken.Nodup
  isFrame : ∀ b ∈ taken, IsFrame m b

/-- Start-up hands out nothing. -/
theorem handed_nil (hm : Conformant m) {fuel : ℕ} {mem : Mem}
    (returns : (initializeMemmap fuel m off).run (atBoot mem) = .ok () s) : Handed m off [] s where
  ready := ready_of_initializeMemmap hm returns
  cursor := by rw [(initializeMemmap_spec hm returns).2.1]; rfl
  answers := by simp
  distinct := List.nodup_nil
  isFrame := by simp

/-- The end of memory is not reached, since the bitmap has taken a page. -/
theorem Handed.more (hm : Conformant m) (two : 2 ≤ frames m) (handed : Handed m off taken s) :
    s.alloc.index.toNat < frames m := by
  obtain ⟨e, home, -⟩ := handed.ready.frameMap
  have below := capacity_lt hm (home_mem home).1 (home_mem home).2 two
  have few := length_le_capacity hm handed.distinct handed.isFrame
  have cursor := handed.cursor
  omega

/-- A store outside the frames that are handed out leaves them as they are, and one inside them leaves
the bitmap as it is. -/
theorem Handed.write (hm : Conformant m) (handed : Handed m off taken s)
    (statics : s'.alloc = s.alloc) (offset : s'.hhdmoff = s.hhdmoff)
    (same : ∀ x, (∀ b ∈ taken, ¬ Mem.InRange b 4096 x) → s'.mem x = s.mem x) :
    Handed m off taken s' where
  ready := by
    refine handed.ready.of_mem offset statics fun x inside => same x fun b hb here => ?_
    exact handed.ready.apart_bitmap hm (handed.isFrame b hb) here inside
  cursor := by rw [statics]; exact handed.cursor
  answers := handed.answers
  distinct := handed.distinct
  isFrame := handed.isFrame

/-- The frame of the next call is new. -/
theorem Handed.fresh (hm : Conformant m) (two : 2 ≤ frames m) (distinct : DistinctAnswers m n)
    (handed : Handed m off taken s) (budget : s.alloc.index.toNat < n)
    (value : answer m s.alloc.index.toNat = some a) : IsFrame m a ∧ a ∉ taken := by
  have frame := isFrame_of_lt hm (handed.more hm two) value
  refine ⟨frame, fun before => ?_⟩
  obtain ⟨k, hk⟩ := List.mem_iff_getElem?.1 (List.mem_reverse.2 before)
  have inside := (List.getElem?_eq_some_iff.1 hk).1
  rw [List.length_reverse, ← handed.cursor] at inside
  have again := distinct k _ a (inside.trans budget) budget (handed.answers k a hk) value
    (frame.ne_neg_one hm)
  omega

/-- The nibble of the next frame is in the bitmap, when there is a next frame. -/
theorem Handed.inside_bitmap (hm : Conformant m) (two : 2 ≤ frames m) (handed : Handed m off taken s)
    (frame : IsFrame m a) (fresh : a ∉ taken) : s.alloc.index.toNat < 2 * bitmapBytes m := by
  obtain ⟨e, home, -⟩ := handed.ready.frameMap
  have below := capacity_lt hm (home_mem home).1 (home_mem home).2 two
  have few := length_le_capacity hm (List.nodup_cons.2 ⟨fresh, handed.distinct⟩) fun b hb => by
    rcases List.mem_cons.1 hb with rfl | before
    · exact frame
    · exact handed.isFrame b before
  have cursor := handed.cursor
  rw [List.length_cons] at few
  unfold bitmapBytes
  omega

/-- One more frame. -/
theorem Handed.cons (hm : Conformant m) (two : 2 ≤ frames m) (handed : Handed m off taken s)
    (frame : IsFrame m a) (fresh : a ∉ taken)
    (returns : (frameAlloc true).run s = .ok a s') : Handed m off (a :: taken) s' := by
  obtain ⟨value, ready, next⟩ := handed.ready.step hm returns
  have more := handed.more hm two
  have cursor := handed.cursor
  refine ⟨ready, ?_, fun k b hk => ?_, List.nodup_cons.2 ⟨fresh, handed.distinct⟩, fun b hb => ?_⟩
  · rw [next, List.length_cons]
    omega
  · rw [List.reverse_cons] at hk
    by_cases old : k < taken.reverse.length
    · rw [List.getElem?_append_left old] at hk
      exact handed.answers k b hk
    · rw [List.getElem?_append_right (not_lt.1 old), List.getElem?_singleton] at hk
      split_ifs at hk with last
      cases hk
      rw [List.length_reverse] at old last
      rwa [show k = s.alloc.index.toNat by omega]
  · rcases List.mem_cons.1 hb with rfl | before
    · exact frame
    · exact handed.isFrame b before

/-- A call of the kernel's allocator is an allocation, as long as its answers are distinct. -/
theorem Handed.grant (hm : Conformant m) (two : 2 ≤ frames m)
    (physical : ∀ b, IsFrame m b → b.toNat < 2 ^ 52)
    (distinct : DistinctAnswers m n) (handed : Handed m off taken s)
    (returns : (budgetAlloc n true).run s = .ok a s') :
    Grants taken s a s' ∧ Handed m off (a :: taken) s' := by
  rw [run_budgetAlloc] at returns
  split_ifs at returns with spent
  obtain ⟨frame, fresh⟩ := handed.fresh hm two distinct (not_le.1 spent)
    (handed.ready.step hm returns).1
  have nibble := handed.inside_bitmap hm two frame fresh
  refine ⟨?_, handed.cons hm two frame fresh returns⟩
  have more := handed.more hm two
  have aligned (b : U64) (hb : IsFrame m b) : PageAligned b := hb.aligned hm
  rcases handed.ready.frameAlloc_cases hm true with ⟨past, -⟩ | ⟨-, call⟩ | ⟨edge, -⟩
  · omega
  · cases ends : walkTable (regions m) s.alloc.index with
    | none => simp [call, ends] at returns
    | some p =>
      simp only [call, ends, EStateM.Result.ok.injEq] at returns
      obtain ⟨rfl, rfl⟩ := returns
      refine ⟨aligned _ frame, physical _ frame, fresh, fun x inside => ?_, fun b hb x inside => ?_,
        rfl, rfl⟩
      · exact Mem.fill_of_inRange _ _ (by decide) inside
      · have apart := pages_apart (aligned b (handed.isFrame b hb)) (aligned _ frame)
          (fun same => fresh (same ▸ hb)) inside
        have unmarked : (markTaken s).mem x = s.mem x := by
          refine Mem.write_of_ne _ _ ?_
          rintro rfl
          exact handed.ready.apart_bitmap hm (handed.isFrame b hb) inside (inRange_flagByte nibble)
        rw [← unmarked]
        exact Mem.fill_of_not_inRange _ _ (by decide) apart
  · omega

/-- The kernel's allocator is a source of frames, with a budget in which its answers are distinct. -/
def kernelSource (hm : Conformant m) (two : 2 ≤ frames m) (off : U64)
    (physical : ∀ b, IsFrame m b → b.toNat < 2 ^ 52)
    (distinct : DistinctAnswers m n) : FrameSource (budgetAlloc n) where
  Inv := Handed m off
  grant handed returns := handed.grant hm two physical distinct returns
  write handed statics offset same := handed.write hm statics offset same

/-- Within the budget the allocator stops only by halting. -/
theorem Handed.halted (hm : Conformant m) (handed : Handed m off taken s) (budget : taken.length < n)
    {e : Stop} (stopped : (budgetAlloc n true).run s = .error e s') : e = .halted := by
  have cursor := handed.cursor
  rw [run_budgetAlloc, if_neg (by omega)] at stopped
  rcases handed.ready.frameAlloc_cases hm true with ⟨-, call⟩ | ⟨-, call⟩ | ⟨-, -, call⟩
  · rw [call] at stopped
    cases stopped
  · rw [call] at stopped
    cases ends : walkTable (regions m) s.alloc.index with
    | none =>
      rw [ends] at stopped
      cases stopped
      rfl
    | some p =>
      rw [ends] at stopped
      cases stopped
  · rw [call] at stopped
    cases stopped
    rfl

/-- Within the budget the allocator returns as long as there are pages in the table. -/
theorem kernelSource_supplies (hm : Conformant m) (two : 2 ≤ frames m) (off : U64)
    (physical : ∀ b, IsFrame m b → b.toNat < 2 ^ 52) (distinct : DistinctAnswers m n) {k : ℕ}
    (budget : k < n) (room : k < capacity m) (small : k < 2 ^ 31) :
    (kernelSource hm two off physical distinct).Supplies k := by
  intro taken t few handed
  have handed : Handed m off taken t := handed
  have cursor := handed.cursor
  obtain ⟨e, home, -⟩ := handed.ready.frameMap
  have below := capacity_lt hm (home_mem home).1 (home_mem home).2 two
  have inside : t.alloc.index.toNat ≠ 2 * bitmapBytes m := by
    unfold bitmapBytes
    omega
  rw [run_budgetAlloc, if_neg (by omega)]
  have call := handed.ready.call hm true (Or.inl inside)
  obtain ⟨a, value⟩ := Option.ne_none_iff_exists'.1
    (answer_ne_none (show t.alloc.index.toNat < capacity m by omega) below.le (by omega))
  rw [value] at call
  exact ⟨a, call⟩

end Source

end Bintos
