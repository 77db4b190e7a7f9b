import Bintos.Boot.Source

/-!
# Memory management with its log

The functions of `memory/pmem.c` that log do the same as those without the calls of `logf`, as long as the
type of every entry of the memory map has a name (`initializeMemmapLogged_follows`).  A type without a name
is not the only one that stops them: for it the name in the log is never assigned.
-/

namespace Bintos

open Channel

/-! ### Logging and assertions -/

section Lines

variable {σ : Type} {o : Outside} {s : σ} {β : Type}

theorem emits_say (o : Outside) (c : LogCall) (s : σ) :
    Emits (logfPorts o) (say o c) s [c] (.ok () s) :=
  emits_send PortStop.boot c s

theorem emits_require {b : Bool} (holds : b = true) (expr : CString) (file : List U8) (line : U64) :
    Emits (logfPorts o) (require o b expr file line) s [] (.ok () s) := by
  rw [holds]
  exact Emits.pure () s

/-- A failed assertion logs itself and halts. -/
theorem require_false (expr : CString) (file : List U8) (line : U64) :
    (require o false expr file line : EStateM BootStop (σ × List Io) Unit) =
      say o (assertionLine o expr file line) >>= fun _ => throw .halted :=
  onChannel_bind PortStop.boot (logfPorts o (assertionLine o expr file line)) fun _ => hcf

theorem follows_require (o : Outside) (b : Bool) (expr : CString) (file : List U8) (line : U64) :
    Follows (logfPorts o) Stop.boot (require o b expr file line) (chassert b : Kern Pmem Unit) := by
  intro s
  cases b with
  | true => exact ⟨[], Emits.pure () s⟩
  | false =>
    rw [require_false]
    exact ⟨_, (emits_say o _ s).bind (Emits.throw _ s)⟩

theorem follows_say (o : Outside) (c : LogCall) :
    Follows (logfPorts o) Stop.boot (say o c) (pure () : Kern Pmem Unit) :=
  Follows.of_send _ _ c

theorem follows_quietly (o : Outside) (x : Kern Pmem β) :
    Follows (logfPorts o) Stop.boot (quietly x) x :=
  Follows.onState _ x

/-- The log may depend on the statics. -/
theorem follows_look {f : Kernel → LogKern β} {y : Kern Pmem β}
    (rest : ∀ k, Follows (logfPorts o) Stop.boot (f k) y) :
    Follows (logfPorts o) Stop.boot (quietly get >>= f) y := by
  intro k
  obtain ⟨out, emits⟩ := rest k k
  exact ⟨out, (emits_onState Stop.boot get k).bind emits⟩

end Lines

/-! ### The same effect -/

section Follows

variable {o : Outside} {e : MemmapEntry} {name : List U8} {r : List MemmapEntry}

theorem addRegionLogged_named (named : memmapTypeName e.type = some name) (regionIdx : U8) :
    addRegionLogged o regionIdx e = quietly (addRegion regionIdx e) >>= fun k =>
      say o (memmapLine e name) >>= fun _ => pure k := by
  rw [addRegionLogged, named]

theorem addRegionLogged_unnamed (unnamed : memmapTypeName e.type = none) (regionIdx : U8) :
    addRegionLogged o regionIdx e = quietly (addRegion regionIdx e) >>= fun _ => throw .undefined := by
  rw [addRegionLogged, unnamed]
  rfl

theorem addRegionLogged_follows (named : memmapTypeName e.type = some name) (regionIdx : U8) :
    Follows (logfPorts o) Stop.boot (addRegionLogged o regionIdx e) (addRegion regionIdx e) := by
  rw [addRegionLogged_named named]
  exact (follows_quietly o _).before fun k => (Follows.pure k).after _ _

theorem locateForBitmapLogged_follows (o : Outside) :
    Follows (logfPorts o) Stop.boot (locateForBitmapLogged o) locateForBitmap :=
  (follows_quietly o _).bind fun _ => (follows_require o _ _ _ _).bind fun _ =>
    (follows_quietly o _).bind fun _ => (follows_quietly o _).bind fun _ =>
      (follows_quietly o _).bind fun _ => (follows_quietly o _).bind fun _ =>
        (follows_require o _ _ _ _).bind fun _ => (follows_quietly o _).bind fun _ =>
          (follows_quietly o _).before fun _ => follows_look fun _ => follows_say o _

theorem initializeBitmapLogged_follows (o : Outside) :
    Follows (logfPorts o) Stop.boot (initializeBitmapLogged o) (initializeBitmap o.fuel) :=
  (follows_quietly o _).bind fun _ => (follows_require o _ _ _ _).bind fun _ =>
    (follows_quietly o _).before fun _ => follows_say o _

/-- **The log changes nothing.**  When all types have names, `initialize_memmap` with its log ends as it
does without, with the same memory and statics, whatever it starts from and however it ends. -/
theorem initializeMemmapLogged_follows (o : Outside) (offset : U64)
    (named : ∀ e ∈ r, memmapTypeName e.type ≠ none) :
    Follows (logfPorts o) Stop.boot (initializeMemmapLogged o r offset)
      (initializeMemmap o.fuel r offset) := by
  refine (follows_quietly o _).bind fun _ => (follows_quietly o _).bind fun _ =>
    (follows_require o _ _ _ _).bind fun _ => Follows.bind (Follows.foldlM ?_ _) fun regionIdx => ?_
  · intro k e he
    obtain ⟨name, known⟩ := Option.ne_none_iff_exists'.1 (named e he)
    exact addRegionLogged_follows known k
  · refine (follows_quietly o _).bind fun _ => follows_look fun _ => Follows.after _ _ ?_
    exact (follows_quietly o _).bind fun _ => (locateForBitmapLogged_follows o).bind fun _ =>
      initializeBitmapLogged_follows o

/-- 256 usable pages and a framebuffer. -/
theorem screenMachine_follows :
    Follows (logfPorts ⟨fun _ _ => 0x20, 129, fun _ => 0, []⟩) Stop.boot
      (initializeMemmapLogged ⟨fun _ _ => 0x20, 129, fun _ => 0, []⟩ screenMachine higherHalf)
      (initializeMemmap 129 screenMachine higherHalf) :=
  initializeMemmapLogged_follows ⟨fun _ _ => 0x20, 129, fun _ => 0, []⟩ higherHalf (by decide)

end Follows

/-! ### The lines -/

/-- The lines for the entries of a map. -/
def memmapLines (r : List MemmapEntry) : List LogCall :=
  r.filterMap fun e => (memmapTypeName e.type).map (memmapLine e)

theorem memmapLines_cons {e : MemmapEntry} {name : List U8} (named : memmapTypeName e.type = some name)
    (r : List MemmapEntry) : memmapLines (e :: r) = memmapLine e name :: memmapLines r := by
  simp [memmapLines, named]

section Lines

variable {o : Outside} {r l : List MemmapEntry} {offset : U64} {β : Type} {x : Kern Pmem β} {b : β}
  {k k' : Kernel}

theorem emits_quietly (returns : x.run k = .ok b k') :
    Emits (logfPorts o) (quietly x) k [] (.ok b k') := by
  have emits := @emits_onState BootStop PortStop Kernel (List Io) LogCall β (logfPorts o) _ Stop.boot x k
  rwa [returns] at emits

theorem emits_look {f : Kernel → LogKern β} {out : List LogCall} {r : EStateM.Result BootStop Kernel β}
    (rest : Emits (logfPorts o) (f k) k out r) :
    Emits (logfPorts o) (quietly get >>= f) k out r :=
  (emits_quietly (x := get) rfl).bind_nil rest

theorem emits_change {f : Unit → LogKern β} {out : List LogCall} {r : EStateM.Result BootStop Kernel β}
    (g : Kernel → Kernel) (rest : Emits (logfPorts o) (f ()) (g k) out r) :
    Emits (logfPorts o) (quietly (modify g) >>= f) k out r :=
  (emits_quietly (x := modify g) rfl).bind_nil rest

theorem exists_run_addRegion (regionIdx : U8) (e : MemmapEntry) (k : Kernel) :
    ∃ i k', (addRegion regionIdx e).run k = .ok i k' := by
  by_cases free : e.type = memmapUsable
  · exact ⟨_, _, run_addRegion_usable free regionIdx k⟩
  · exact ⟨_, _, run_addRegion_other free regionIdx k⟩

theorem emits_addRegion {e : MemmapEntry} {name : List U8} {i j : U8}
    (named : memmapTypeName e.type = some name) (returns : (addRegion i e).run k = .ok j k') :
    Emits (logfPorts o) (addRegionLogged o i e) k [memmapLine e name] (.ok j k') := by
  rw [addRegionLogged_named named]
  exact (emits_quietly returns).bind ((emits_say o _ k').bind (Emits.pure j k'))

theorem emits_addRegions (named : ∀ e ∈ l, memmapTypeName e.type ≠ none) {i j : U8}
    (returns : (l.foldlM addRegion i).run k = .ok j k') :
    Emits (logfPorts o) (l.foldlM (addRegionLogged o) i) k (memmapLines l) (.ok j k') := by
  induction l generalizing i k with
  | nil =>
    cases returns
    exact Emits.pure _ _
  | cons e l ih =>
    rw [List.forall_mem_cons] at named
    obtain ⟨name, known⟩ := Option.ne_none_iff_exists'.1 named.1
    obtain ⟨i', t, first, rest⟩ := run_bind_eq_ok.1 returns
    rw [List.foldlM_cons, memmapLines_cons known]
    exact (emits_addRegion known first).bind (ih named.2 rest)

/-- An entry whose type has no name stops the loop, after the same lines whatever the ports do. -/
theorem emits_addRegions_unnamed (unnamed : ∃ e ∈ l, memmapTypeName e.type = none) (i : U8)
    (k : Kernel) : ∃ out k', ∀ o, Emits (logfPorts o) (l.foldlM (addRegionLogged o) i) k out
      (.error .undefined k') := by
  induction l generalizing i k with
  | nil =>
    obtain ⟨e, he, -⟩ := unnamed
    cases he
  | cons e l ih =>
    obtain ⟨i', t, first⟩ := exists_run_addRegion i e k
    simp only [List.foldlM_cons]
    cases known : memmapTypeName e.type with
    | none =>
      refine ⟨[], t, fun o => ?_⟩
      rw [addRegionLogged_unnamed known]
      exact ((emits_quietly first).bind_nil (Emits.throw _ t)).bind_error
    | some name =>
      obtain ⟨d, hd, none⟩ := unnamed
      rcases List.mem_cons.1 hd with rfl | later
      · rw [known] at none
        cases none
      · obtain ⟨out, k', emits⟩ := ih ⟨d, later, none⟩ i' t
        exact ⟨_, k', fun o => (emits_addRegion known first).bind (emits o)⟩

theorem emits_initializeMemmap_unnamed (few : r.length ≤ maxRegions)
    (unnamed : ∃ e ∈ r, memmapTypeName e.type = none) (offset : U64) (k : Kernel) :
    ∃ out k', ∀ o, Emits (logfPorts o) (initializeMemmapLogged o r offset) k out
      (.error .undefined k') := by
  obtain ⟨out, k', emits⟩ := emits_addRegions_unnamed unnamed 0
    { { k with hhdmoff := offset } with alloc := { k.alloc with map := some r } }
  refine ⟨out, k', fun o => ?_⟩
  rw [initializeMemmapLogged]
  refine emits_change _ (emits_change _ ((emits_require (decide_eq_true few) _ _ _).bind_nil ?_))
  exact (emits o).bind_error

/-- The search for room keeps the numbers of bytes and frames. -/
theorem foldlM_fitBitmap_keeps {i j : U8} (returns : (l.foldlM fitBitmap i).run k = .ok j k') :
    k'.alloc.initFreeSpace = k.alloc.initFreeSpace ∧ k'.alloc.maxFrames = k.alloc.maxFrames := by
  induction l generalizing i k with
  | nil =>
    cases returns
    exact ⟨rfl, rfl⟩
  | cons e l ih =>
    obtain ⟨i', t, first, rest⟩ := run_bind_eq_ok.1 returns
    have kept := ih rest
    by_cases free : e.type = memmapUsable
    · rw [run_fitBitmap_usable free] at first
      cases first
      split_ifs at kept <;> exact kept
    · rw [run_fitBitmap_other free] at first
      cases first
      exact kept

theorem chassert_eq_ok {b : Bool} :
    (chassert b : Kern Pmem Unit).run k = .ok () k' ↔ b = true ∧ k = k' := by
  cases b <;> simp

theorem emits_locateForBitmap (returns : locateForBitmap.run k = .ok () k') :
    Emits (logfPorts o) (locateForBitmapLogged o) k [frameMapLine k'.alloc] (.ok () k') ∧
      k'.alloc.initFreeSpace = k.alloc.initFreeSpace ∧ k'.alloc.maxFrames = k.alloc.maxFrames := by
  rw [locateForBitmap] at returns
  obtain ⟨_, _, ⟨⟩, returns⟩ := run_bind_eq_ok.1 returns
  obtain ⟨_, _, asserted, returns⟩ := run_bind_eq_ok.1 returns
  obtain ⟨known, rfl⟩ := chassert_eq_ok.1 asserted
  obtain ⟨_, _, ⟨⟩, returns⟩ := run_bind_eq_ok.1 returns
  obtain ⟨_, _, ⟨⟩, returns⟩ := run_bind_eq_ok.1 returns
  obtain ⟨j, t, search, returns⟩ := run_bind_eq_ok.1 returns
  obtain ⟨_, _, ⟨⟩, returns⟩ := run_bind_eq_ok.1 returns
  obtain ⟨_, _, asserted, returns⟩ := run_bind_eq_ok.1 returns
  obtain ⟨found, rfl⟩ := chassert_eq_ok.1 asserted
  obtain ⟨_, _, ⟨⟩, ⟨⟩⟩ := run_bind_eq_ok.1 returns
  have kept := foldlM_fitBitmap_keeps search
  refine ⟨?_, kept⟩
  rw [locateForBitmapLogged]
  refine emits_look ((emits_require known _ _ _).bind_nil ?_)
  refine emits_change _ (emits_look ((emits_quietly search).bind_nil ?_))
  refine emits_look ((emits_require found _ _ _).bind_nil ?_)
  exact emits_look (emits_change _ (emits_look (emits_say o _ _)))

theorem emits_initializeBitmap (returns : (initializeBitmap o.fuel).run k = .ok () k') :
    Emits (logfPorts o) (initializeBitmapLogged o) k [bitmapLine] (.ok () k') ∧ k'.alloc = k.alloc := by
  rw [initializeBitmap] at returns
  obtain ⟨_, _, ⟨⟩, returns⟩ := run_bind_eq_ok.1 returns
  obtain ⟨_, _, asserted, returns⟩ := run_bind_eq_ok.1 returns
  obtain ⟨found, rfl⟩ := chassert_eq_ok.1 asserted
  refine ⟨?_, (run_initializeBitmapLoop returns (Nat.zero_le _)).2.1⟩
  rw [initializeBitmapLogged]
  refine emits_look ((emits_require found _ _ _).bind_nil ?_)
  exact (emits_quietly returns).bind_nil (emits_say o _ _)

/-- What is logged up to the search for room. -/
theorem emits_readMemmap (named : ∀ e ∈ r, memmapTypeName e.type ≠ none)
    (returns : (readMemmap r offset).run k = .ok () k') {out : List LogCall}
    {res : EStateM.Result BootStop Kernel Unit}
    (rest : Emits (logfPorts o) (locateForBitmapLogged o >>= fun _ => initializeBitmapLogged o) k' out
      res) :
    Emits (logfPorts o) (initializeMemmapLogged o r offset) k
      (memmapLines r ++ (usableLine k'.alloc :: out)) res := by
  rw [readMemmap] at returns
  obtain ⟨_, _, ⟨⟩, returns⟩ := run_bind_eq_ok.1 returns
  obtain ⟨_, _, ⟨⟩, returns⟩ := run_bind_eq_ok.1 returns
  obtain ⟨_, _, asserted, returns⟩ := run_bind_eq_ok.1 returns
  obtain ⟨few, rfl⟩ := chassert_eq_ok.1 asserted
  obtain ⟨regionIdx, t, entries, returns⟩ := run_bind_eq_ok.1 returns
  obtain ⟨_, _, ⟨⟩, ⟨⟩⟩ := run_bind_eq_ok.1 returns
  rw [initializeMemmapLogged]
  refine emits_change _ (emits_change _ ((emits_require few _ _ _).bind_nil ?_))
  refine (emits_addRegions named entries).bind (emits_change _ (emits_look ?_))
  exact (emits_say o (usableLine { t.alloc with
    maxFrames := t.alloc.initFreeSpace / frameAllocationSize }) _).bind (emits_change _ rest)

/-- The lines of `initialize_memmap`, with the statics that it leaves. -/
def initLines (r : List MemmapEntry) (p : Pmem) : List LogCall :=
  memmapLines r ++ [usableLine p, frameMapLine p, bitmapLine]

/-- **The log of `initialize_memmap`.**  When all types have names, a run that returns without the log
returns with it, and the log tells every entry of the map and the statics at the end. -/
theorem emits_initializeMemmap (named : ∀ e ∈ r, memmapTypeName e.type ≠ none)
    (returns : (initializeMemmap o.fuel r offset).run k = .ok () k') :
    Emits (logfPorts o) (initializeMemmapLogged o r offset) k (initLines r k'.alloc) (.ok () k') := by
  rw [initializeMemmap_eq] at returns
  obtain ⟨_, t, entries, returns⟩ := run_bind_eq_ok.1 returns
  obtain ⟨_, u, search, bitmap⟩ := run_bind_eq_ok.1 returns
  obtain ⟨located, space, frames⟩ := emits_locateForBitmap (o := o) search
  obtain ⟨filled, statics⟩ := emits_initializeBitmap bitmap
  have usable : usableLine k'.alloc = usableLine t.alloc := by
    rw [statics, usableLine, usableLine, space, frames]
  rw [initLines, usable, statics]
  exact emits_readMemmap named entries (located.bind filled)

end Lines

end Bintos
