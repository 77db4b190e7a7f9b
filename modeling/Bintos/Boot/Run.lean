import Bintos.Boot.Kmain
import Bintos.Serial.Setup

/-!
# Where `kmain` comes to

On a machine on which the boot has room (`Bootable`) and the framebuffer is one of the memory map
(`Displays`), `kmain` comes to its end.  It leaves behind a machine with its own page tables loaded, the
gates of all exceptions in place and its text on the screen (`Completed`), and its log is on COM1
(`kmain_completes`) and on the line (`kmain_on_line`).  What it takes from the memory map without a check
is that every type has a name (`kmain_undefined`).
-/

namespace Bintos

open Channel

/-- The memory map, the image and the stack are as the boot needs them. -/
structure Bootable (image : Image) (limine : Limine) (rsp : U64) : Prop where
  conformant : Conformant limine.memmap
  two : 2 ≤ frames limine.memmap
  short : bitmapBytes limine.memmap < 2 ^ 32
  mapped : ∀ e ∈ usable limine.memmap, e.base + limine.offset ≠ 0#64
  inputs : BootInputs limine.memmap limine.physicalBase image.kernelEnd rsp limine.offset
  layout : Layout limine.memmap image.kernelEnd rsp limine.offset
  below : image.kernelEnd < 0xfffffffffffff000#64
  low : ∀ a, IsFrame limine.memmap a → a.toNat < 2 ^ 40
  room : bootBudget limine.memmap image.kernelEnd ≤ capacity limine.memmap
  small : bootBudget limine.memmap image.kernelEnd ≤ 2 ^ 20
  image : ∀ v, kernelVma ≤ v → v ≤ image.kernelEnd →
    ¬ IsUsable limine.memmap (limine.physicalBase + (v - kernelVma))

/-- The first framebuffer is one of the memory map, and it has room for the text of `kmain`. -/
structure Displays (image : Image) (limine : Limine) (f : LimineFramebuffer) : Prop where
  first : ∃ rest, limine.framebuffers = some (f :: rest)
  grid : (f.screen image.font).Grid
  row : 1 ≤ (f.screen image.font).rows.toNat
  columns : 11 ≤ (f.screen image.font).cols.toNat
  place : ∃ e, ScreenAt limine.memmap limine.offset f.address (f.screen image.font).size e
  apart : ∀ e ∈ limine.memmap, e.type = memmapFramebuffer → ∀ v, kernelVma ≤ v →
    v ≤ image.kernelEnd → (limine.physicalBase + (v - kernelVma)).toNat ∉ e.extent

/-- The table of gates is in the image and zeroed. -/
structure TableZeroed (image : Image) (limine : Limine) (mem : Mem) : Prop where
  kernel : ∀ x, Mem.InRange image.idt 4096 x → kernelVma ≤ x ∧ x ≤ image.kernelEnd
  zeroed : ∀ x, Mem.InRange image.idt 4096 x → mem (limine.physicalBase + (x - kernelVma)) = 0

section Bootable

variable {image : Image} {limine : Limine} {rsp : U64}

/-- The boot comes to the same state with all budgets that are large enough. -/
theorem Bootable.boots (boot : Bootable image limine rsp) (mem : Mem) : ∃ n s₀ s₁,
    (∀ fuel, n ≤ fuel →
      (initializeMemmap fuel limine.memmap limine.offset).run (atBoot mem) = .ok () s₀ ∧
      (initializePaging frameAlloc fuel limine.memmap limine.physicalBase image.kernelEnd rsp).run s₀ =
        .ok () s₁) ∧
    CleanBoot limine.memmap limine.offset limine.physicalBase image.kernelEnd rsp s₀ s₁ := by
  have hm := boot.conformant
  obtain ⟨e, home⟩ := exists_home hm (Nat.one_le_of_lt boot.two)
  obtain ⟨s₀, started⟩ := initializeMemmap_returns hm home (boot.mapped e (home_mem home).1) boot.short
    (Nat.lt_succ_self _) mem
  obtain ⟨s₁, clean⟩ := exists_cleanBoot hm ⟨_, mem, started⟩ boot.inputs boot.layout boot.below
    boot.two boot.low boot.room boot.small
  obtain ⟨n, -, paged⟩ := clean.loaded
  refine ⟨max (bitmapBytes limine.memmap + 1) n, s₀, s₁, fun fuel enough => ⟨?_, ?_⟩, clean⟩
  · exact (upToBudget_initializeMemmap _ _ (by omega)).of_ok started
  · exact (upToBudget_initializePaging _ _ _ _ _ (by omega)).of_ok paged

end Bootable

/-! ### The text -/

section Text

variable {image : Image} {limine : Limine} {f : LimineFramebuffer} {k : ℕ} {c : U16}

/-- The characters of the text of `kmain`. -/
def kmainText : List U16 := Screen.chars (ascii "Please work")

theorem length_kmainText : kmainText.length = 11 := by decide

theorem plain_kmainText : 10 ∉ kmainText ∧ 9 ∉ kmainText := by decide

/-- The text is on the first line. -/
theorem Displays.layout_iff (shows : Displays image limine f) (q : TextGrid.Cell) (c : U16) :
    (q, c) ∈ TextGrid.layout (f.screen image.font).cols.toNat 10 (0, 0) kmainText ↔
      q.1 = 0 ∧ kmainText[q.2]? = some c := by
  have room : 0 + kmainText.length ≤ (f.screen image.font).cols.toNat := by
    rw [length_kmainText]
    exact shows.columns
  rw [TextGrid.mem_layout_line plain_kmainText.1 room]
  simp

/-- The text fits on the screen. -/
theorem Displays.rows (shows : Displays image limine f) (q : TextGrid.Cell) (c : U16)
    (taken : (q, c) ∈ TextGrid.layout (f.screen image.font).cols.toNat 10 (0, 0) kmainText) :
    q.1 < (f.screen image.font).rows.toNat := by
  have row := shows.row
  rw [((shows.layout_iff q c).1 taken).1]
  omega

theorem Displays.column (shows : Displays image limine f) :
    0 < (f.screen image.font).cols.toNat := by
  have columns := shows.columns
  omega

/-- The stores of the text are inside the framebuffer. -/
theorem Displays.inside (shows : Displays image limine f) :
    ∀ px ∈ ((f.screen image.font).puts (ascii "Please work")).writes,
      px.1 < (f.screen image.font).size := by
  have fits : (f.screen image.font).Fits kmainText :=
    Screen.fits_of_layout shows.grid (p := (0, 0)) shows.column (fun _ => rfl) plain_kmainText.2 shows.rows
  rw [Screen.puts_eq]
  exact (Screen.inside_text (shows.grid.pitch_pos shows.column) _).2
    ⟨fun px none => absurd none List.not_mem_nil, fits⟩

/-- The framebuffer `fb` with the text of `kmain` in the first line. -/
def kmainPicture (s : Screen) (fb : ℕ → U32) (k : ℕ) : U32 :=
  if k / s.pitch.toNat / 16 = 0 then
    (kmainText[k % s.pitch.toNat / 8]?.map (s.glyphPixel · k)).getD (fb k)
  else fb k

theorem Displays.after_puts (shows : Displays image limine f) (fb : ℕ → U32) (k : ℕ) :
    Stores.after ((f.screen image.font).puts (ascii "Please work")).writes fb k =
      kmainPicture (f.screen image.font) fb k := by
  obtain ⟨shown, kept⟩ := Screen.after_text shows.grid (p := (0, 0)) shows.column (fun _ => rfl)
    plain_kmainText.2 shows.rows fb k
  rw [Screen.puts_eq, kmainPicture]
  by_cases row : k / (f.screen image.font).pitch.toNat / 16 = 0
  · rw [if_pos row]
    cases char : kmainText[k % (f.screen image.font).pitch.toNat / 8]? with
    | some c => exact shown c ((shows.layout_iff _ c).2 ⟨row, char⟩)
    | none =>
      refine kept fun c taken => ?_
      have here := ((shows.layout_iff _ c).1 taken).2
      rw [Screen.cellOf, char] at here
      cases here
  · rw [if_neg row]
    exact kept fun c taken => row ((shows.layout_iff _ c).1 taken).1

end Text

/-! ### The gates in memory -/

section Gates

variable {image : Image} {physicalBase x : U64}

/-- Memory when the gates have been set. -/
def withGates (image : Image) (physicalBase : U64) (mem : Mem) : Mem :=
  ofImageView physicalBase
    (initializeExceptions image.idt image.stubs (imageView physicalBase mem)).2

/-- Only the table changes. -/
theorem withGates_of_apart
    (apart : ∀ v, Mem.InRange image.idt 4096 v → x ≠ physicalBase + (v - kernelVma)) (mem : Mem) :
    withGates image physicalBase mem x = mem x := by
  have outside : ¬ Mem.InRange image.idt 4096 (x - physicalBase + kernelVma) := by
    intro inside
    apply apart _ inside
    ring
  have place : physicalBase + (x - physicalBase + kernelVma - kernelVma) = x := by ring
  rw [withGates, ofImageView, initializeExceptions_of_not_inRange outside, imageView, place]

end Gates

/-! ### The end -/

/-- The machine `w` when `kmain` has come to its end; `mem` is memory as it was handed over. -/
structure Completed (image : Image) (limine : Limine) (rsp : U64) (f : LimineFramebuffer) (mem : Mem)
    (s₀ s₁ : Kernel) (w : Boot) : Prop where
  boot : CleanBoot limine.memmap limine.offset limine.physicalBase image.kernelEnd rsp s₀ s₁
  /-- the statics are those that the boot has left -/
  kernel : w.kernel = { s₁ with mem := w.kernel.mem }
  loaded : w.kernel.cr3 = some s₁.pml4Addr
  /-- through its page tables the processor finds the stubs of all exceptions -/
  gates : ∃ idtr, w.idtr = some idtr ∧ ∀ vector : U8,
    idtr.gate (viewFrom s₁.pml4Addr w.kernel.mem) vector =
      some (if vector.toNat < 32 then gateFor (image.stubs vector.toNat) 0x8E else Gate.zero)
  handlers : w.handlers = registerHandlers noHandlers
  /-- the text is on the screen, and the other pixels are as they were -/
  shows : ∀ k < (f.screen image.font).size, pixelOf (f.address - limine.offset) w.kernel.mem k =
    kmainPicture (f.screen image.font) (pixelOf (f.address - limine.offset) mem) k
  /-- apart from usable memory, the table and the screen nothing was written -/
  kept : ∀ x, ¬ IsUsable limine.memmap x →
    (∀ v, Mem.InRange image.idt 4096 v → x ≠ limine.physicalBase + (v - kernelVma)) →
    ¬ Mem.InRange (f.address - limine.offset) (4 * (f.screen image.font).size) x →
      w.kernel.mem x = mem x
  masked : w.interrupts = false

section End

variable {image : Image} {limine : Limine} {rsp : U64} {f : LimineFramebuffer} {mem : Mem} {fuel : ℕ}
  {s₀ s₁ : Kernel}

/-- The text is drawn through the page tables, and of physical memory only the screen changes. -/
theorem Displays.exists_drawn (boot : Bootable image limine rsp) (shows : Displays image limine f)
    (clean : CleanBoot limine.memmap limine.offset limine.physicalBase image.kernelEnd rsp s₀ s₁) :
    (pageSpace s₁.pml4Addr).writeAll s₁.mem
        (putsWrites f.address (f.screen image.font) (ascii "Please work")) =
      some (Stores.after (AddressSpace.cellWrites
        (placeOf limine.physicalBase image.kernelEnd limine.offset)
          (putsWrites f.address (f.screen image.font) (ascii "Please work"))) s₁.mem) ∧
    ∀ b ∈ putsWrites f.address (f.screen image.font) (ascii "Please work"),
      Resident limine.memmap image.kernelEnd rsp limine.offset b.1 ∧
      Mem.InRange (f.address - limine.offset) (4 * (f.screen image.font).size)
        (placeOf limine.physicalBase image.kernelEnd limine.offset b.1) ∧
      placeOf limine.physicalBase image.kernelEnd limine.offset b.1 ∉
        imageBytes limine.physicalBase image.kernelEnd := by
  have hm := boot.conformant
  obtain ⟨e, place⟩ := shows.place
  have bytes (b : U64 × U8)
      (hb : b ∈ putsWrites f.address (f.screen image.font) (ascii "Please work")) :
      Mem.InRange f.address (4 * (f.screen image.font).size) b.1 :=
    Mem.inRange_of_mem_wordStores place.size_le shows.inside (List.mem_reverse.1 hb)
  refine ⟨clean.writeAll_resident hm boot.image (Set.eqOn_refl _ _) _ fun b hb =>
    (place.resident hm clean (bytes b hb)).1, fun b hb => ?_⟩
  obtain ⟨resident, direct⟩ := place.resident hm clean (bytes b hb)
  refine ⟨resident, ?_, ?_⟩
  · have distance : b.1 - limine.offset - (f.address - limine.offset) = b.1 - f.address := by ring
    rw [direct, Mem.InRange, distance]
    exact bytes b hb
  · rintro ⟨v, ⟨above, below⟩, there⟩
    apply shows.apart e place.mem place.framebuffer v above below
    rw [← there, direct]
    exact place.mem_extent hm clean (bytes b hb)

/-- The pixels are not in the table. -/
theorem Displays.pixel_withGates (boot : Bootable image limine rsp) (shows : Displays image limine f)
    (table : TableZeroed image limine mem)
    (clean : CleanBoot limine.memmap limine.offset limine.physicalBase image.kernelEnd rsp s₀ s₁) {k : ℕ}
    (hk : k < (f.screen image.font).size) :
    pixelOf (f.address - limine.offset) (withGates image limine.physicalBase mem) k =
      pixelOf (f.address - limine.offset) mem k := by
  obtain ⟨e, place⟩ := shows.place
  apply Mem.readLE_congr (by decide)
  intro x hx
  have near : Mem.InRange f.address (4 * (f.screen image.font).size) (x + limine.offset) := by
    have inside := (Mem.inRange_entry_iff place.size_le hk).1 hx
    have distance : x + limine.offset - f.address = x - (f.address - limine.offset) := by ring
    rw [Mem.InRange, distance]
    omega
  have inside := place.mem_extent boot.conformant clean near
  rw [BitVec.add_sub_cancel] at inside
  apply withGates_of_apart
  rintro v hv rfl
  obtain ⟨above, below⟩ := table.kernel v hv
  exact shows.apart e place.mem place.framebuffer v above below inside

/-- The machine after the boot and the text. -/
theorem completed (boot : Bootable image limine rsp) (shows : Displays image limine f)
    (table : TableZeroed image limine mem)
    (started : (initializeMemmap fuel limine.memmap limine.offset).run
      (atBoot (withGates image limine.physicalBase mem)) = .ok () s₀)
    (clean : CleanBoot limine.memmap limine.offset limine.physicalBase image.kernelEnd rsp s₀ s₁) :
    ∃ mem', (pageSpace s₁.pml4Addr).writeAll s₁.mem
        (putsWrites f.address (f.screen image.font) (ascii "Please work")) = some mem' ∧
      Completed image limine rsp f mem s₀ s₁
        { kernel := { s₁ with mem := mem' }
          idtr := some (initializeExceptions image.idt image.stubs
            (imageView limine.physicalBase mem)).1
          handlers := registerHandlers noHandlers
          screen := some (f.address, (f.screen image.font).puts (ascii "Please work"))
          interrupts := false } := by
  have hm := boot.conformant
  obtain ⟨e, place⟩ := shows.place
  obtain ⟨drawn, bytes⟩ := shows.exists_drawn boot clean
  obtain ⟨mem', drawn', picture⟩ :=
    clean.pixels hm boot.image (Set.eqOn_refl _ _) place shows.inside
  have written := Option.some.inj (drawn'.symm.trans drawn)
  obtain ⟨taken, boots⟩ := clean.boots hm
  refine ⟨mem', drawn', clean, rfl, boots.mapped.cr3, ⟨_, rfl, ?_⟩, rfl, fun k hk => ?_, ?_, rfl⟩
  · have loaded : TableLoaded limine.physicalBase image.kernelEnd image.idt
        (withGates image limine.physicalBase mem)
        (initializeExceptions image.idt image.stubs (imageView limine.physicalBase mem)).2 := by
      refine ⟨table.kernel, fun x _ => ?_⟩
      have place : limine.physicalBase + (x - kernelVma) - limine.physicalBase + kernelVma = x := by ring
      rw [withGates, ofImageView, place]
    show ∀ vector, Idtr.gate _ (viewFrom s₁.pml4Addr mem') vector = _
    rw [written]
    exact clean.gate_eq hm started boot.image table.zeroed rfl loaded (Set.eqOn_refl _ _) _
      (fun b hb => (bytes b hb).1) fun b hb there => (bytes b hb).2.2 (loaded.subset there)
  · have before := (clean.pixel_eq hm started boot.image place hk).trans
      (shows.pixel_withGates boot table clean hk)
    rw [← shows.after_puts, ← Stores.after_congr before]
    exact picture k hk
  · intro x unusable apart outside
    have past : ∀ w ∈ AddressSpace.cellWrites
        (placeOf limine.physicalBase image.kernelEnd limine.offset)
          (putsWrites f.address (f.screen image.font) (ascii "Please work")), w.1 ≠ x := by
      intro w hw same
      obtain ⟨b, hb, rfl⟩ := List.mem_map.1 hw
      exact outside (same ▸ (bytes b (List.mem_reverse.1 hb)).2.1)
    show mem' x = mem x
    rw [written, Stores.after_of_not_mem past, clean.mem_eq hm started unusable, withGates_of_apart apart]

/-- `kmain` comes to its end once the ports take all of its log. -/
theorem kmain_ends (boot : Bootable image limine rsp) (shows : Displays image limine f)
    (table : TableZeroed image limine mem) (named : ∀ e ∈ limine.memmap, memmapTypeName e.type ≠ none)
    (supported : limine.supported = true) (interrupts : Bool) :
    ∃ n w s₀ s₁, Completed image limine rsp f mem s₀ s₁ w ∧ ∀ (o : Outside) (h : List Io),
      n ≤ o.fuel →
      (logAll o (serialLines (initSerial o.uart COM1 []).1 ++
        kmainLines limine f s₀.alloc s₁.pml4Addr)).run (initSerial o.uart COM1 []).2 = .ok () h →
      (kmain o image limine rsp).run (handedOver mem interrupts, []) = .error .halted (w, h) := by
  obtain ⟨n, s₀, s₁, runs, clean⟩ := boot.boots (withGates image limine.physicalBase mem)
  obtain ⟨mem', drawn, done⟩ := completed boot shows table (runs n le_rfl).1 clean
  obtain ⟨rest, first⟩ := shows.first
  refine ⟨n, _, s₀, s₁, done, fun o h enough sent => ?_⟩
  obtain ⟨started, paged⟩ := runs o.fuel enough
  have loaded : s₁.cr3 = some s₁.pml4Addr := done.loaded
  have ends := emits_kmainMemory (b := prepared image f
    (setGates image limine.physicalBase (handedOver mem interrupts))) named started paged rfl loaded drawn
  have ready := run_kmainReady (b := handedOver mem interrupts) ends sent
  rw [kmain, supported, first]
  exact ready

end End

/-! ### A machine -/

/-- A framebuffer of 128 times 16 pixels. -/
def screenBuffer : LimineFramebuffer := ⟨0xffff8000fd000000, 128, 16, 512⟩

def screenLimine : Limine where
  supported := true
  framebuffers := some [screenBuffer]
  kernelFile := ⟨0xffffffff80000000, 0x2000, ascii "/boot/kernel"⟩
  offset := higherHalf
  memmap := screenMachine
  physicalBase := 0x1000000

/-- The table of gates is on the second page of the kernel. -/
def screenImage : Image where
  kernelEnd := 0xffffffff80001fff
  idt := 0xffffffff80001000
  stubs := spacedStubs
  font _ := 0xff

theorem bootable_screenImage : Bootable screenImage screenLimine 0xffff800000080000 where
  conformant := conformant_screenMachine
  two := by decide
  short := by decide
  mapped := by decide
  inputs := bootInputs_screenMachine
  layout := layout_screenMachine
  below := by decide
  low _ frame := low_screenMachine frame
  room := by decide
  small := by decide
  image := image_screenMachine

theorem displays_screenBuffer : Displays screenImage screenLimine screenBuffer where
  first := ⟨[], rfl⟩
  grid := Screen.grid_initFont _ _ _ (by decide) (by decide)
  row := by decide
  columns := by decide
  place := ⟨⟨0xfd000000, 0x2000, memmapFramebuffer⟩, List.mem_cons_of_mem _ List.mem_cons_self, rfl,
    by decide, by decide, by decide⟩
  apart e he framebuffer v above below := by
    rw [framebuffer_screenMachine he framebuffer, MemmapEntry.extent, Set.mem_Ico, BitVec.toNat_add,
      BitVec.toNat_sub_of_le above]
    have vma := toNat_kernelVma
    have below : v.toNat ≤ 0xffffffff80001fff := below
    have base : screenLimine.physicalBase.toNat = 0x1000000 := rfl
    have low : (0xfd000000 : U64).toNat = 0xfd000000 := rfl
    dsimp only
    omega

theorem tableZeroed_screenImage : TableZeroed screenImage screenLimine fun _ => 0 where
  kernel := (tableLoaded_second fun _ => 0).kernel
  zeroed _ _ := rfl

theorem named_screenMachine : ∀ e ∈ screenMachine, memmapTypeName e.type ≠ none := by decide

/-- A port that is ready all the time. -/
theorem drains_ready : Drains (fun _ _ => 0x20) COM1 :=
  fun _ => ⟨0, show decide ((0x20 : U8) &&& 0x20 ≠ 0) = true by decide⟩

/-! ### The runs -/

section Runs

variable {image : Image} {limine : Limine} {rsp : U64} {f : LimineFramebuffer} {mem : Mem}

/-- **Types without a name.**  When the memory map has an entry whose type the `switch` of
`initialize_memmap` has no case for, as ACPI NVS memory, `kmain` uses a variable that was not
assigned. -/
theorem kmain_undefined {rest : List LimineFramebuffer} (few : limine.memmap.length ≤ maxRegions)
    (unnamed : ∃ e ∈ limine.memmap, memmapTypeName e.type = none) (supported : limine.supported = true)
    (first : limine.framebuffers = some (f :: rest)) {o : Outside} (drains : Drains o.uart COM1)
    (image : Image) (rsp : U64) (b : Boot) (h : List Io) :
    ∃ n w h', ∀ fuel, n < fuel →
      (kmain { o with fuel } image limine rsp).run (b, h) = .error .undefined (w, h') := by
  obtain ⟨out, w, stops⟩ := emits_kmainMemory_unnamed few unnamed image rsp
    (prepared image f (setGates image limine.physicalBase b))
  obtain ⟨n, d, -, ends⟩ := kmain_stops (fun fuel => stops { o with fuel }) supported first drains h
  exact ⟨n, w, d ++ (initSerial o.uart COM1 h).2, ends⟩

/-- ACPI NVS memory. -/
theorem screenLimine_undefined : ∃ n w h', ∀ fuel, n < fuel →
    (kmain ⟨fun _ _ => 0x20, fuel, fun _ => 0, []⟩ screenImage
      { screenLimine with memmap := screenMachine ++ [⟨0x7f000000, 0x1000, 3⟩] }
      0xffff800000080000).run (handedOver (fun _ => 0) true, []) = .error .undefined (w, h') :=
  kmain_undefined (o := ⟨fun _ _ => 0x20, 0, fun _ => 0, []⟩) (by decide)
    ⟨⟨0x7f000000, 0x1000, 3⟩, by decide, by decide⟩ rfl rfl drains_ready _ _ _ _

end Runs

end Bintos
