import Bintos.Font.Placement
import Bintos.Lib.WordArray
import Bintos.Vm.Survival

/-!
# The picture in memory

`putchar` stores pixels of four bytes through `framebuffer_ptr`, an address of the direct map.  After the
boot these stores go through the kernel's own page tables.  None of them faults, and the framebuffer
shows the picture that the stores make (`CleanBoot.shows`).
-/

namespace Bintos

/-- `size` pixels from the virtual address `address` on are in a framebuffer of the memory map that
begins with a page. -/
structure ScreenAt (m : List MemmapEntry) (off address : U64) (size : ℕ) (e : MemmapEntry) : Prop where
  mem : e ∈ m
  framebuffer : e.type = memmapFramebuffer
  aligned : PageAligned e.base
  above : e.base.toNat ≤ (address - off).toNat
  below : (address - off).toNat + 4 * size ≤ e.base.toNat + e.length.toNat

/-- The bytes that the stores of a screen write, in the order of the program. -/
def Screen.byteWrites (address : U64) (s : Screen) : List (U64 × U8) :=
  (Mem.wordStores address 4 s.writes).reverse

/-- The colour of pixel `k` of the framebuffer at the physical address `p`. -/
def pixelOf (p : U64) (mem : Mem) (k : ℕ) : U32 := Mem.readLE mem (Mem.entry p 4 k) 4

section Shows

variable {m : List MemmapEntry} {off physicalBase kernelEnd rsp address v : U64} {s₀ s₁ : Kernel}
  {mem now : Mem} {fuel size : ℕ} {e : MemmapEntry}

theorem ScreenAt.toNat_sub (hm : Conformant m)
    (boot : CleanBoot m off physicalBase kernelEnd rsp s₀ s₁) (screen : ScreenAt m off address size e)
    (inside : Mem.InRange address (4 * size) v) :
    (v - off).toNat = (address - off).toNat + (v - address).toNat := by
  have above := screen.above
  have below := screen.below
  have sum : v - off = address - off + (v - address) := by ring
  unfold Mem.InRange at inside
  have bound := framebuffer_end (boot.direct hm) screen.mem screen.framebuffer (by omega)
  rw [sum, BitVec.toNat_add, Nat.mod_eq_of_lt (by omega)]

/-- The bytes of the pixels are bytes of the framebuffer. -/
theorem ScreenAt.mem_extent (hm : Conformant m)
    (boot : CleanBoot m off physicalBase kernelEnd rsp s₀ s₁) (screen : ScreenAt m off address size e)
    (inside : Mem.InRange address (4 * size) v) : (v - off).toNat ∈ e.extent := by
  have distance := screen.toNat_sub hm boot inside
  have above := screen.above
  have below := screen.below
  unfold Mem.InRange at inside
  exact Set.mem_Ico.2 (by omega)

/-- The bytes of the pixels are on pages of the framebuffer's loop. -/
theorem ScreenAt.resident (hm : Conformant m)
    (boot : CleanBoot m off physicalBase kernelEnd rsp s₀ s₁) (screen : ScreenAt m off address size e)
    (inside : Mem.InRange address (4 * size) v) :
    Resident m kernelEnd rsp off v ∧ placeOf physicalBase kernelEnd off v = v - off := by
  obtain ⟨above, below⟩ := Set.mem_Ico.1 (screen.mem_extent hm boot inside)
  have page : FramebufferPage m off v :=
    ⟨e, screen.mem, screen.framebuffer, v - off, above, below, by rw [BitVec.sub_add_cancel]⟩
  have aligned := screen.aligned
  have offset := boot.inputs.offset_aligned
  unfold PageAligned at aligned offset
  refine ⟨Or.inr (Or.inr ⟨e, screen.mem, screen.framebuffer,
    ((v - off).toNat - e.base.toNat) / 4096, ?_, ?_⟩), ?_⟩
  · unfold pageCount
    omega
  · have sum : v = v - off + off := (BitVec.sub_add_cancel v off).symm
    generalize v - off = p at sum above below
    rw [sum, shift_eq_iff, BitVec.toNat_add, BitVec.toNat_add, BitVec.toNat_add, BitVec.toNat_ofNat]
    omega
  · rw [placeOf, if_neg (boot.direct hm v (Or.inr (Or.inr page))).apart]

theorem ScreenAt.size_le (screen : ScreenAt m off address size e) : 4 * size ≤ 2 ^ 64 := by
  have above := screen.above
  have below := screen.below
  have length := e.length.isLt
  omega

/-- The boot leaves the pixels as they are. -/
theorem CleanBoot.pixel_eq (hm : Conformant m)
    (boot : CleanBoot m off physicalBase kernelEnd rsp s₀ s₁)
    (started : (initializeMemmap fuel m off).run (atBoot mem) = .ok () s₀)
    (image : ∀ v, kernelVma ≤ v → v ≤ kernelEnd → ¬ IsUsable m (physicalBase + (v - kernelVma)))
    (screen : ScreenAt m off address size e) {k : ℕ} (hk : k < size) :
    pixelOf (address - off) s₁.mem k = pixelOf (address - off) mem k := by
  apply Mem.readLE_congr (by decide)
  intro x hx
  have near : Mem.InRange address (4 * size) (x + off) := by
    have place := (Mem.inRange_entry_iff screen.size_le hk).1 hx
    have same : x + off - address = x - (address - off) := by ring
    rw [Mem.InRange, same]
    omega
  obtain ⟨resident, place⟩ := screen.resident hm boot near
  have outside := boot.not_isUsable hm image resident
  rw [place, BitVec.add_sub_cancel] at outside
  exact boot.mem_eq hm started outside

/-- Stores to pixels. -/
theorem CleanBoot.pixels (hm : Conformant m)
    (boot : CleanBoot m off physicalBase kernelEnd rsp s₀ s₁)
    (image : ∀ v, kernelVma ≤ v → v ≤ kernelEnd → ¬ IsUsable m (physicalBase + (v - kernelVma)))
    (same : Set.EqOn now s₁.mem {x | IsUsable m x}) (screen : ScreenAt m off address size e)
    {writes : List (ℕ × U32)} (inside : ∀ px ∈ writes, px.1 < size) :
    ∃ mem', (pageSpace s₁.pml4Addr).writeAll now (Mem.wordStores address 4 writes).reverse =
        some mem' ∧
      ∀ k < size, pixelOf (address - off) mem' k =
        Stores.after writes (pixelOf (address - off) now) k := by
  have fits := screen.size_le
  have bytes (b : U64 × U8) (hb : b ∈ Mem.wordStores address 4 writes) :=
    screen.resident hm boot (Mem.inRange_of_mem_wordStores fits inside hb)
  have written := boot.writeAll_resident hm image same
    (Mem.wordStores address 4 writes).reverse fun b hb => (bytes b (List.mem_reverse.1 hb)).1
  have cells : AddressSpace.cellWrites (placeOf physicalBase kernelEnd off)
      (Mem.wordStores address 4 writes).reverse = Mem.wordStores (address - off) 4 writes := by
    rw [AddressSpace.cellWrites, List.reverse_reverse, ← Mem.map_wordStores]
    exact List.map_congr_left fun b hb => by rw [(bytes b hb).2]
  rw [cells] at written
  exact ⟨_, written, fun k hk => Mem.readLE_after_wordStores fits inside _ hk⟩

/-- **The screen after the boot.**  The stores of `puts` go through the page tables without a fault,
and the framebuffer's memory shows the picture that they make over what it holds. -/
theorem CleanBoot.shows (hm : Conformant m)
    (boot : CleanBoot m off physicalBase kernelEnd rsp s₀ s₁)
    (image : ∀ v, kernelVma ≤ v → v ≤ kernelEnd → ¬ IsUsable m (physicalBase + (v - kernelVma)))
    (same : Set.EqOn now s₁.mem {x | IsUsable m x}) (font : U16 → U8) {p w h : U32} (fg bg : U32)
    (screen : ScreenAt m off address ((p / 4).toNat * h.toNat) e) (row : 0 < (p / 4).toNat)
    {strs : List (List U8)}
    (fits : Screen.Fits (initFont font p w h fg bg) (strs.flatMap Screen.chars)) :
    ∃ mem', (pageSpace s₁.pml4Addr).writeAll now
        ((strs.foldl Screen.puts (initFont font p w h fg bg)).byteWrites address) = some mem' ∧
      ∀ k < (p / 4).toNat * h.toNat, pixelOf (address - off) mem' k =
        Stores.after (strs.foldl Screen.puts (initFont font p w h fg bg)).writes
          (pixelOf (address - off) now) k := by
  have inside := Screen.inside_text (s := initFont font p w h fg bg) row (strs.flatMap Screen.chars)
  have start : Screen.Inside (initFont font p w h fg bg).size (initFont font p w h fg bg) :=
    fun px none => absurd none List.not_mem_nil
  rw [← Screen.foldl_puts, and_iff_right start] at inside
  exact boot.pixels hm image same screen (inside.2 fits)

end Shows

/-- Letters on two lines of a framebuffer of 64 times 32 pixels. -/
theorem screenMachine_shows : ∃ (s₁ : Kernel) (mem' : Mem),
    (pageSpace s₁.pml4Addr).writeAll s₁.mem
      (([[97, 98], [10, 99]].foldl Screen.puts
        (initFont (fun _ => 0xff) 256 64 32 0xFFFFFF 0)).byteWrites 0xffff8000fd000000) = some mem' ∧
    ∀ k < 2048, pixelOf (0xffff8000fd000000 - higherHalf) mem' k =
      Stores.after ([[97, 98], [10, 99]].foldl Screen.puts
        (initFont (fun _ => 0xff) 256 64 32 0xFFFFFF 0)).writes
          (pixelOf (0xffff8000fd000000 - higherHalf) s₁.mem) k := by
  obtain ⟨s₀, s₁, -, boot⟩ := screenMachine_boots fun _ => 0
  have screen : ScreenAt screenMachine higherHalf 0xffff8000fd000000
      ((256 / 4 : U32).toNat * (32 : U32).toNat) ⟨0xfd000000, 0x2000, memmapFramebuffer⟩ :=
    ⟨List.mem_cons_of_mem _ List.mem_cons_self, rfl, by decide, by decide, by decide⟩
  have fits : Screen.Fits (initFont (fun _ => 0xff) 256 64 32 0xFFFFFF 0)
      ([[97, 98], [10, 99]].flatMap Screen.chars) := by
    unfold Screen.Fits
    decide
  obtain ⟨mem', written, picture⟩ := CleanBoot.shows conformant_screenMachine boot
    image_screenMachine (Set.eqOn_refl _ _) (fun _ => 0xff) 0xFFFFFF 0 screen (by decide) fits
  exact ⟨s₁, mem', written, picture⟩

end Bintos
