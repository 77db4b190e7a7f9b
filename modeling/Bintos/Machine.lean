import Bintos.Lib.Memory

/-!
# The machine the kernel runs on

The kernel reaches physical memory through the higher-half direct map: the byte at physical address
`p` is read and written at the virtual address `p + hhdmoff`.  `Machine` holds the physical memory,
the statics of the kernel that are shared between its files, and the statics of the allocator in
use as a parameter `α`.  A kernel function is a `Kern α β`: it returns a value and a new machine, or
stops, and a stopped run keeps the machine it stopped in.
-/

namespace Bintos

/-- `uint64_t` -/
abbrev U64 := BitVec 64
/-- `uint32_t` -/
abbrev U32 := BitVec 32
/-- `uint16_t` -/
abbrev U16 := BitVec 16
/-- `uint8_t` -/
abbrev U8 := BitVec 8

/-- Why a run of the kernel ends without returning. -/
inductive Stop where
  /-- A failed `CHASSERT` called `hcf`. -/
  | halted
  /-- The step budget of a loop that may not end was used up. -/
  | outOfFuel
  deriving DecidableEq, Repr

/-- What an access through the direct map is for. -/
inductive AccessKind where
  /-- a byte of `frame_map` -/
  | flags
  /-- a page-table entry, by `map_page` -/
  | table
  /-- the bytes of a frame, by `memset` -/
  | clear
  deriving DecidableEq, Repr

/-- An access of `len` bytes from the virtual address `addr` on. -/
structure Access where
  kind : AccessKind
  addr : U64
  len : ℕ
  deriving DecidableEq, Repr

/-- The machine state.  `trace` is a record of the accesses for specifications; no kernel function
reads it. -/
structure Machine (α : Type) where
  /-- physical memory -/
  mem : Mem
  hhdmoff : U64
  pml4Addr : U64
  /-- the value loaded into CR3, once `initialize_paging` has done so -/
  cr3 : Option U64
  /-- the accesses made so far, the last one first -/
  trace : List Access
  /-- the statics of the frame allocator -/
  alloc : α

/-- A kernel computation. -/
abbrev Kern (α β : Type) := EStateM Stop (Machine α) β

/-- The machine in which a computation ended, by returning or by stopping. -/
def finalState {α β : Type} : EStateM.Result Stop (Machine α) β → Machine α
  | .ok _ s => s
  | .error _ s => s

namespace Machine

variable {α : Type}

/-- The physical address behind a direct-map address (`v2p`). -/
def v2p (s : Machine α) (vaddr : U64) : U64 := vaddr - s.hhdmoff

@[simp] theorem v2p_add_hhdmoff (s : Machine α) (p : U64) : s.v2p (p + s.hhdmoff) = p := by
  unfold v2p
  ring

/-- The machine after an access is recorded. -/
def touch (s : Machine α) (a : Access) : Machine α := { s with trace := a :: s.trace }

@[simp] theorem touch_mem (s : Machine α) (a : Access) : (s.touch a).mem = s.mem := rfl
@[simp] theorem touch_hhdmoff (s : Machine α) (a : Access) : (s.touch a).hhdmoff = s.hhdmoff := rfl
@[simp] theorem touch_pml4Addr (s : Machine α) (a : Access) :
    (s.touch a).pml4Addr = s.pml4Addr := rfl
@[simp] theorem touch_cr3 (s : Machine α) (a : Access) : (s.touch a).cr3 = s.cr3 := rfl
@[simp] theorem touch_trace (s : Machine α) (a : Access) : (s.touch a).trace = a :: s.trace := rfl
@[simp] theorem touch_alloc (s : Machine α) (a : Access) : (s.touch a).alloc = s.alloc := rfl

end Machine

/-! ## Accesses and assertions -/

section Kern

variable {α β γ : Type}

/-- `CHASSERT(b)` -/
def chassert (b : Bool) : Kern α Unit := if b then pure () else throw .halted

/-- Read the byte at a direct-map address. -/
def loadByte (kind : AccessKind) (vaddr : U64) : Kern α U8 := fun s =>
  .ok (s.mem (s.v2p vaddr)) (s.touch ⟨kind, vaddr, 1⟩)

/-- Write the byte at a direct-map address. -/
def storeByte (kind : AccessKind) (vaddr : U64) (b : U8) : Kern α Unit := fun s =>
  .ok () { s.touch ⟨kind, vaddr, 1⟩ with mem := s.mem.write (s.v2p vaddr) b }

/-- Read the 64-bit word at a direct-map address. -/
def loadWord (kind : AccessKind) (vaddr : U64) : Kern α U64 := fun s =>
  .ok (s.mem.readWord (s.v2p vaddr)) (s.touch ⟨kind, vaddr, 8⟩)

/-- Write the 64-bit word at a direct-map address. -/
def storeWord (kind : AccessKind) (vaddr w : U64) : Kern α Unit := fun s =>
  .ok () { s.touch ⟨kind, vaddr, 8⟩ with mem := s.mem.writeWord (s.v2p vaddr) w }

/-- `memset((void*)p, c, n)`: the loop of `memset` is `Mem.fill`. -/
def memset (p : U64) (c : U8) (n : U64) : Kern α Unit := fun s =>
  .ok () { s.touch ⟨.clear, p, n.toNat⟩ with mem := s.mem.fill (s.v2p p) c n.toNat }

@[simp] theorem run_chassert_true (s : Machine α) : (chassert true).run s = .ok () s := rfl

@[simp] theorem run_chassert_false (s : Machine α) :
    (chassert false).run s = .error .halted s := rfl

@[simp] theorem run_loadByte (kind : AccessKind) (vaddr : U64) (s : Machine α) :
    (loadByte kind vaddr).run s = .ok (s.mem (s.v2p vaddr)) (s.touch ⟨kind, vaddr, 1⟩) := rfl

@[simp] theorem run_storeByte (kind : AccessKind) (vaddr : U64) (b : U8) (s : Machine α) :
    (storeByte kind vaddr b).run s =
      .ok () { s.touch ⟨kind, vaddr, 1⟩ with mem := s.mem.write (s.v2p vaddr) b } := rfl

@[simp] theorem run_loadWord (kind : AccessKind) (vaddr : U64) (s : Machine α) :
    (loadWord kind vaddr).run s =
      .ok (s.mem.readWord (s.v2p vaddr)) (s.touch ⟨kind, vaddr, 8⟩) := rfl

@[simp] theorem run_storeWord (kind : AccessKind) (vaddr w : U64) (s : Machine α) :
    (storeWord kind vaddr w).run s =
      .ok () { s.touch ⟨kind, vaddr, 8⟩ with mem := s.mem.writeWord (s.v2p vaddr) w } := rfl

@[simp] theorem run_memset (p : U64) (c : U8) (n : U64) (s : Machine α) :
    (memset p c n).run s =
      .ok () { s.touch ⟨.clear, p, n.toNat⟩ with
        mem := s.mem.fill (s.v2p p) c n.toNat } := rfl

/-- A sequence returns exactly when its parts do. -/
theorem run_bind_eq_ok {x : Kern α β} {f : β → Kern α γ} {s s' : Machine α} {c : γ} :
    (x >>= f).run s = .ok c s' ↔
      ∃ b t, x.run s = .ok b t ∧ (f b).run t = .ok c s' := by
  rw [EStateM.run_bind]
  cases x.run s <;> simp

@[simp] theorem run_map (f : β → γ) (x : Kern α β) (s : Machine α) :
    (f <$> x).run s = match x.run s with
      | .ok b t => .ok (f b) t
      | .error e t => .error e t := by
  simp only [EStateM.run, Functor.map, EStateM.map]
  cases x s <;> rfl

end Kern

end Bintos
