import Bintos.Lib.Stores
import Mathlib.Data.Set.Basic

/-!
# Address spaces

The addresses of a program are translated to cells of a memory, and the translation rests on cells of
the same memory, its tables.  As long as the program writes to no cell of the tables, the translation
stays as it is and the program sees a memory in which the last write to a cell counts
(`RestsOn.writeAll`).
-/

/-- An address space over the memory `P → B`: the cells that are read and written at an address. -/
structure AddressSpace (V P B : Type*) where
  readable : (P → B) → V → Option P
  writable : (P → B) → V → Option P

namespace AddressSpace

variable {V P B : Type*}

def read (space : AddressSpace V P B) (m : P → B) (v : V) : Option B :=
  (space.readable m v).map m

/-- Every memory that agrees with `m` on the cells of `tables` has the translation of `m`. -/
def RestsOn (space : AddressSpace V P B) (m : P → B) (tables : Set P) : Prop :=
  ∀ m', (∀ p ∈ tables, m' p = m p) →
    space.readable m' = space.readable m ∧ space.writable m' = space.writable m

variable {space : AddressSpace V P B} {m m' : P → B} {tables : Set P} {cell : V → P}
  {ws : List (V × B)}

theorem RestsOn.congr (rests : space.RestsOn m tables) (same : ∀ p ∈ tables, m' p = m p) :
    space.RestsOn m' tables := by
  intro u agrees
  have here := rests m' same
  have there := rests u fun p hp => (agrees p hp).trans (same p hp)
  exact ⟨there.1.trans here.1.symm, there.2.trans here.2.symm⟩

variable [DecidableEq P]

def write (space : AddressSpace V P B) (m : P → B) (v : V) (b : B) : Option (P → B) :=
  (space.writable m v).map fun p => Function.update m p b

/-- Writes one after the other; `none` when an address is not writable. -/
def writeAll (space : AddressSpace V P B) : (P → B) → List (V × B) → Option (P → B)
  | m, [] => some m
  | m, w :: ws => (space.write m w.1 w.2).bind (space.writeAll · ws)

/-- The cells that are written, the last one first, each with its value. -/
def cellWrites (cell : V → P) (ws : List (V × B)) : List (P × B) :=
  ws.reverse.map fun w => (cell w.1, w.2)

theorem after_cellWrites_cons (cell : V → P) (w : V × B) (ws : List (V × B)) (m : P → B) :
    Stores.after (cellWrites cell (w :: ws)) m =
      Stores.after (cellWrites cell ws) (Function.update m (cell w.1) w.2) := by
  rw [cellWrites, List.reverse_cons, List.map_append, Stores.after_append]
  rfl

/-- **Writes.**  Writes past the tables all succeed, with the translation that there was at first. -/
theorem RestsOn.writeAll (rests : space.RestsOn m tables)
    (apart : ∀ w ∈ ws, space.writable m w.1 = some (cell w.1) ∧ cell w.1 ∉ tables) :
    space.writeAll m ws = some (Stores.after (cellWrites cell ws) m) ∧
      ∀ p ∈ tables, Stores.after (cellWrites cell ws) m p = m p := by
  induction ws generalizing m with
  | nil => exact ⟨rfl, fun _ _ => rfl⟩
  | cons w ws ih =>
    obtain ⟨here, past⟩ := apart w List.mem_cons_self
    have kept : ∀ p ∈ tables, Function.update m (cell w.1) w.2 p = m p := by
      intro p hp
      apply Function.update_of_ne
      rintro rfl
      exact past hp
    have stays := (rests _ kept).2
    have later := ih (rests.congr kept) fun u hu => by
      rw [stays]
      exact apart u (List.mem_cons_of_mem w hu)
    rw [after_cellWrites_cons]
    refine ⟨?_, fun p hp => (later.2 p hp).trans (kept p hp)⟩
    rw [AddressSpace.writeAll, AddressSpace.write, here]
    exact later.1

/-- What is read after the writes. -/
theorem RestsOn.read_writeAll (rests : space.RestsOn m tables)
    (apart : ∀ w ∈ ws, space.writable m w.1 = some (cell w.1) ∧ cell w.1 ∉ tables) (v : V) :
    space.read (Stores.after (cellWrites cell ws) m) v =
      (space.readable m v).map (Stores.after (cellWrites cell ws) m) := by
  rw [read, (rests _ (rests.writeAll apart).2).1]

/-- Where can be written after the writes. -/
theorem RestsOn.writable_writeAll (rests : space.RestsOn m tables)
    (apart : ∀ w ∈ ws, space.writable m w.1 = some (cell w.1) ∧ cell w.1 ∉ tables) :
    space.writable (Stores.after (cellWrites cell ws) m) = space.writable m :=
  (rests _ (rests.writeAll apart).2).2

end AddressSpace
