import Bintos.Machine

/-!
# Memory functions (`lib/stdlib.c`)

The functions that copy are given by the memory they leave; `memcpy` and `memmove` return `dest`.
`memcmp` changes nothing and is given by its result.
-/

namespace Bintos

/-- `for (size_t i = …; i < n; i++) pdest[i] = psrc[i];` from `i` on, with `left` rounds left. -/
def copyUp (dest src : U64) : ℕ → ℕ → Mem → Mem
  | 0, _, m => m
  | left + 1, i, m =>
    copyUp dest src left (i + 1)
      (m.write (dest + BitVec.ofNat 64 i) (m (src + BitVec.ofNat 64 i)))

/-- `for (size_t i = …; i > 0; i--) pdest[i-1] = psrc[i-1];` from `i` on. -/
def copyDown (dest src : U64) : ℕ → Mem → Mem
  | 0, m => m
  | i + 1, m =>
    copyDown dest src i (m.write (dest + BitVec.ofNat 64 i) (m (src + BitVec.ofNat 64 i)))

/-- `memcpy` -/
def memcpy (m : Mem) (dest src n : U64) : Mem := copyUp dest src n.toNat 0 m

/-- `memmove` -/
def memmove (m : Mem) (dest src n : U64) : Mem :=
  if dest < src then copyUp dest src n.toNat 0 m
  else if src < dest then copyDown dest src n.toNat m
  else m

/-- `for (size_t i = …; i < n; i++)` of `memcmp` from `i` on, with `left` rounds left. -/
def compareUp (m : Mem) (s1 s2 : U64) : ℕ → ℕ → ℤ
  | 0, _ => 0
  | left + 1, i =>
    if m (s1 + BitVec.ofNat 64 i) ≠ m (s2 + BitVec.ofNat 64 i) then
      if m (s1 + BitVec.ofNat 64 i) < m (s2 + BitVec.ofNat 64 i) then -1 else 1
    else
      compareUp m s1 s2 left (i + 1)

/-- `memcmp` -/
def memcmp (m : Mem) (s1 s2 n : U64) : ℤ := compareUp m s1 s2 n.toNat 0

end Bintos
