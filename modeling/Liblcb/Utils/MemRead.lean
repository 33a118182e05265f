import Liblcb.Lib.Buffer
import Liblcb.Utils.Mem

/-!
# Bounded access to memory

Reads, comparisons and moves inside one block: an access that leaves it has no outcome.
-/

namespace Mem

open Buffer

/-- `n` bytes from `pos` on. -/
def readAt (buf : List Byte) (pos n : Nat) : Option (List Byte) :=
  if pos + n ≤ buf.length then some ((buf.drop pos).take n) else none

/-- `mem_cmpin` of `n` bytes at `pos`: nothing is read where the sizes differ. -/
def cmpinAt (buf : List Byte) (pos n : Nat) (what : List Byte) : Option Bool :=
  if n ≠ what.length then some false else (readAt buf pos n).map (memCmpin · what)

/-- `memmove` inside the block. -/
def memmove (buf : List Byte) (dst src n : Nat) : Option (List Byte) := do
  let bs ← readAt buf src n
  if dst + n ≤ buf.length then some (splice buf dst bs) else none

variable {buf what : List Byte} {pos n dst src : Nat}

theorem readAt_eq (h : pos + n ≤ buf.length) : readAt buf pos n = some ((buf.drop pos).take n) :=
  if_pos h

theorem cmpinAt_eq (h : pos + n ≤ buf.length) :
    cmpinAt buf pos n what = some (memCmpin ((buf.drop pos).take n) what) := by
  have hlen : ((buf.drop pos).take n).length = n := by
    rw [List.length_take, List.length_drop]
    omega
  rw [cmpinAt]
  by_cases hn : n = what.length
  · rw [if_neg (not_not.mpr hn), readAt_eq h, Option.map_some]
  · rw [if_pos hn, eq_comm, Option.some.injEq, Bool.eq_false_iff]
    intro hcmp
    exact hn (hlen.symm.trans (length_of_memCmpin hcmp))

theorem memmove_eq (hsrc : src + n ≤ buf.length) (hdst : dst + n ≤ buf.length) :
    memmove buf dst src n = some (splice buf dst ((buf.drop src).take n)) := by
  rw [memmove, readAt_eq hsrc, Option.bind_eq_bind, Option.bind_some, if_pos hdst]

theorem memmove_gap {buf : List Byte} {size n m : Nat} (hsize : size ≤ buf.length) (hnm : n ≤ m)
    (hm : m ≤ size) : ∃ buf', memmove buf n m (size - m) = some buf' ∧
      buf'.length = buf.length ∧
      buf'.take (size - (m - n)) = (buf.take size).take n ++ (buf.take size).drop m ∧
      buf'.drop size = buf.drop size := by
  have hmoved : ((buf.drop m).take (size - m)).length = size - m := by
    rw [List.length_take, List.length_drop]
    omega
  have hend : size - (m - n) = n + ((buf.drop m).take (size - m)).length := by
    rw [hmoved]
    omega
  refine ⟨_, memmove_eq (by omega) (by omega), length_splice (by omega), ?_, ?_⟩
  · rw [hend, take_splice (by omega), List.take_take, Nat.min_eq_left (by omega), List.drop_take]
  · apply List.ext_getElem?
    intro i
    rw [List.getElem?_drop, List.getElem?_drop,
      getElem?_splice_of_ge (by omega) (by omega)]

end Mem
