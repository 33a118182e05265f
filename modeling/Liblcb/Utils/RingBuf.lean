import Liblcb.Utils.Mem
import Liblcb.Lib.Buffer
import Mathlib.Logic.Function.Basic

/-!
# The ring buffer

`utils/ring_buffer.c`.  One writer commits blocks, each described by an entry of the `iov` array;
readers hold a position: a round, an index into the array and an offset into the block.  Addresses
and sizes have 64 bits and wrap.  An access outside the `iov` array or outside the buffer has no
defined outcome.
-/

namespace RingBuf

open Mem Buffer

/-- `iovec_t`. -/
structure IoVec where
  base : Nat
  len : Nat
  deriving DecidableEq, Repr

/-- `r_buf_t`: `buf` is the address of the buffer and `mem` what it holds; `buf_max` is
`buf + size`, and the flags are a field each. -/
structure RBuf where
  buf : Nat
  mem : List Byte
  size : Nat
  wpos : Nat
  iov : Nat → IoVec
  iovCount : Nat
  iovIndex : Nat
  iovIndexMax : Nat
  roundNum : Nat
  minBlockSize : Nat
  frag : Bool
  full : Bool
  keepTail : Bool

/-- `r_buf_rpos_t`. -/
structure RPos where
  iovIndex : Nat
  iovOff : Nat
  roundNum : Nat
  deriving DecidableEq, Repr

/-- What `r_buf_wbuf_set` and `r_buf_wbuf_set2` return. -/
inductive Ret where
  | ok
  | einval
  deriving DecidableEq, Repr

/-- Subtraction of sizes. -/
def sub (a b : Nat) : Nat := (a + 2 ^ 64 - b) % 2 ^ 64

namespace RBuf

/-- An entry of the `iov` array. -/
def entry (r : RBuf) (i : Nat) : Option IoVec :=
  if i < r.iovCount then some (r.iov i) else none

def setEntry (r : RBuf) (i : Nat) (e : IoVec) : Option RBuf :=
  if i < r.iovCount then some { r with iov := Function.update r.iov i e } else none

/-- `cnt` entries from `i` on. -/
def entries (r : RBuf) (i cnt : Nat) : Option (List IoVec) :=
  if i + cnt ≤ r.iovCount then some ((List.range cnt).map fun k => r.iov (i + k)) else none

end RBuf

/-! ## The writer -/

/-- `r_buf_alloc`, on memory that was mapped at the address `buf`. -/
def alloc (buf : Nat) (mem : List Byte) (minBlockSize : Nat) (keepTail : Bool) : Option RBuf :=
  if mem.length = 0 ∨ minBlockSize = 0 then none
  else
    some
      { buf, mem, size := mem.length, wpos := 0, iov := fun _ => ⟨0, 0⟩
        iovCount := (mem.length / minBlockSize + 32) % 2 ^ 64
        iovIndex := 0, iovIndexMax := 0, roundNum := 0, minBlockSize
        frag := false, full := false, keepTail }

/-- A get after `r_buf_wbuf_set` goes to the next entry. -/
def nextIov (r : RBuf) : Option RBuf := do
  let cur ← r.entry r.iovIndex
  if cur.len = 0 then some r
  else
    let next ← r.entry (r.iovIndex + 1)
    { r with iovIndex := r.iovIndex + 1 }.setEntry (r.iovIndex + 1) { next with len := 0 }

def moveTail (r : RBuf) (bufSize : Nat) : Option RBuf :=
  if r.keepTail = false then some r
  else if r.mem.length < r.wpos + bufSize then none
  else some { r with mem := splice r.mem 0 ((r.mem.drop r.wpos).take bufSize) }

/-- The writer goes back to the head of the buffer. -/
def nextRound (r : RBuf) (bufSize : Nat) : Option RBuf := do
  let r ← moveTail r bufSize
  let first ← r.entry 0
  { r with
    wpos := 0, iovIndexMax := sub r.iovIndex 1, iovIndex := 0
    roundNum := (r.roundNum + 1) % 2 ^ 64, full := true }.setEntry 0 { first with len := 0 }

/-- The current entry starts at the write position. -/
def startBlock (r : RBuf) : Option RBuf := do
  let cur ← r.entry r.iovIndex
  r.setEntry r.iovIndex { cur with base := r.buf + r.wpos }

/-- `r_buf_wbuf_get`: the pointer and the size, or `0` without a pointer. -/
def wbufGet (r : RBuf) (minBufSize : Nat) : Option (Option (Nat × Nat) × RBuf) :=
  if r.size < minBufSize then some (none, r)
  else do
    let bufSize := sub r.size r.wpos
    let r ← nextIov r
    if bufSize < minBufSize ∨ bufSize < r.minBlockSize then
      let r ← nextRound r bufSize
      let r ← startBlock r
      some (some ((r.iov r.iovIndex).base, r.size), r)
    else
      let r ← startBlock r
      some (some ((r.iov r.iovIndex).base, bufSize), r)

/-- `r_buf_wbuf_set`: the space is checked for the data, the write position moves by the data and the
offset. -/
def wbufSet (r : RBuf) (offset bufSize : Nat) : Option (Ret × RBuf) :=
  if bufSize ≤ offset then some (.einval, r)
  else
    let dataSize := bufSize - offset
    if dataSize < r.minBlockSize ∨ sub r.size r.wpos < dataSize then some (.einval, r)
    else do
      let cur ← r.entry r.iovIndex
      let base := if offset = 0 then cur.base else (cur.base + offset) % 2 ^ 64
      let r ← r.setEntry r.iovIndex ⟨base, dataSize⟩
      some (.ok,
        { r with
          frag := r.frag || offset ≠ 0
          wpos := (r.wpos + bufSize) % 2 ^ 64
          iovIndexMax := max r.iovIndexMax r.iovIndex })

/-- `r_buf_wbuf_set2`, without the position it can return. -/
def wbufSet2 (r : RBuf) (buf bufSize : Nat) : Option (Ret × RBuf) :=
  if buf = 0 then some (.einval, r)
  else do
    let cur ← r.entry r.iovIndex
    let bufEnd := (buf + bufSize) % 2 ^ 64
    if bufSize < r.minBlockSize ∨ buf < cur.base then some (.einval, r)
    else if r.buf + r.size < bufEnd then some (.einval, r)
    else do
      let r ← r.setEntry r.iovIndex ⟨buf, bufSize⟩
      let r ← r.setEntry (r.iovIndex + 1) ⟨bufEnd, 0⟩
      some (.ok,
        { r with
          frag := r.frag || buf ≠ cur.base
          wpos := sub bufEnd r.buf
          iovIndexMax := max r.iovIndexMax r.iovIndex
          iovIndex := r.iovIndex + 1 })

/-! ## The readers -/

def calcSize (iov : List IoVec) : Nat :=
  iov.foldl (fun size e => (size + e.len) % 2 ^ 64) 0

/-- The loop of `iovec_aggregate_ex`: the regions from the current one on, and the size that is left.
`room` is the number of regions that may still be added. -/
def aggregateLoop : List IoVec → IoVec → IoVec → Nat → Nat → List IoVec × Nat
  | [], _, cur, _, dataSize => ([cur], dataSize)
  | e :: iov, prev, cur, room, dataSize =>
    if room = 0 ∨ dataSize < e.len then ([cur], dataSize)
    else if (prev.base + prev.len) % 2 ^ 64 = e.base then
      -- split together
      aggregateLoop iov e { cur with len := (cur.len + e.len) % 2 ^ 64 } room (dataSize - e.len)
    else
      let (rest, left) := aggregateLoop iov e e (room - 1) (dataSize - e.len)
      (cur :: rest, left)

/-- `iovec_aggregate_ex`: no part of a block is delivered as the last one. -/
def iovecAggregateEx (iov : List IoVec) (dataSize off retCnt : Nat) : List IoVec × Nat :=
  match iov with
  | [] => ([], 0)
  | first :: rest =>
    let len := sub first.len off
    if retCnt = 0 ∨ dataSize = 0 ∨ dataSize ≤ len ∨ (rest = [] ∧ len = 0) then ([], 0)
    else
      aggregateLoop rest first ⟨(first.base + off) % 2 ^ 64, len⟩ (retCnt - 1) (dataSize - len)

/-- `r_buf_rpos_check`: whether there is something to read, the corrected position and the dropped
size. -/
def rposCheck (r : RBuf) (rpos : RPos) : Option (Bool × RPos × Nat) := do
  let e ← r.entry rpos.iovIndex
  let rpos := if e.len < rpos.iovOff then { rpos with iovOff := 0 } else rpos
  if rpos.roundNum = r.roundNum then
    if rpos.iovIndex ≤ r.iovIndex + 1 then some (true, rpos, 0)
    else some (false, { rpos with iovOff := 0, iovIndex := r.iovIndex + 1 }, 0)
  else if (rpos.roundNum + 1) % 2 ^ 64 = r.roundNum then
    if r.iovIndexMax < rpos.iovIndex then some (true, ⟨0, 0, (rpos.roundNum + 1) % 2 ^ 64⟩, 0)
    else if r.iovIndex < rpos.iovIndex then some (true, rpos, 0)
    else
      let lost ← r.entries rpos.iovIndex (1 + r.iovIndex - rpos.iovIndex)
      some (false, rpos, (r.size + calcSize lost) % 2 ^ 64)
  else
    let dropSize :=
      if r.roundNum ≤ (rpos.roundNum + 1) % 2 ^ 64 then 0
      else r.size * (r.roundNum - rpos.roundNum) % 2 ^ 64
    some (false, ⟨r.iovIndex + 1, 0, r.roundNum⟩, dropSize)

/-- What a call of `r_buf_data_get` leaves: the regions, the position, and the two sizes. -/
structure Got where
  iov : List IoVec
  rpos : RPos
  dropSize : Option Nat
  dataSize : Nat

/-- `r_buf_data_get`, with a place for each of the sizes it returns. -/
def dataGet (r : RBuf) (rpos : RPos) (dataSize iovCnt : Nat) : Option Got :=
  if dataSize = 0 ∨ iovCnt = 0 then some ⟨[], rpos, none, 0⟩
  else do
    let (ok, rpos, dropSize) ← rposCheck r rpos
    if ok = false then some ⟨[], rpos, some dropSize, 0⟩
    else if rpos.roundNum = r.roundNum then
      if rpos.iovIndex = r.iovIndex + 1 then some ⟨[], rpos, some 0, 0⟩
      else
        let iov ← r.entries rpos.iovIndex (1 + r.iovIndex - rpos.iovIndex)
        let (ret, left) := iovecAggregateEx iov dataSize rpos.iovOff iovCnt
        some ⟨ret, rpos, some 0, dataSize - left⟩
    else
      let old ← r.entries rpos.iovIndex (1 + r.iovIndexMax - rpos.iovIndex)
      let (ret1, left1) := iovecAggregateEx old dataSize rpos.iovOff iovCnt
      let cur ← r.entries 0 (1 + r.iovIndex)
      let (ret2, left2) := iovecAggregateEx cur left1 0 (iovCnt - ret1.length)
      some ⟨ret1 ++ ret2, rpos, some 0, dataSize - left2⟩

end RingBuf
