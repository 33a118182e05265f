import Liblcb.Utils.Mem
import Liblcb.Lib.Buffer

/-!
# Reassembly of fragments

`utils/reass_helper.h`.  `size_t` has 64 bits, and sums and products of sizes wrap.  A division by
zero and a copy that leaves the buffer have no defined outcome.
-/

namespace Reass

open Mem Buffer

/-- What a call returns. -/
inductive Ret where
  | ok
  | eagain
  | einval
  | enobufs
  | erange
  | ebadmsg
  deriving DecidableEq, Repr

/-- The arguments of a call. -/
structure Frag where
  seqNo : Nat
  isFirst : Bool
  isLast : Bool
  data : List Byte
  seqNo_lt : seqNo < 2 ^ 64
  data_lt : data.length < 2 ^ 64

/-- `reass_hlp_t`: the sizes of the buffer and of the bitmap are the lengths of the lists. -/
structure ReassHlp where
  buf : List Byte
  bitmap : Option (List Byte)
  blkSize : Nat
  blkCnt : Nat
  recvCnt : Nat
  sequenceSize : Nat
  dupCnt : Nat
  reordersCnt : Nat
  firstSeqNo : Nat
  lastSeqNo : Nat
  curSeqNo : Nat
  deriving DecidableEq

def getBit (bitmap : List Byte) (bit : Nat) : Bool :=
  bitmap[bit / 8]?.any fun b => b.getLsbD (bit % 8)

def setBit (bitmap : List Byte) (bit : Nat) : List Byte :=
  bitmap.modify (bit / 8) fun b => b ||| (1#8 <<< (bit % 8))

/-- `reass_hlp_reset`: the number of the last received block stays. -/
def reset (hlp : ReassHlp) : ReassHlp :=
  { hlp with
    recvCnt := 0, blkCnt := 0, blkSize := 0, sequenceSize := 0, dupCnt := 0, reordersCnt := 0,
    firstSeqNo := 0, lastSeqNo := 0, bitmap := hlp.bitmap.map fun b => List.replicate b.length 0 }

/-- `reass_hlp_init`, on memory where the number of the last received block is `curSeqNo`. -/
def init (buf : List Byte) (bitmap : Option (List Byte)) (curSeqNo : Nat) : ReassHlp :=
  reset { buf, bitmap, blkSize := 0, blkCnt := 0, recvCnt := 0, sequenceSize := 0, dupCnt := 0,
          reordersCnt := 0, firstSeqNo := 0, lastSeqNo := 0, curSeqNo }

/-- `reass_hlp_seq_calc_diff`; the branch for an overflow is one too low. -/
def seqCalcDiff (firstSeqNo lastSeqNo : Nat) : Nat :=
  if firstSeqNo ≤ lastSeqNo then lastSeqNo - firstSeqNo
  else lastSeqNo + (2 ^ 64 - 1 - firstSeqNo)

/-- The end of `reass_hlp_handle_frag`: what a call returns that has stored its fragment. -/
def verdict (hlp : ReassHlp) : Ret :=
  if hlp.sequenceSize = 0 ∨
      hlp.blkCnt < (seqCalcDiff hlp.firstSeqNo hlp.lastSeqNo + 1) % 2 ^ 64 then .eagain
  else if hlp.sequenceSize ≠ hlp.recvCnt then .ebadmsg
  else .ok

def markLast (hlp : ReassHlp) (frag : Frag) (offset : Nat) : ReassHlp :=
  if frag.isLast ∧ hlp.sequenceSize = 0 then
    { hlp with sequenceSize := (offset + frag.data.length) % 2 ^ 64, lastSeqNo := frag.seqNo }
  else hlp

/-- `reass_hlp_handle_frag` from "Add new data" on. -/
def addData (hlp : ReassHlp) (frag : Frag) (offset : Nat) : Option (Ret × ReassHlp) :=
  let setsLast := frag.isLast ∧ hlp.sequenceSize = 0
  let hlp := markLast hlp frag offset
  if setsLast ∧ hlp.buf.length < hlp.sequenceSize then some (.enobufs, hlp)
  else if hlp.buf.length < offset + frag.data.length then none
  else
    let hlp :=
      { hlp with
        buf := splice hlp.buf offset frag.data
        recvCnt := (hlp.recvCnt + frag.data.length) % 2 ^ 64
        blkCnt := (hlp.blkCnt + 1) % 2 ^ 64
        curSeqNo := frag.seqNo }
    some (verdict hlp, hlp)

/-- `reass_hlp_handle_frag` from "Prepare" on. -/
def placeFrag (hlp : ReassHlp) (frag : Frag) : Option (Ret × ReassHlp) :=
  let blkIdx := seqCalcDiff hlp.firstSeqNo frag.seqNo
  let offset := blkIdx * hlp.blkSize % 2 ^ 64
  -- only if a factor has bits in its upper half
  let large := 2 ^ 32 ≤ blkIdx ||| hlp.blkSize
  if large ∧ hlp.blkSize = 0 then none
  else if large ∧ offset / hlp.blkSize ≠ blkIdx then some (.einval, hlp)
  else if hlp.buf.length < (offset + frag.data.length) % 2 ^ 64 then some (.einval, hlp)
  else
    match hlp.bitmap with
    | none => addData hlp frag offset
    | some bitmap =>
      if bitmap.length ≤ blkIdx then some (.erange, hlp)
      else if getBit bitmap blkIdx then
        some (.eagain, { hlp with dupCnt := (hlp.dupCnt + 1) % 2 ^ 64 })
      else addData { hlp with bitmap := some (setBit bitmap blkIdx) } frag offset

/-- The helper after a reset by a first fragment. -/
def startFrag (hlp : ReassHlp) (frag : Frag) : ReassHlp :=
  { reset hlp with blkSize := frag.data.length, firstSeqNo := frag.seqNo }

/-- A fragment out of order is counted. -/
def countReorder (hlp : ReassHlp) (frag : Frag) : ReassHlp :=
  if (hlp.curSeqNo + 1) % 2 ^ 64 ≠ frag.seqNo then
    { hlp with reordersCnt := (hlp.reordersCnt + 1) % 2 ^ 64 }
  else hlp

/-- The bitmap is too small for the blocks of the buffer. -/
def noBitmapSpace (hlp : ReassHlp) : Bool :=
  hlp.bitmap.any fun bitmap => bitmap.length * 8 % 2 ^ 64 < hlp.buf.length / hlp.blkSize

def handleFrag (hlp : ReassHlp) (frag : Frag) : Option (Ret × ReassHlp) :=
  if frag.isFirst then
    if frag.data.length = 0 then some (.einval, hlp)
    else if noBitmapSpace (startFrag hlp frag) then some (.enobufs, startFrag hlp frag)
    else placeFrag (startFrag hlp frag) frag
  else if frag.isLast = false ∧ hlp.blkSize ≠ frag.data.length then some (.einval, hlp)
  else placeFrag (countReorder hlp frag) frag

end Reass
