import Liblcb.Utils.Mem

/-!
# Bencode decoding

`bt_en_decode` of `utils/bt_encode.c`.  The buffer is the list of its bytes at the address `addr`;
the recursive calls are at positions of the same buffer, so a node's pointers are positions in it.
Memory allocation succeeds.  A read past the end of the buffer and pointer arithmetic that leaves
the address space have no defined outcome (`undef`).
-/

namespace BtEncode

open Mem

inductive Err where
  | einval
  | ebadmsg
  | undef
  /-- the recursion did not end within the fuel -/
  | noReturn
  deriving DecidableEq, Repr

mutual

/-- `bt_en_node_t`: the raw data is the `rawSize` bytes at `raw`; the value of a string is its raw
data. -/
inductive Node where
  | str (raw rawSize : Nat)
  | num (raw rawSize : Nat) (i : BitVec 64)
  | list (raw rawSize : Nat) (l : Nodes)
  | dict (raw rawSize : Nat) (d : Pairs)

/-- The array of a list node. -/
inductive Nodes where
  | nil
  | cons (node : Node) (l : Nodes)

/-- The array of a dictionary node. -/
inductive Pairs where
  | nil
  | cons (key val : Node) (d : Pairs)

end

/-- `BT_EN_TYPE_STR == node->type`. -/
def Node.isStr : Node → Bool
  | .str _ _ => true
  | _ => false

/-- `raw_size` of a container between `start` and the end marker at `curPos`: the marker is counted
twice. -/
def containerRawSize (start curPos : Nat) : Nat := (curPos - start + 2 ^ 64 - 2) % 2 ^ 64

/-- Case `0` to `9`: a byte string at `pos`. -/
def decodeStr (addr : Nat) (buf : List Byte) (pos : Nat) : Except Err (Node × Nat) :=
  match memChrOff (pos + 1) buf (chr ':') with
  | none => .error .ebadmsg
  | some colon =>
    let rawSize := (ustr2usize ((buf.drop pos).take (colon - pos))).toNat
    let ptm := colon + 1
    if 2 ^ 64 ≤ addr + ptm + rawSize then .error .undef
    else if buf.length ≤ rawSize + ptm then .error .ebadmsg
    else .ok (.str ptm rawSize, rawSize + (ptm - pos))

/-- Case `i`: an integer at `pos`. -/
def decodeNum (buf : List Byte) (pos : Nat) : Except Err (Node × Nat) :=
  match memChrOff (pos + 1) buf (chr 'e') with
  | none => .error .ebadmsg
  | some ptm =>
    let size := ptm - (pos + 1)
    .ok (.num (pos + 1) size (ustr2s64 ((buf.drop (pos + 1)).take size)), ptm - pos + 1)

/-- The end marker at `curPos`; the range check lets the position right after the buffer pass. -/
def atEnd (buf : List Byte) (curPos : Nat) : Except Err Bool :=
  if buf.length < curPos then .error .ebadmsg
  else
    match buf[curPos]? with
    | none => .error .undef
    | some b => .ok (b = chr 'e')

mutual

/-- `bt_en_decode` of the buffer from `pos` on: the node and where it ends, from `pos`. -/
def decode (addr : Nat) (buf : List Byte) : Nat → Nat → Except Err (Node × Nat)
  | 0, _ => .error .noReturn
  | fuel + 1, pos =>
    match buf[pos]? with
    | none => .error .einval
    | some b =>
      if chr '0' ≤ b ∧ b ≤ chr '9' then decodeStr addr buf pos
      else if b = chr 'i' then decodeNum buf pos
      else if b = chr 'l' then do
        let (l, curPos) ← decodeItems addr buf fuel (pos + 1)
        pure (.list (pos + 1) (containerRawSize pos curPos) l, curPos - pos + 1)
      else if b = chr 'd' then do
        let (d, curPos) ← decodePairs addr buf fuel (pos + 1)
        pure (.dict (pos + 1) (containerRawSize pos curPos) d, curPos - pos + 1)
      else .error .ebadmsg

def decodeItems (addr : Nat) (buf : List Byte) : Nat → Nat → Except Err (Nodes × Nat)
  | 0, _ => .error .noReturn
  | fuel + 1, curPos => do
    let (node, off) ← decode addr buf fuel curPos
    let curPos := curPos + off
    if ← atEnd buf curPos then pure (.cons node .nil, curPos)
    else do
      let (l, curPos) ← decodeItems addr buf fuel curPos
      pure (.cons node l, curPos)

def decodePairs (addr : Nat) (buf : List Byte) : Nat → Nat → Except Err (Pairs × Nat)
  | 0, _ => .error .noReturn
  | fuel + 1, curPos => do
    let (key, off) ← decode addr buf fuel curPos
    if key.isStr then do
      let (val, voff) ← decode addr buf fuel (curPos + off)
      let curPos := curPos + off + voff
      if ← atEnd buf curPos then pure (.cons key val .nil, curPos)
      else do
        let (d, curPos) ← decodePairs addr buf fuel curPos
        pure (.cons key val d, curPos)
    else pure (.nil, curPos)

end

/-- `bt_en_decode`; every call of the recursion is at a later position than the one that made it. -/
def btEnDecode (addr : Nat) (buf : List Byte) : Except Err (Node × Nat) :=
  decode addr buf (2 * buf.length + 1) 0

end BtEncode
