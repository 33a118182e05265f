import Liblcb.Utils.Wire

/-!
# DNS messages

The writers and readers of `proto/dns.h`.  A message buffer is the list of its bytes, its length is
`msgbuf_size`, and a pointer into it is an offset from the header.  The header is the first twelve
bytes.  What a writer that fails has left behind the message size is not kept.
-/

namespace Dns

open Mem Wire Buffer

/-- `sizeof(dns_hdr_t)`. -/
def hdrSize : Nat := 12

/-- `sizeof(dns_question_t)` without the name pointer. -/
def questionFixed : Nat := 4

/-- `sizeof(dns_rr_t)` without the name pointer and the first data byte. -/
def rrFixed : Nat := 10

def maxNameCycles : Nat := 64
def maxNameLength : Nat := 255

def typeA : BitVec 16 := 1#16
def typeCname : BitVec 16 := 5#16
def typeSoa : BitVec 16 := 6#16
def typeAaaa : BitVec 16 := 28#16
def typeOpt : BitVec 16 := 41#16

def dot : Byte := 0x2e#8

def labelCtrlMask : Byte := 0xc0#8
def labelDataMask : Byte := 0x3f#8

/-! ## Names -/

/-- The loop of `DomainNameToSequenceOfLabels` over the bytes from the start of the name on: the dots
become the lengths of the labels behind them. -/
def labelLoop (nameSize : Nat) : Nat → List Byte → Nat → Nat → Except Errno (List Byte)
  | 0, _, _, _ => .error .noReturn
  | fuel + 1, buf, labelPos, dotPos =>
    match memChrOff dotPos (buf.take nameSize) dot with
    | none =>
      let len := nameSize - labelPos - 2
      if len = 0 ∨ 63 < len then .error .einval
      else .ok (buf.set labelPos (BitVec.ofNat 8 len))
    | some dotPos =>
      let len := dotPos - labelPos - 1
      if len = 0 ∨ 63 < len then .error .einval
      else labelLoop nameSize fuel (buf.set labelPos (BitVec.ofNat 8 len)) dotPos (dotPos + 1)

/-- `DomainNameToSequenceOfLabels`: the bytes from the start of the name on, and the size of the
name. -/
def domainNameToSequenceOfLabels (name buf : List Byte) : Except Errno (List Byte × Nat) :=
  let nameSize := if name.length = 0 then 1 else name.length + 2
  if buf.length < nameSize then .error .eoverflow
  else if name.length = 0 then .ok (splice buf 0 [0], nameSize)
  else do
    let buf := splice (splice buf 1 name) (name.length + 1) [0]
    let buf ← labelLoop nameSize (name.length + 1) buf 0 1
    return (buf, nameSize)

/-- The loop of `SequenceOfLabelsGetSize`, `cur` bytes behind `off`. -/
def labelsSizeLoop (buf : List Byte) (off bufSize : Nat) : Nat → Nat → Except Errno Nat
  | 0, _ => .error .noReturn
  | fuel + 1, cur =>
    let label := byteAt buf (off + cur)
    let cur := cur + 1
    if label &&& labelCtrlMask = 0x00#8 then
      let len := (label &&& labelDataMask).toNat
      if bufSize < cur + len then .error .ebadmsg
      else if len = 0 then .ok cur
      else labelsSizeLoop buf off bufSize fuel (cur + len)
    -- the second byte of the pointer
    else if label &&& labelCtrlMask = 0xc0#8 then .ok (cur + 1)
    else .ok cur

/-- `SequenceOfLabelsGetSize` of the `bufSize` bytes from `off` on. -/
def sequenceOfLabelsGetSize (buf : List Byte) (off bufSize : Nat) : Except Errno Nat :=
  if bufSize = 0 then .error .einval else labelsSizeLoop buf off bufSize (bufSize + 1) 0

/-- The loop of `dns_msg_sequence_of_labels2name`.  `name` is what has been copied, a dot behind each
label, and `name_len` is its length. -/
def labels2nameLoop (buf : List Byte) (msgSize maxPos nameBufSize : Nat) :
    Nat → Nat → Nat → List Byte → Except Errno (List Byte)
  | 0, _, _, _ => .error .noReturn
  | fuel + 1, jumps, cur, name =>
    if maxNameCycles ≤ jumps then .error .eloop
    else
      let label := byteAt buf cur
      if label &&& labelCtrlMask = 0xc0#8 then
        let offset := (getBe16 buf cur &&& 0x3fff#16).toNat
        if msgSize < offset ∨ offset < hdrSize ∨ cur = offset then .error .ebadmsg
        else labels2nameLoop buf msgSize maxPos nameBufSize fuel (jumps + 1) offset name
      else if label &&& labelCtrlMask ≠ 0x00#8 then .error .eopnotsupp
      else
        let len := (label &&& labelDataMask).toNat
        let cur := cur + 1
        if maxPos < cur + len then .error .ebadmsg
        -- the last dot is taken back
        else if len = 0 then .ok name.dropLast
        else if nameBufSize ≤ name.length + (len + 1) then .error .eoverflow
        else labels2nameLoop buf msgSize maxPos nameBufSize fuel jumps (cur + len)
          (name ++ (buf.drop cur).take len ++ [dot])

/-- `dns_msg_sequence_of_labels2name`.  A step either takes a jump or makes the name longer, so the
fuel is never used up. -/
def sequenceOfLabels2name (buf : List Byte) (msgSize offset nameBufSize : Nat) :
    Except Errno (List Byte) :=
  if nameBufSize = 0 ∨ offset < hdrSize ∨ msgSize < offset then .error .einval
  else if msgSize < hdrSize then .error .ebadmsg
  -- `max_pos` is counted from the name, not from the header
  else labels2nameLoop buf msgSize (offset + msgSize) nameBufSize
    (nameBufSize + maxNameCycles + 1) 0 offset []

def name2sequenceOfLabels (buf : List Byte) (offset : Nat) (name : List Byte) (compress : Bool) :
    Except Errno (List Byte × Nat) :=
  if offset < hdrSize ∨ buf.length < offset then .error .einval
  else if compress then .error .eopnotsupp
  else do
    let (rest, nameSize) ← domainNameToSequenceOfLabels name (buf.drop offset)
    return (buf.take offset ++ rest, nameSize)

/-! ## Header -/

def hdrIdGet (buf : List Byte) : BitVec 16 := getLe16 buf 0

def hdrQdGet (buf : List Byte) : Nat := (getBe16 buf 4).toNat
def hdrAnGet (buf : List Byte) : Nat := (getBe16 buf 6).toNat
def hdrNsGet (buf : List Byte) : Nat := (getBe16 buf 8).toNat
def hdrArGet (buf : List Byte) : Nat := (getBe16 buf 10).toNat

def hdrQdInc (buf : List Byte) (val : BitVec 16) : List Byte :=
  splice buf 4 (be16 (getBe16 buf 4 + val))

def hdrAnSet (buf : List Byte) (val : BitVec 16) : List Byte := splice buf 6 (be16 val)
def hdrNsSet (buf : List Byte) (val : BitVec 16) : List Byte := splice buf 8 (be16 val)
def hdrArSet (buf : List Byte) (val : BitVec 16) : List Byte := splice buf 10 (be16 val)

/-- `dns_hdr_create`: the buffer and the message size.  The id and the flags are stored as they are. -/
def hdrCreate (id flags : BitVec 16) (buf : List Byte) : Except Errno (List Byte × Nat) :=
  if buf.length < hdrSize then .error .eoverflow
  else .ok (splice buf 0 (le16 id ++ le16 flags ++ List.replicate 8 0), hdrSize)

/-! ## Questions -/

/-- `dns_msg_question_add`: the buffer and the message size. -/
def questionAdd (buf : List Byte) (msgSize : Nat) (compress : Bool) (name : List Byte)
    (type cls : BitVec 16) : Except Errno (List Byte × Nat) :=
  if msgSize < hdrSize then .error .ebadmsg
  else if buf.length < msgSize + (2 + name.length) + questionFixed then .error .eoverflow
  else do
    let (buf, nameSize) ← name2sequenceOfLabels buf msgSize name compress
    let buf := splice buf (msgSize + nameSize) (be16 type ++ be16 cls)
    return (hdrQdInc buf 1, msgSize + nameSize + questionFixed)

structure QuestionData where
  /-- what was copied to the caller's name buffer, when there is one -/
  name : Option (List Byte)
  type : BitVec 16
  cls : BitVec 16
  /-- `question_size_ret` -/
  size : Nat
  deriving DecidableEq, Repr

/-- `dns_msg_question_get_data`.  `nameBuf` is the size of the caller's name buffer. -/
def questionGetData (buf : List Byte) (msgSize offset : Nat) (nameBuf : Option Nat) :
    Except Errno QuestionData :=
  if offset = 0 ∨ msgSize < offset then .error .einval
  else if msgSize < hdrSize then .error .ebadmsg
  else
    match sequenceOfLabelsGetSize buf offset (msgSize - offset) with
    | .error _ => .error .ebadmsg
    | .ok nameSize =>
      let size := nameSize + questionFixed
      if msgSize < offset + size then .error .ebadmsg
      else do
        let name ← nameBuf.mapM (sequenceOfLabels2name buf msgSize offset)
        return {
          name, size
          type := getBe16 buf (offset + nameSize)
          cls := getBe16 buf (offset + nameSize + 2) }

def questionGetSize (buf : List Byte) (msgSize offset : Nat) : Except Errno Nat :=
  (questionGetData buf msgSize offset none).map (·.size)

/-! ## Resource records -/

/-- `dns_msg_rr_add`: the buffer and `rr_size`.  The size is set before the name is stored, and is
not set again. -/
def rrAdd (buf : List Byte) (msgSize : Nat) (compress : Bool) (name : List Byte)
    (type cls : BitVec 16) (ttl : BitVec 32) (data : List Byte) : Except Errno (List Byte × Nat) :=
  if msgSize < hdrSize then .error .ebadmsg
  else
    let rrSize := msgSize + (2 + name.length) + rrFixed + data.length
    if buf.length < rrSize then .error .eoverflow
    else do
      let (buf, nameSize) ← name2sequenceOfLabels buf msgSize name compress
      if buf.length < msgSize + nameSize + rrFixed + data.length then .error .eoverflow
      else
        let fixed := be16 type ++ be16 cls ++ be32 ttl ++ be16 (BitVec.ofNat 16 data.length)
        return (splice buf (msgSize + nameSize) (fixed ++ data), rrSize)

structure RrData where
  name : Option (List Byte)
  type : BitVec 16
  cls : BitVec 16
  ttl : BitVec 32
  /-- the `data_size` bytes at `data` -/
  data : List Byte
  /-- `rr_size` -/
  size : Nat
  deriving DecidableEq, Repr

def rrGetData (buf : List Byte) (msgSize offset : Nat) (nameBuf : Option Nat) :
    Except Errno RrData :=
  if msgSize = 0 ∨ offset = 0 ∨ msgSize < offset then .error .einval
  else if msgSize < hdrSize then .error .ebadmsg
  else
    match sequenceOfLabelsGetSize buf offset (msgSize - offset) with
    | .error _ => .error .ebadmsg
    | .ok nameSize =>
      let fixed := offset + nameSize
      let dataSize := (getBe16 buf (fixed + 8)).toNat
      let size := nameSize + rrFixed + dataSize
      if msgSize < offset + size then .error .ebadmsg
      else do
        let name ← nameBuf.mapM (sequenceOfLabels2name buf msgSize offset)
        let type := getBe16 buf fixed
        return {
          name, type, size
          cls := getBe16 buf (fixed + 2)
          ttl := if type = typeOpt then getLe32 buf (fixed + 4) else getBe32 buf (fixed + 4)
          data := (buf.drop (fixed + rrFixed)).take dataSize }

def rrGetSize (buf : List Byte) (msgSize offset : Nat) : Except Errno Nat :=
  (rrGetData buf msgSize offset none).map (·.size)

/-! ## Messages -/

/-- The loops of `dns_msg_info_get`: the offset behind `count` items that start at `offset`. -/
def skip (getSize : Nat → Except Errno Nat) : Nat → Nat → Except Errno Nat
  | 0, offset => .ok offset
  | count + 1, offset => do
    let size ← getSize offset
    skip getSize count (offset + size)

structure MsgInfo where
  qdOff : Nat
  anOff : Nat
  nsOff : Nat
  arOff : Nat
  rrCount : Nat
  msgSize : Nat
  deriving DecidableEq, Repr

def msgInfoGet (buf : List Byte) (msgbufSize : Nat) : Except Errno MsgInfo :=
  if msgbufSize < hdrSize then .error .ebadmsg
  else do
    let anOff ← skip (questionGetSize buf msgbufSize) (hdrQdGet buf) hdrSize
    let nsOff ← skip (rrGetSize buf msgbufSize) (hdrAnGet buf) anOff
    let arOff ← skip (rrGetSize buf msgbufSize) (hdrNsGet buf) nsOff
    let msgSize ← skip (rrGetSize buf msgbufSize) (hdrArGet buf) arOff
    return {
      anOff, nsOff, arOff, msgSize
      qdOff := hdrSize
      rrCount := hdrAnGet buf + hdrNsGet buf + hdrArGet buf }

end Dns
