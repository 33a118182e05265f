import Liblcb.Lib.StateErr
import Liblcb.Utils.Wire

/-!
# RADIUS packets

The functions of `proto/radius.h`.  A packet buffer is the list of its bytes and its length is
`pkt_buf_size`; a pointer to an attribute is its offset from the header.  The code is byte 0, the
identifier byte 1, the length stands at 2 and the authenticator at 4; the attributes follow from 20
on.  A function that writes to a packet is an action on the buffer, which keeps what a failed call
has written.  `pkt_size_ret` and `offset_ret` of a call that fails are left out.
-/

namespace Radius

open Mem Wire Buffer

/-- MD5 and HMAC-MD5. -/
structure Hashes where
  md5 : List Byte → List Byte
  /-- the key comes first -/
  hmacMd5 : List Byte → List Byte → List Byte
  length_md5 : ∀ m, (md5 m).length = 16
  length_hmacMd5 : ∀ k m, (hmacMd5 k m).length = 16

/-! ## Attribute types -/

def typeUserPassword : Byte := 2#8
def typeChapPassword : Byte := 3#8
def typeMsgAuthentic : Byte := 80#8

def userPasswordMaxLen : Nat := 128

def attrDataSizeMax : Nat := 253

/-- `RADIUS_ATTR_PARAM_T_*`. -/
inductive DataType where
  | none | str | text | ipv4 | ipv6 | ipv6Prefix | int8 | int16 | int32 | int64 | time32
  | vendorSpec | ext | extLong | adv | any
  deriving DecidableEq, Repr

/-- `rad_attr_param_t` without the display name. -/
structure AttrParam where
  lenMin : Nat
  lenMax : Nat
  dataType : DataType
  deriving DecidableEq, Repr

def AttrParam.plain (t : DataType) : AttrParam := ⟨0, 0, t⟩

def attrParams : List AttrParam :=
  [.plain .none, .plain .text, ⟨16, 128, .str⟩, ⟨17, 17, .str⟩, .plain .ipv4, -- 0
   .plain .int32, .plain .int32, .plain .int32, .plain .ipv4, .plain .ipv4,
   .plain .int32, .plain .text, .plain .int32, .plain .int32, .plain .ipv4,
   .plain .int32, .plain .int32, .plain .none, .plain .text, .plain .str,
   .plain .str, .plain .none, .plain .text, .plain .int32, .plain .str, -- 20
   .plain .str, ⟨5, 0, .vendorSpec⟩, .plain .int32, .plain .int32, .plain .int32,
   .plain .str, .plain .str, .plain .str, .plain .str, .plain .str,
   .plain .str, ⟨32, 0, .str⟩, .plain .int32, .plain .int32, .plain .str,
   .plain .int32, .plain .int32, .plain .int32, .plain .int32, .plain .text, -- 40
   .plain .int32, .plain .int32, .plain .int32, .plain .int32, .plain .int32,
   .plain .str, .plain .int32, .plain .int32, .plain .int32, .plain .none,
   .plain .time32, .plain .int32, .plain .int32, ⟨2, 0, .str⟩, ⟨8, 8, .str⟩,
   ⟨5, 0, .str⟩, .plain .int32, .plain .int32, .plain .str, .plain .int32, -- 60
   .plain .int32, .plain .str, .plain .str, .plain .str, ⟨3, 0, .str⟩,
   ⟨16, 16, .str⟩, ⟨14, 14, .str⟩, .plain .int32, .plain .int32, .plain .str,
   .plain .int32, .plain .int32, .plain .text, .plain .str, .plain .str,
   ⟨16, 16, .str⟩, .plain .str, .plain .str, .plain .int32, ⟨8, 8, .str⟩, -- 80
   .plain .int32, .plain .int32, .plain .text, .plain .str, ⟨255, 0, .str⟩,
   .plain .str, .plain .str, .plain .str, .plain .none, ⟨2, 2, .str⟩,
   .plain .ipv6, .plain .int64, .plain .ipv6Prefix, .plain .ipv6, .plain .text,
   .plain .str, .plain .int32, .plain .str, .plain .text, .plain .text, -- 100
   .plain .text, .plain .text, .plain .text, .plain .text, .plain .text,
   .plain .text, .plain .text, .plain .text, .plain .text, ⟨8, 8, .text⟩,
   .plain .text, .plain .text, .plain .text, .plain .text, .plain .text,
   .plain .text, .plain .text, .plain .text, .plain .ipv6Prefix, .plain .int64, -- 120
   .plain .ipv6Prefix, ⟨2, 0, .text⟩, ⟨20, 0, .str⟩, ⟨3, 0, .str⟩, ⟨10, 0, .str⟩,
   .plain .str, .plain .int32, .plain .int32, .plain .int32, .plain .int32,
   .plain .text, .plain .int32, .plain .str, .plain .str, ⟨28, 28, .adv⟩,
   ⟨3, 0, .adv⟩, ⟨2, 2, .adv⟩, ⟨6, 6, .adv⟩, ⟨133, 133, .adv⟩, .plain .text, -- 140
   .plain .str, .plain .text, .plain .ipv6, .plain .ipv6, .plain .ipv4,
   .plain .ipv4, .plain .ipv6Prefix, .plain .ipv6Prefix, .plain .int64, .plain .int64,
   ⟨6, 6, .adv⟩, ⟨6, 6, .adv⟩, .plain .ipv4, .plain .ipv4, .plain .ipv6,
   .plain .ipv6, .plain .ipv4, .plain .ipv4, .plain .int32, .plain .str, -- 160
   .plain .str, .plain .str, .plain .str, .plain .ipv6, .plain .ipv6,
   .plain .ipv6Prefix, .plain .str, .plain .str, ⟨32, 0, .adv⟩, .plain .str,
   .plain .str, .plain .str, .plain .int32, .plain .int32, .plain .str,
   .plain .str, ⟨17, 17, .str⟩, ⟨4, 4, .adv⟩, ⟨2, 3, .str⟩, .plain .str, -- 180
   ⟨4, 4, .adv⟩, ⟨4, 4, .adv⟩, ⟨4, 4, .adv⟩, ⟨4, 4, .adv⟩, ⟨4, 4, .adv⟩,
   ⟨4, 4, .adv⟩, .plain .none, .plain .any, .plain .any, .plain .any,
   .plain .any, .plain .any, .plain .any, .plain .any, .plain .any,
   .plain .any, .plain .any, .plain .any, .plain .any, .plain .any, -- 200
   .plain .any, .plain .any, .plain .any, .plain .any, .plain .any,
   .plain .any, .plain .any, .plain .any, .plain .any, .plain .any,
   .plain .any, .plain .any, .plain .any, .plain .any, .plain .any,
   .plain .any, .plain .any, .plain .any, .plain .any, .plain .any, -- 220
   .plain .any, .plain .any, .plain .any, .plain .any, .plain .any,
   .plain .any, .plain .any, .plain .any, .plain .any, .plain .any,
   .plain .any, .plain .any, .plain .any, .plain .any, .plain .any,
   .plain .any, .plain .ext, .plain .ext, .plain .ext, .plain .ext, -- 240
   .plain .extLong, .plain .extLong, .plain .none, .plain .none, .plain .none,
   .plain .none, .plain .none, .plain .none, .plain .none, .plain .none,
   .plain .none]

def attrLenChk (type len : Byte) : Except Errno Unit :=
  let prm := attrParams.getD type.toNat (.plain .none)
  let len := len.toNat
  let check (bad : Bool) : Except Errno Unit := if bad then .error .einval else .ok ()
  if type = 0 ∨ len = 0 then .error .einval
  else
    match prm.dataType with
    | .none => .ok ()
    | .str | .text | .adv | .any =>
      check ((prm.lenMin ≠ 0 ∧ prm.lenMin ≠ 0xff ∧ len < prm.lenMin) ∨
        (prm.lenMin = 0 ∧ len < 1) ∨ (prm.lenMax ≠ 0 ∧ prm.lenMax < len))
    | .ipv4 | .int32 | .time32 => check (len ≠ 4)
    | .int64 => check (len ≠ 8)
    | .ipv6 => check (len ≠ 16)
    | .ipv6Prefix => check (len < 2 ∨ 18 < len)
    | .vendorSpec => check (len < 5)
    | .ext => check (len < 2)
    | .extLong => check (len < 3)
    | .int8 | .int16 => .error .einval

/-! ## Packets and attributes -/

def hdrSize : Nat := 20

def pktCode (pkt : List Byte) : Byte := byteAt pkt 0
def pktId (pkt : List Byte) : Byte := byteAt pkt 1

/-- `RADIUS_PKT_HDR_LEN_GET`. -/
def pktLen (pkt : List Byte) : Nat := (getBe16 pkt 2).toNat

def pktAuthenticator (pkt : List Byte) : List Byte := (pkt.drop 4).take 16

theorem length_pktAuthenticator {pkt : List Byte} (h : hdrSize ≤ pkt.length) :
    (pktAuthenticator pkt).length = 16 := by
  unfold hdrSize at h
  rw [pktAuthenticator, List.length_take, List.length_drop]
  omega

/-- `RADIUS_PKT_HDR_LEN_SET`. -/
def setPktLen (pkt : List Byte) (n : Nat) : List Byte := splice pkt 2 (be16 (BitVec.ofNat 16 n))

def attrType (pkt : List Byte) (attr : Nat) : Byte := byteAt pkt attr
def attrLen (pkt : List Byte) (attr : Nat) : Nat := (byteAt pkt (attr + 1)).toNat

/-- The `len - 2` bytes at `RADIUS_PKT_ATTR_DATA`. -/
def attrData (pkt : List Byte) (attr : Nat) : List Byte :=
  (pkt.drop (attr + 2)).take (attrLen pkt attr - 2)

def attrGetFromOffset (pkt : List Byte) (offset : Nat) : Except Errno Nat :=
  if offset < hdrSize ∨ pktLen pkt < offset then .error .einval
  else if pktLen pkt < offset + attrLen pkt offset then .error .ebadmsg
  else .ok offset

/-- The loop of `radius_pkt_attr_find_raw`. -/
def findLoop (pkt : List Byte) (type : Byte) : Nat → Nat → Nat → Except Errno Nat
  | 0, _, _ => .error .noReturn
  | fuel + 1, attrsSize, attr =>
    if attrsSize = 0 then .error .enoattr
    else if attrsSize < 2 then .error .ebadmsg
    else if attrsSize < attrLen pkt attr then .error .ebadmsg
    else if attrType pkt attr = 0 ∨ attrLen pkt attr < 2 then .error .ebadmsg
    else if type = attrType pkt attr then .ok attr
    else findLoop pkt type fuel (attrsSize - attrLen pkt attr) (attr + attrLen pkt attr)

/-- The bytes from `attr` to the end of the packet, as a `size_t`. -/
def attrsSize (pkt : List Byte) (attr : Nat) : Nat :=
  if attr ≤ pktLen pkt then pktLen pkt - attr else 2 ^ 64 - (attr - pktLen pkt)

/-- `radius_pkt_attr_find_raw` and `radius_pkt_attr_find`: the attribute is its offset. -/
def attrFind (pkt : List Byte) (offset : Nat) (type : Byte) : Except Errno Nat :=
  let search (attr : Nat) : Except Errno Nat :=
    findLoop pkt type (attrsSize pkt attr + 1) (attrsSize pkt attr) attr
  if offset ≠ 0 then
    match attrGetFromOffset pkt offset with
    | .error _ => .error .einval
    | .ok attr => search attr
  else search hdrSize

/-- `radius_pkt_attr_get_data_ptr_raw`: the type and the data. -/
def attrGetDataPtrRaw (pkt : List Byte) (offset : Nat) : Except Errno (Byte × List Byte) := do
  let attr ← attrGetFromOffset pkt offset
  return (attrType pkt attr, attrData pkt attr)

/-! ## User-Password -/

def xorBytes (as bs : List Byte) : List Byte := as.zipWith (· ^^^ ·) bs

/-- The loop of `radius_pkt_attr_password_encode`: a block is hidden with the digest of the key and
the hidden block before it. -/
def encodeBlocks (h : Hashes) (key : List Byte) : Nat → List Byte → List Byte → List Byte
  | 0, _, _ => []
  | n + 1, prev, buf =>
    let block := xorBytes (buf.take 16) (h.md5 (key ++ prev))
    block ++ encodeBlocks h key n block (buf.drop 16)

/-- The loop of `radius_pkt_attr_password_decode`. -/
def decodeBlocks (h : Hashes) (key : List Byte) : Nat → List Byte → List Byte → List Byte
  | 0, _, _ => []
  | n + 1, prev, buf =>
    xorBytes (buf.take 16) (h.md5 (key ++ prev)) ++
      decodeBlocks h key n (buf.take 16) (buf.drop 16)

def passwordLenAligned (passwordLen : Nat) : Nat :=
  if passwordLen ≠ 0 then (passwordLen + 15) / 16 * 16 else 16

/-- `radius_pkt_attr_password_encode`: what `buf` holds afterwards.  `none` is the null pointer; a
null key comes with length 0. -/
def passwordEncode (h : Hashes) (authenticator password : Option (List Byte)) (passwordLen : Nat)
    (key : List Byte) (bufIsNull : Bool) (bufSize : Nat) : Except Errno (List Byte) :=
  if userPasswordMaxLen < passwordLen then .error .einval
  else
    let aligned := passwordLenAligned passwordLen
    if bufSize < aligned then .error .eoverflow
    else
      match authenticator with
      | none => .error .einval
      | some authenticator =>
        if (password.isNone ∧ passwordLen ≠ 0) ∨ (bufIsNull ∧ bufSize ≠ 0) then .error .einval
        else
          let buf := (password.getD []).take passwordLen ++
            List.replicate (aligned - passwordLen) 0
          .ok (encodeBlocks h key (aligned / 16) authenticator buf)

/-- `radius_pkt_attr_password_decode` from a buffer to itself. -/
def passwordDecode (h : Hashes) (authenticator encPassword key : List Byte) :
    Except Errno (List Byte) :=
  let len := encPassword.length
  if len = 0 ∨ userPasswordMaxLen < len ∨ len % 16 ≠ 0 then .error .einval
  else .ok (decodeBlocks h key (len / 16) authenticator encPassword)

/-! ## Packet codes -/

/-- `RADIUS_PKT_TYPE_*`. -/
def accessRequest : Byte := 1#8
def accessAccept : Byte := 2#8
def accessReject : Byte := 3#8
def accountingRequest : Byte := 4#8
def accountingResponse : Byte := 5#8
def accessChallenge : Byte := 11#8
def statusServer : Byte := 12#8
def statusClient : Byte := 13#8
def disconnectRequest : Byte := 40#8
def disconnectAck : Byte := 41#8
def disconnectNak : Byte := 42#8
def coaRequest : Byte := 43#8
def coaAck : Byte := 44#8
def coaNak : Byte := 45#8

/-- The codes whose authenticator is random. -/
def randomCodes : List Byte := [accessRequest, statusServer, statusClient]

/-- The codes whose authenticator is counted as zero. -/
def zeroCodes : List Byte := [accountingRequest, disconnectRequest, coaRequest]

/-- The replies that `radius_pkt_init` always takes an authenticator for. -/
def replyCodes : List Byte :=
  [accessAccept, accessReject, accessChallenge, disconnectAck, disconnectNak, coaAck, coaNak]

def zeros16 : List Byte := List.replicate 16 0

/-! ## Message-Authenticator -/

/-- The authenticator `radius_pkt_attr_msg_authenticator_calc` counts. -/
inductive Counted where
  | bytes (authenticator : List Byte)
  | noRequest
  | badCode

def countedAuthenticator (pkt : List Byte) (inside : Bool) (req : Option (List Byte)) : Counted :=
  let code := pktCode pkt
  if inside ∨ code ∈ randomCodes then .bytes (pktAuthenticator pkt)
  else if code = accountingResponse then
    match req with
    | some req => if pktCode req = statusServer then .bytes (pktAuthenticator req) else .bytes zeros16
    | none => .bytes zeros16
  else if code ∈ zeroCodes then .bytes zeros16
  else if code ∈ replyCodes then
    match req with
    | some req => .bytes (pktAuthenticator req)
    | none => .noRequest
  else .badCode

/-- The bytes `radius_pkt_attr_msg_authenticator_calc` hashes: the data of the attribute counts as
zero. -/
def msgAuthenticatorBytes (pkt : List Byte) (attr : Nat) (authenticator : List Byte) : List Byte :=
  pkt.take 4 ++ authenticator ++ (pkt.drop hdrSize).take (attr + 2 - hdrSize) ++ zeros16 ++
    (pkt.drop (attr + 18)).take (pktLen pkt - (attr + 18))

/-- `radius_pkt_attr_msg_authenticator_calc`.  An error comes with what it leaves in the output. -/
def msgAuthenticatorCalc (h : Hashes) (pkt : List Byte) (attr : Nat) (key : List Byte) (inside : Bool)
    (req : Option (List Byte)) : Except (Errno × Option (List Byte)) (List Byte) :=
  if attrLen pkt attr ≠ 18 then .error (.ebadmsg, none)
  else
    match countedAuthenticator pkt inside req with
    | .bytes authenticator => .ok (h.hmacMd5 key (msgAuthenticatorBytes pkt attr authenticator))
    | .noRequest => .error (.einval, some (h.hmacMd5 key (pkt.take 4)))
    | .badCode => .error (.ebadmsg, some zeros16)

/-- The attribute of `radius_pkt_attr_msg_authenticator_chk` and `_update`. -/
def msgAuthenticatorAttr (pkt : List Byte) (offset : Nat) : Except Errno Nat :=
  if offset ≠ 0 then
    match attrGetFromOffset pkt offset with
    | .error _ => .error .einval
    | .ok attr => if attrType pkt attr ≠ typeMsgAuthentic then .error .einval else .ok attr
  else
    match attrFind pkt 0 typeMsgAuthentic with
    | .error _ => .error .minusOne
    | .ok attr => .ok attr

def msgAuthenticatorChk (h : Hashes) (pkt : List Byte) (offset : Nat) (key : List Byte) (inside : Bool)
    (req : Option (List Byte)) : Except Errno Unit := do
  let attr ← msgAuthenticatorAttr pkt offset
  match msgAuthenticatorCalc h pkt attr key inside req with
  | .error (e, _) => .error e
  | .ok digest => if (pkt.drop (attr + 2)).take 16 ≠ digest then .error .ebadmsg else .ok ()

/-- `radius_pkt_attr_msg_authenticator_update`: the output is the data of the attribute. -/
def msgAuthenticatorUpdate (h : Hashes) (offset : Nat) (key : List Byte) (inside : Bool)
    (req : Option (List Byte)) : EStateM Errno (List Byte) Unit := fun pkt =>
  match msgAuthenticatorAttr pkt offset with
  | .error e => .error e pkt
  | .ok attr =>
    match msgAuthenticatorCalc h pkt attr key inside req with
    | .error (e, none) => .error e pkt
    | .error (e, some out) => .error e (splice pkt (attr + 2) out)
    | .ok digest => .ok () (splice pkt (attr + 2) digest)

/-! ## Adding attributes -/

/-- `radius_pkt_attr_alloc_raw`: the new size and the offset of the attribute. -/
def attrAllocRaw (type len : Byte) : EStateM Errno (List Byte) (Nat × Nat) := fun pkt =>
  if attrDataSizeMax < len.toNat then .error .einval pkt
  else
    let attr := pktLen pkt
    let pktSize := attr + (2 + len.toNat)
    if pkt.length < pktSize then .error .eoverflow pkt
    else .ok (pktSize, attr) (setPktLen (splice pkt attr [type, 2#8 + len]) pktSize)

/-- `radius_pkt_attr_add_raw`.  `data` is the memory the pointer leads to. -/
def attrAddRaw (type len : Byte) (data : Option (List Byte)) :
    EStateM Errno (List Byte) (Nat × Nat) := do
  if data.isNone ∧ len ≠ 0 then throw .einval
  let (pktSize, attr) ← attrAllocRaw type len
  modify fun pkt => splice pkt (attr + 2) ((data.getD []).take len.toNat)
  return (pktSize, attr)

/-- Is the attribute there already?  As `radius_pkt_attr_add` asks. -/
def attrAbsent (type : Byte) : EStateM Errno (List Byte) Unit := fun pkt =>
  match attrFind pkt 0 type with
  | .error .enoattr => .ok () pkt
  | .ok _ => .error .eexist pkt
  | .error e => .error e pkt

def attrAdd (h : Hashes) (type len : Byte) (data : Option (List Byte)) :
    EStateM Errno (List Byte) (Nat × Nat) := do
  if type = 0 then throw .einval
  if type = typeUserPassword then
    if userPasswordMaxLen < len.toNat then throw .einval
    attrAbsent type
    attrAbsent typeChapPassword
    -- the size is asked for with no buffer
    match passwordEncode h none none len.toNat [] true 0 with
    | .error e => throw e
    | .ok _ =>
      let tm := passwordLenAligned len.toNat
      let (pktSize, attr) ← attrAllocRaw type (BitVec.ofNat 8 tm)
      modify fun pkt => splice pkt (attr + 2)
        ((data.getD []).take len.toNat ++ List.replicate (tm - len.toNat) 0)
      return (pktSize, attr)
  else if type = typeMsgAuthentic then
    attrAbsent type
    let (pktSize, attr) ← attrAllocRaw type 16#8
    modify fun pkt => splice pkt (attr + 2) zeros16
    return (pktSize, attr)
  else
    match attrLenChk type len with
    | .error e => throw e
    | .ok () => attrAddRaw type len data

/-- `radius_pkt_attr_add_uint32`: the bytes are taken as the host keeps them. -/
def attrAddUint32 (h : Hashes) (type : Byte) (data : BitVec 32) :
    EStateM Errno (List Byte) (Nat × Nat) :=
  attrAdd h type 4#8 (some (le32 data))

/-- `struct sockaddr_storage`: the address family, and the bytes from the start of the structure. -/
inductive Family where
  | inet | inet6 | other
  deriving DecidableEq, Repr

structure SockaddrStorage where
  family : Family
  bytes : List Byte
  length_bytes : bytes.length = 128

/-- Offset of `sin_addr` and of `sin6_addr`. -/
def sinAddr : Nat := 4
def sin6Addr : Nat := 8

/-- `sizeof(struct sockaddr_in)` and `sizeof(struct sockaddr_in6)`. -/
def sockaddrInSize : Byte := 16#8
def sockaddrIn6Size : Byte := 28#8

def attrAddAddr (h : Hashes) (typeV4 typeV6 : Byte) (addr : SockaddrStorage) :
    EStateM Errno (List Byte) (Nat × Nat) :=
  match addr.family with
  | .inet => attrAdd h typeV4 sockaddrInSize (some (addr.bytes.drop sinAddr))
  | .inet6 => attrAdd h typeV6 sockaddrIn6Size (some (addr.bytes.drop sin6Addr))
  | .other => throw .einval

/-! ## The authenticator of the packet -/

def authenticatorCalc (h : Hashes) (pkt key : List Byte) (inside : Bool) (req : Option (List Byte)) :
    Except Errno (List Byte) :=
  let code := pktCode pkt
  let attrs := (pkt.drop hdrSize).take (pktLen pkt - hdrSize)
  if code ∈ randomCodes then .ok (pktAuthenticator pkt)
  else if inside then .ok (h.md5 (pkt.take (pktLen pkt) ++ key))
  else if code ∈ zeroCodes then .ok (h.md5 (pkt.take 4 ++ zeros16 ++ attrs ++ key))
  else if code ∈ replyCodes ∨ code = accountingResponse then
    match req with
    | none => .error .einval
    | some req => .ok (h.md5 (pkt.take 4 ++ pktAuthenticator req ++ attrs ++ key))
  else .error .einval

def authenticatorChk (h : Hashes) (pkt key : List Byte) (inside : Bool) (req : Option (List Byte)) :
    Except Errno Unit :=
  if pktCode pkt ∈ randomCodes then .ok ()
  else
    match authenticatorCalc h pkt key inside req with
    | .error _ => .error .einval
    | .ok digest => if pktAuthenticator pkt ≠ digest then .error .ebadmsg else .ok ()

def authenticatorUpdate (h : Hashes) (key : List Byte) (inside : Bool) (req : Option (List Byte)) :
    EStateM Errno (List Byte) Unit := fun pkt =>
  if pktCode pkt ∈ randomCodes then .ok () pkt
  else
    match authenticatorCalc h pkt key inside req with
    | .error e => .error e pkt
    | .ok digest => .ok () (splice pkt 4 digest)

/-! ## Packets -/

/-- What `radius_pkt_init` writes as the authenticator. -/
def initAuthenticator (code : Byte) (authenticator : Option (List Byte)) : Except Errno (List Byte) :=
  if code = accountingResponse then .ok (authenticator.getD zeros16)
  else if code ∈ zeroCodes then .ok zeros16
  else if code ∈ randomCodes ∨ code ∈ replyCodes then
    match authenticator with
    | none => .error .einval
    | some authenticator => .ok authenticator
  else .error .einval

def pktInit (code id : Byte) (authenticator : Option (List Byte)) :
    EStateM Errno (List Byte) Unit := fun pkt =>
  if pkt.length < hdrSize then .error .eoverflow pkt
  else
    match initAuthenticator code authenticator with
    | .error e => .error e pkt
    | .ok authenticator =>
      .ok () (setPktLen (splice (splice pkt 4 (authenticator.take 16)) 0 [code, id]) hdrSize)

def pktReplyInit (code : Byte) (req : List Byte) : EStateM Errno (List Byte) Unit :=
  pktInit code (pktId req) (some (pktAuthenticator req))

/-- `radius_pkt_sign`: the size of the packet. -/
def pktSign (h : Hashes) (key : List Byte) (addMsgAuthr : Bool) : EStateM Errno (List Byte) Nat := do
  let pkt ← get
  match attrFind pkt 0 typeUserPassword with
  | .error _ => pure ()
  | .ok attr =>
    let len := attrLen pkt attr - 2
    match passwordEncode h (some (pktAuthenticator pkt)) (some (attrData pkt attr)) len key false
        len with
    | .error e => throw e
    | .ok buf => set (splice pkt (attr + 2) buf)
  let pkt ← get
  let offset ←
    if addMsgAuthr then
      let (_, offset) ← attrAdd h typeMsgAuthentic 0#8 none
      pure offset
    else
      match attrFind pkt 0 typeMsgAuthentic with
      | .ok offset => pure offset
      | .error .enoattr => pure 0
      | .error e => throw e
  if offset ≠ 0 then msgAuthenticatorUpdate h offset key true none
  authenticatorUpdate h key true none
  let pkt ← get
  return pktLen pkt

def pktVerify (h : Hashes) (key : List Byte) (req : Option (List Byte)) :
    EStateM Errno (List Byte) Unit := fun pkt =>
  let msgAuthr : Except Errno Unit :=
    match attrFind pkt 0 typeMsgAuthentic with
    | .error _ => .ok ()
    | .ok offset => msgAuthenticatorChk h pkt offset key false req
  match msgAuthr, authenticatorChk h pkt key false req with
  | .error e, _ => .error e pkt
  | .ok (), .error e => .error e pkt
  | .ok (), .ok () =>
    match attrFind pkt 0 typeUserPassword with
    | .error _ => .ok () pkt
    | .ok attr =>
      match passwordDecode h (pktAuthenticator pkt) (attrData pkt attr) key with
      | .error e => .error e pkt
      | .ok buf => .ok () (splice pkt (attr + 2) buf)

end Radius
