import Liblcb.Proto.RadiusAttrs

/-!
# Reading the attributes of a packet

`radius_pkt_chk`, the search for an attribute and `radius_pkt_attr_get_data_to_buf` of
`proto/radius.h`, with every read of the packet made explicit.  An offset counts from the header.
-/

namespace Radius.Get

open Mem Wire

/-- What a read at an offset gives; `none` is memory that is not to be read. -/
abbrev Memory := Nat → Option Byte

/-- Only the packet can be read. -/
def inside (pkt : List Byte) : Memory := fun i =>
  if i < pktLen pkt then some (byteAt pkt i) else none

/-- Anything stands behind the packet. -/
def followed (pkt : List Byte) (behind : Nat → Byte) : Memory := fun i =>
  some (if i < pktLen pkt then byteAt pkt i else behind i)

/-! ## `radius_pkt_chk` -/

def typeEapMsg : Byte := 79#8

def pktMaxSize : Nat := 4096

/-- The packet codes that are known. -/
def knownCodes : List Byte :=
  [accessRequest, accessAccept, accessReject, accountingRequest, accountingResponse,
   accessChallenge, statusServer, statusClient, disconnectRequest, disconnectAck, disconnectNak,
   coaRequest, coaAck, coaNak]

def attrChk (pkt : List Byte) (attr : Nat) : Except Errno Unit :=
  if attrType pkt attr = 0 ∨ attrLen pkt attr < 2 then .error .ebadmsg
  else
    match attrLenChk (attrType pkt attr) (byteAt pkt (attr + 1) - 2) with
    | .error _ => .error .ebadmsg
    | .ok () => .ok ()

theorem attrChk_ok {pkt : List Byte} {attr : Nat} (h : attrChk pkt attr = .ok ()) :
    attrType pkt attr ≠ 0 ∧ 2 ≤ attrLen pkt attr := by
  rw [attrChk] at h
  split at h
  next => cases h
  next hok =>
    rw [not_or, Nat.not_lt] at hok
    exact hok

/-- `eap_msg_cnt` and `msg_authentic_cnt`. -/
structure Counts where
  eapMsg : Nat
  msgAuthentic : Nat
  deriving DecidableEq, Repr

def Counts.add (c : Counts) (type : Byte) : Counts :=
  if type = typeEapMsg then { c with eapMsg := c.eapMsg + 1 }
  else if type = typeMsgAuthentic then { c with msgAuthentic := c.msgAuthentic + 1 }
  else c

/-- The loop of `radius_pkt_chk`. -/
def chkLoop (pkt : List Byte) (attrsSize attr : Nat) (c : Counts) : Except Errno Counts :=
  if attrsSize = 0 then .ok c
  else if attrsSize < 2 then .error .ebadmsg
  else if attrsSize < attrLen pkt attr then .error .ebadmsg
  else
    match _h : attrChk pkt attr with
    | .error e => .error e
    | .ok () =>
      chkLoop pkt (attrsSize - attrLen pkt attr) (attr + attrLen pkt attr)
        (c.add (attrType pkt attr))
termination_by attrsSize
decreasing_by
  have hlen := (attrChk_ok _h).2
  omega

/-- `radius_pkt_chk` of a packet in `pkt.length` bytes. -/
def pktChk (pkt : List Byte) : Except Errno Unit :=
  if pkt.length < pktLen pkt ∨ pktLen pkt < hdrSize ∨ pktMaxSize < pktLen pkt then .error .ebadmsg
  else if pktCode pkt ∉ knownCodes then .error .ebadmsg
  else
    match chkLoop pkt (pktLen pkt - hdrSize) hdrSize ⟨0, 0⟩ with
    | .error e => .error e
    | .ok c =>
      if 1 < c.msgAuthentic then .error .ebadmsg
      else if c.msgAuthentic = 0 ∧ (pktCode pkt = statusServer ∨ c.eapMsg ≠ 0) then .error .ebadmsg
      else .ok ()

/-! ## The search -/

def hdrLenGet (m : Memory) : Option Nat := do
  let hi ← m 2
  let lo ← m 3
  return (hi ++ lo).toNat

def attrGetFromOffset (m : Memory) (offset : Nat) : Option (Except Errno Nat) := do
  let pktSize ← hdrLenGet m
  if offset < hdrSize ∨ pktSize < offset then return .error .einval
  let len ← m (offset + 1)
  if pktSize < offset + len.toNat then return .error .ebadmsg
  return .ok offset

theorem rest_lt {attrsSize : Nat} {len attrType : Byte} (hfit : ¬attrsSize < len.toNat)
    (hgood : ¬(attrType = 0 ∨ len.toNat < 2)) : attrsSize - len.toNat < attrsSize := by
  have hlen := (not_or.mp hgood).2
  omega

/-- The loop of `radius_pkt_attr_find_raw`. -/
def findLoop (m : Memory) (type : Byte) (attrsSize attr : Nat) : Option (Except Errno Nat) :=
  if attrsSize = 0 then some (.error .enoattr)
  else if attrsSize < 2 then some (.error .ebadmsg)
  else
    match m (attr + 1) with
    | none => none
    | some len =>
      if attrsSize < len.toNat then some (.error .ebadmsg)
      else
        match m attr with
        | none => none
        | some attrType =>
          if attrType = 0 ∨ len.toNat < 2 then some (.error .ebadmsg)
          else if type = attrType then some (.ok attr)
          else findLoop m type (attrsSize - len.toNat) (attr + len.toNat)
termination_by attrsSize
decreasing_by exact rest_lt ‹_› ‹_›

/-- `radius_pkt_attr_find_raw` and `radius_pkt_attr_find`: the attribute is its offset. -/
def attrFind (m : Memory) (offset : Nat) (type : Byte) : Option (Except Errno Nat) :=
  let search (attr : Nat) : Option (Except Errno Nat) := do
    let pktSize ← hdrLenGet m
    findLoop m type (if attr ≤ pktSize then pktSize - attr else 2 ^ 64 - (attr - pktSize)) attr
  if offset ≠ 0 then
    match attrGetFromOffset m offset with
    | none => none
    | some (.error _) => some (.error .einval)
    | some (.ok attr) => search attr
  else search hdrSize

/-- A buffer in which every read gives a byte. -/
def whole (pkt : List Byte) : Memory := fun i => some (byteAt pkt i)

theorem findLoop_whole (pkt : List Byte) (type : Byte) {fuel attrsSize attr : Nat}
    (hfuel : attrsSize < fuel) :
    findLoop (whole pkt) type attrsSize attr =
      some (Radius.findLoop pkt type fuel attrsSize attr) := by
  induction fuel generalizing attrsSize attr with
  | zero => omega
  | succ fuel ih =>
    have htype : whole pkt attr = some (attrType pkt attr) := rfl
    have hlenByte : whole pkt (attr + 1) = some (byteAt pkt (attr + 1)) := rfl
    have hlen : (byteAt pkt (attr + 1)).toNat = attrLen pkt attr := rfl
    rw [findLoop, Radius.findLoop, hlenByte]
    simp only [htype, hlen]
    by_cases hzero : attrsSize = 0
    · rw [if_pos hzero, if_pos hzero]
    rw [if_neg hzero, if_neg hzero]
    by_cases hbad : attrType pkt attr = 0 ∨ attrLen pkt attr < 2
    · simp only [if_pos hbad]
      split <;> (try split) <;> rfl
    · have htwo : 2 ≤ attrLen pkt attr := by omega
      have hnext := @ih (attrsSize - attrLen pkt attr) (attr + attrLen pkt attr) (by omega)
      simp only [if_neg hbad, hnext]
      split <;> (try split) <;> (try split) <;> rfl

theorem attrFind_whole (pkt : List Byte) (offset : Nat) (type : Byte) :
    attrFind (whole pkt) offset type = some (Radius.attrFind pkt offset type) := by
  have hlen : hdrLenGet (whole pkt) = some (pktLen pkt) := rfl
  have hget : attrGetFromOffset (whole pkt) offset =
      some (Radius.attrGetFromOffset pkt offset) := by
    rw [attrGetFromOffset, hlen, Radius.attrGetFromOffset]
    simp only [Option.bind_eq_bind, Option.bind_some, whole]
    rw [← attrLen]
    split
    next => rfl
    next => split <;> rfl
  have hsearch := fun attr => @findLoop_whole pkt type _ _ attr (Nat.lt_succ_self (attrsSize pkt attr))
  rw [attrFind, Radius.attrFind, hlen, hget]
  by_cases hzero : offset ≠ 0
  · rw [if_pos hzero, if_pos hzero]
    cases Radius.attrGetFromOffset pkt offset with
    | error e => rfl
    | ok attr => exact hsearch attr
  · rw [if_neg hzero, if_neg hzero]
    exact hsearch hdrSize

/-! ## Data -/

def strnlen (m : Memory) (s : Nat) : Nat → Option Nat
  | 0 => some 0
  | maxlen + 1 =>
    match m s with
    | none => none
    | some b => if b = 0 then some 0 else (strnlen m (s + 1) maxlen).map (· + 1)

/-- `radius_pkt_attr_get_data_ptr`: where the data is, and its length. -/
def attrGetDataPtr (m : Memory) (offset : Nat) : Option (Except Errno (Nat × Nat)) :=
  match attrGetFromOffset m offset with
  | none => none
  | some (.error e) => some (.error e)
  | some (.ok attr) => do
    let type ← m attr
    let attrLen ← m (attr + 1)
    let data := attr + 2
    let len := (attrLen.toNat + (2 ^ 64 - 2)) % 2 ^ 64
    -- After decoding in radius_pkt_verify() password may be zero padded.
    let len ← if type = typeUserPassword then strnlen m data len else some len
    return .ok (data, len)

/-- `memcpy` from the packet. -/
def readBytes (m : Memory) (src : Nat) : Nat → Option (List Byte)
  | 0 => some []
  | n + 1 => do
    let b ← m src
    let bs ← readBytes m (src + 1) n
    return b :: bs

/-- The loop of `radius_pkt_attr_get_data_to_buf`: the return code, and the first `data_len` bytes
of the buffer. -/
def dataToBufLoop (m : Memory) (type : Byte) (bufSize : Nat) :
    Nat → Nat → Except Errno Unit → List Byte → Option (Except Errno Unit × List Byte)
  | 0, _, error, out => some (error, out)
  | count + 1, offset, error, out =>
    match attrFind m offset type with
    | none => none
    | some (.error _) => some (error, out)
    | some (.ok offset) =>
      match attrGetDataPtr m offset with
      | none => none
      | some (.error e) => some (.error e, out)
      | some (.ok (ptm, tm)) =>
        -- Not enought free space in buf.
        if bufSize < out.length + tm then some (.ok (), out)
        else
          match readBytes m ptm tm with
          | none => none
          | some bs =>
            -- Move next.
            dataToBufLoop m type bufSize count (offset + (tm + 2)) (.ok ()) (out ++ bs)

def attrGetDataToBuf (m : Memory) (offset : Nat) (count : BitVec 64) (type : Byte) (bufSize : Nat) :
    Option (Except Errno Unit × List Byte) :=
  -- Get all attrs.
  let count := if count = 0 then ~~~count else count
  dataToBufLoop m type bufSize count.toNat offset (.error .enoattr) []

end Radius.Get
