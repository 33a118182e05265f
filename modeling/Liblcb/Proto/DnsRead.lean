import Liblcb.Lib.Progress
import Liblcb.Proto.DnsNames

/-!
# Reading DNS messages

The readers of `proto/dns.h` with every access to the message and to the caller's name buffer
checked.  `buf` is the memory from the header on that may be read; `msgSize` is what the caller says.
-/

namespace Dns.Read

open Mem Wire Buffer Progress

/-- Why a call does not end with 0. -/
inductive Stop where
  /-- a read outside of the message -/
  | read
  /-- a write outside of the name buffer -/
  | write
  | errno (e : Errno)
deriving DecidableEq, Repr

def readByte (buf : List Byte) (i : Nat) : Except Stop Byte :=
  if i < buf.length then .ok (byteAt buf i) else .error .read

def readBe16 (buf : List Byte) (i : Nat) : Except Stop (BitVec 16) :=
  if i + 2 ≤ buf.length then .ok (getBe16 buf i) else .error .read

def readBytes (buf : List Byte) (i n : Nat) : Except Stop (List Byte) :=
  if i + n ≤ buf.length then .ok ((buf.drop i).take n) else .error .read

def writeBytes (name : List Byte) (i : Nat) (bs : List Byte) : Except Stop (List Byte) :=
  if i + bs.length ≤ name.length then .ok (splice name i bs) else .error .write

/-- What a loop returns. -/
def ended {α : Type} (r : Option (Except Stop α)) : Except Stop α :=
  r.getD (.error (.errno .noReturn))

/-! ## Names -/

/-- A turn of the loop of `SequenceOfLabelsGetSize`, `cur` bytes behind `off`. -/
def sizeTurn (buf : List Byte) (off bufSize cur : Nat) : Except Stop (Next Nat Nat) := do
  let label ← readByte buf (off + cur)
  let cur := cur + 1
  if label &&& labelCtrlMask = 0x00#8 then
    let len := (label &&& labelDataMask).toNat
    if bufSize < cur + len then .error (.errno .ebadmsg)
    else if len = 0 then .ok (.done cur)
    else .ok (.again (cur + len))
  -- the second byte of the pointer is counted and not read
  else if label &&& labelCtrlMask = 0xc0#8 then .ok (.done (cur + 1))
  else .ok (.done cur)

/-- `SequenceOfLabelsGetSize` of the `bufSize` bytes from `off` on. -/
def sequenceOfLabelsGetSize (buf : List Byte) (off bufSize : Nat) : Except Stop Nat :=
  if bufSize = 0 then .error (.errno .einval)
  else ended (run (catching (sizeTurn buf off bufSize)) (bufSize + 1 - ·) 0)

/-- Where the loops of the names are. -/
structure Walk where
  jumps : Nat
  cur : Nat
  nameLen : Nat
  /-- the caller's name buffer -/
  name : List Byte

/-- Every turn takes a jump or moves on to `maxPos`. -/
def Walk.rank (maxPos : Nat) (s : Walk) : Nat :=
  (maxNameCycles - s.jumps) * (maxPos + 2) + (maxPos + 1 - s.cur)

/-- A turn of the loops of the two walkers, which differ in what they do with a label: a pointer is
followed, and `label` goes on with the length of a label. -/
def walkTurn (buf : List Byte) (msgSize maxPos : Nat) (s : Walk)
    (label : Nat → Except Stop (Next Walk (Nat × List Byte))) :
    Except Stop (Next Walk (Nat × List Byte)) :=
  if maxNameCycles ≤ s.jumps then .error (.errno .eloop)
  else do
    let byte ← readByte buf s.cur
    if byte &&& labelCtrlMask = 0xc0#8 then
      -- only the first byte of the pointer is known to be there
      let tmu16 ← readBe16 buf s.cur
      let offset := (tmu16 &&& 0x3fff#16).toNat
      if msgSize < offset ∨ offset < hdrSize ∨ s.cur = offset then .error (.errno .ebadmsg)
      else .ok (.again { s with jumps := s.jumps + 1, cur := offset })
    else if byte &&& labelCtrlMask ≠ 0x00#8 then .error (.errno .eopnotsupp)
    else
      let len := (byte &&& labelDataMask).toNat
      if maxPos < s.cur + 1 + len then .error (.errno .ebadmsg) else label len

/-- A label for `dns_msg_sequence_of_labels_get_name_len`. -/
def countLabel (s : Walk) (len : Nat) : Except Stop (Next Walk (Nat × List Byte)) :=
  -- the last dot is taken back
  if len = 0 then .ok (.done (s.nameLen - 1, s.name))
  else .ok (.again { s with cur := s.cur + 1 + len, nameLen := s.nameLen + (len + 1) })

/-- A label for `dns_msg_sequence_of_labels2name`. -/
def copyLabel (buf : List Byte) (s : Walk) (len : Nat) :
    Except Stop (Next Walk (Nat × List Byte)) :=
  if len = 0 then do
    let name ← writeBytes s.name (s.nameLen - 1) [0#8]
    return .done (s.nameLen - 1, name)
  else if s.name.length ≤ s.nameLen + (len + 1) then .error (.errno .eoverflow)
  else do
    let data ← readBytes buf (s.cur + 1) len
    let name ← writeBytes s.name s.nameLen data
    let name ← writeBytes name (s.nameLen + len) [dot]
    return .again { s with
      cur := s.cur + 1 + len, nameLen := s.nameLen + (len + 1), name := name }

/-- A turn of the loop of `dns_msg_sequence_of_labels_get_name_len`. -/
def nameLenTurn (buf : List Byte) (msgSize maxPos : Nat) (s : Walk) :
    Except Stop (Next Walk (Nat × List Byte)) :=
  walkTurn buf msgSize maxPos s (countLabel s)

/-- A turn of the loop of `dns_msg_sequence_of_labels2name`. -/
def nameTurn (buf : List Byte) (msgSize maxPos : Nat) (s : Walk) :
    Except Stop (Next Walk (Nat × List Byte)) :=
  walkTurn buf msgSize maxPos s (copyLabel buf s)

def sequenceOfLabelsGetNameLen (buf : List Byte) (msgSize offset : Nat) : Except Stop Nat :=
  if offset < hdrSize ∨ msgSize < offset then .error (.errno .einval)
  else if msgSize < hdrSize then .error (.errno .ebadmsg)
  -- `max_pos` is counted from the name, not from the header
  else (ended (run (catching (nameLenTurn buf msgSize (offset + msgSize)))
    (Walk.rank (offset + msgSize)) ⟨0, offset, 0, []⟩)).map (·.1)

/-- `dns_msg_sequence_of_labels2name`: the length of the name and the name buffer. -/
def sequenceOfLabels2name (buf : List Byte) (msgSize offset : Nat) (name : List Byte) :
    Except Stop (Nat × List Byte) :=
  if name.length = 0 ∨ offset < hdrSize ∨ msgSize < offset then .error (.errno .einval)
  else if msgSize < hdrSize then .error (.errno .ebadmsg)
  else ended (run (catching (nameTurn buf msgSize (offset + msgSize)))
    (Walk.rank (offset + msgSize)) ⟨0, offset, 0, name⟩)

/-! ## Items -/

def itemName (buf : List Byte) (msgSize offset : Nat) : Option (List Byte) →
    Except Stop (Option (List Byte))
  | none => .ok none
  | some name => (sequenceOfLabels2name buf msgSize offset name).map fun r => some (r.2.take r.1)

def itemNameSize (buf : List Byte) (msgSize offset : Nat) : Except Stop Nat :=
  match sequenceOfLabelsGetSize buf offset (msgSize - offset) with
  | .error (.errno _) => .error (.errno .ebadmsg)
  | r => r

def questionGetData (buf : List Byte) (msgSize offset : Nat) (name : Option (List Byte)) :
    Except Stop QuestionData :=
  if offset = 0 ∨ msgSize < offset then .error (.errno .einval)
  else if msgSize < hdrSize then .error (.errno .ebadmsg)
  else do
    let nameSize ← itemNameSize buf msgSize offset
    let size := nameSize + questionFixed
    if msgSize < offset + size then .error (.errno .ebadmsg)
    else do
      let type ← readBe16 buf (offset + nameSize)
      let cls ← readBe16 buf (offset + nameSize + 2)
      -- the fields are read even where the name is refused
      let name ← itemName buf msgSize offset name
      return { name, type, cls, size }

def rrGetData (buf : List Byte) (msgSize offset : Nat) (name : Option (List Byte)) :
    Except Stop RrData :=
  if msgSize = 0 ∨ offset = 0 ∨ msgSize < offset then .error (.errno .einval)
  else if msgSize < hdrSize then .error (.errno .ebadmsg)
  else do
    let nameSize ← itemNameSize buf msgSize offset
    let fixed := offset + nameSize
    -- before the bounds are known
    let rdlength ← readBe16 buf (fixed + 8)
    let size := nameSize + rrFixed + rdlength.toNat
    if msgSize < offset + size then .error (.errno .ebadmsg)
    else do
      let type ← readBe16 buf fixed
      let cls ← readBe16 buf (fixed + 2)
      let _ ← readBytes buf (fixed + 4) 4
      let name ← itemName buf msgSize offset name
      return {
        name, type, cls, size
        ttl := if type = typeOpt then getLe32 buf (fixed + 4) else getBe32 buf (fixed + 4)
        data := (buf.drop (fixed + rrFixed)).take rdlength.toNat }

/-- The loops of `dns_msg_info_get`. -/
def skip (getSize : Nat → Except Stop Nat) : Nat → Nat → Except Stop Nat
  | 0, offset => .ok offset
  | count + 1, offset => do
    let size ← getSize offset
    skip getSize count (offset + size)

def msgInfoGet (buf : List Byte) (msgbufSize : Nat) : Except Stop MsgInfo :=
  if msgbufSize < hdrSize then .error (.errno .ebadmsg)
  else do
    let questionSize off := (questionGetData buf msgbufSize off none).map (·.size)
    let rrSize off := (rrGetData buf msgbufSize off none).map (·.size)
    let qd ← readBe16 buf 4
    let anOff ← skip questionSize qd.toNat hdrSize
    let an ← readBe16 buf 6
    let nsOff ← skip rrSize an.toNat anOff
    let ns ← readBe16 buf 8
    let arOff ← skip rrSize ns.toNat nsOff
    let ar ← readBe16 buf 10
    let msgSize ← skip rrSize ar.toNat arOff
    return {
      anOff, nsOff, arOff, msgSize
      qdOff := hdrSize
      rrCount := an.toNat + ns.toNat + ar.toNat }

/-! ## The turns -/

variable {buf : List Byte} {msgSize maxPos : Nat} {s s' : Walk}

/-- A label of `len` bytes starts at `cur`. -/
structure LabelAt (buf : List Byte) (cur len : Nat) : Prop where
  inside : cur < buf.length
  ctrl : byteAt buf cur &&& labelCtrlMask = 0x00#8
  len_eq : (byteAt buf cur &&& labelDataMask).toNat = len

/-- A pointer to `offset` stands at `cur`. -/
structure PointerAt (buf : List Byte) (cur offset : Nat) : Prop where
  inside : cur + 2 ≤ buf.length
  ctrl : byteAt buf cur &&& labelCtrlMask = 0xc0#8
  offset_eq : (getBe16 buf cur &&& 0x3fff#16).toNat = offset

/-- The pointer at `cur` can be followed. -/
structure Follows (buf : List Byte) (msgSize cur offset : Nat) : Prop extends
    PointerAt buf cur offset where
  header : hdrSize ≤ offset
  le : offset ≤ msgSize
  ne : cur ≠ offset

/-- The first byte at `cur`, or the second one of a pointer, is not there. -/
inductive CutAt (buf : List Byte) (cur : Nat) : Prop where
  | label (h : buf.length ≤ cur)
  | pointer (h : cur + 1 = buf.length) (ctrl : byteAt buf cur &&& labelCtrlMask = 0xc0#8)

theorem readByte_ok {i : Nat} (h : i < buf.length) : readByte buf i = .ok (byteAt buf i) := if_pos h

theorem readByte_error {i : Nat} (h : buf.length ≤ i) : readByte buf i = .error .read :=
  if_neg (Nat.not_lt_of_le h)

theorem readBe16_ok {i : Nat} (h : i + 2 ≤ buf.length) : readBe16 buf i = .ok (getBe16 buf i) :=
  if_pos h

theorem readBytes_ok {i n : Nat} (h : i + n ≤ buf.length) :
    readBytes buf i n = .ok ((buf.drop i).take n) := if_pos h

theorem writeBytes_ok {name bs : List Byte} {i : Nat} (h : i + bs.length ≤ name.length) :
    writeBytes name i bs = .ok (splice name i bs) := if_pos h

theorem labelAt_of_at {cur : Nat} {l : List Byte} (hlen : l.length ≤ 63)
    (hat : At buf cur (BitVec.ofNat 8 l.length :: l)) : LabelAt buf cur l.length := by
  have hle := hat.length_le (List.cons_ne_nil _ _)
  rw [List.length_cons] at hle
  refine ⟨by omega, ?_, ?_⟩
  · rw [hat.byteAt_eq]
    exact (label_len hlen).1
  · rw [hat.byteAt_eq]
    exact (label_len hlen).2

variable {label : Nat → Except Stop (Next Walk (Nat × List Byte))} {len offset : Nat}
  {r : Except Stop (Next Walk (Nat × List Byte))}

theorem walkTurn_label (hj : s.jumps < maxNameCycles) (hl : LabelAt buf s.cur len)
    (hpos : s.cur + 1 + len ≤ maxPos) : walkTurn buf msgSize maxPos s label = label len := by
  have hnot : ¬ byteAt buf s.cur &&& labelCtrlMask = 0xc0#8 := by
    rw [hl.ctrl]
    decide
  rw [walkTurn, if_neg (Nat.not_le_of_lt hj), readByte_ok hl.inside]
  change (if byteAt buf s.cur &&& labelCtrlMask = 0xc0#8 then _ else _) = _
  rw [if_neg hnot, if_neg (not_not.mpr hl.ctrl)]
  simp only [hl.len_eq]
  rw [if_neg (Nat.not_lt_of_le hpos)]

theorem walkTurn_pointer (hj : s.jumps < maxNameCycles) (hp : Follows buf msgSize s.cur offset) :
    walkTurn buf msgSize maxPos s label =
      .ok (.again { s with jumps := s.jumps + 1, cur := offset }) := by
  have hgood : ¬ (msgSize < offset ∨ offset < hdrSize ∨ s.cur = offset) := by
    rintro (h | h | h)
    · exact Nat.not_lt_of_le hp.le h
    · exact Nat.not_lt_of_le hp.header h
    · exact hp.ne h
  have hin : s.cur < buf.length := Nat.lt_of_succ_lt hp.inside
  rw [walkTurn, if_neg (Nat.not_le_of_lt hj), readByte_ok hin]
  change (if byteAt buf s.cur &&& labelCtrlMask = 0xc0#8 then _ else _) = _
  rw [if_pos hp.ctrl, readBe16_ok hp.inside]
  change (if msgSize < (getBe16 buf s.cur &&& 0x3fff#16).toNat ∨ _ then _ else _) = _
  rw [hp.offset_eq, if_neg hgood]

theorem walkTurn_cut (hj : s.jumps < maxNameCycles) (hc : CutAt buf s.cur) :
    walkTurn buf msgSize maxPos s label = .error .read := by
  rw [walkTurn, if_neg (Nat.not_le_of_lt hj)]
  rcases hc with h | ⟨h, hctrl⟩
  · rw [readByte_error h]
    rfl
  · rw [readByte_ok (by omega)]
    change (if byteAt buf s.cur &&& labelCtrlMask = 0xc0#8 then _ else _) = _
    rw [if_pos hctrl, readBe16, if_neg (by omega)]
    rfl

theorem walkTurn_eloop (hj : maxNameCycles ≤ s.jumps) :
    walkTurn buf msgSize maxPos s label = .error (.errno .eloop) := if_pos hj

theorem walkTurn_bad_pointer (hj : s.jumps < maxNameCycles) (hp : PointerAt buf s.cur offset)
    (hbad : msgSize < offset ∨ offset < hdrSize ∨ s.cur = offset) :
    walkTurn buf msgSize maxPos s label = .error (.errno .ebadmsg) := by
  have hin : s.cur < buf.length := Nat.lt_of_succ_lt hp.inside
  rw [walkTurn, if_neg (Nat.not_le_of_lt hj), readByte_ok hin]
  change (if byteAt buf s.cur &&& labelCtrlMask = 0xc0#8 then _ else _) = _
  rw [if_pos hp.ctrl, readBe16_ok hp.inside]
  change (if msgSize < (getBe16 buf s.cur &&& 0x3fff#16).toNat ∨ _ then _ else _) = _
  rw [hp.offset_eq, if_pos hbad]

theorem walkTurn_unsupported (hj : s.jumps < maxNameCycles) (hin : s.cur < buf.length)
    (hptr : byteAt buf s.cur &&& labelCtrlMask ≠ 0xc0#8)
    (hlabel : byteAt buf s.cur &&& labelCtrlMask ≠ 0x00#8) :
    walkTurn buf msgSize maxPos s label = .error (.errno .eopnotsupp) := by
  rw [walkTurn, if_neg (Nat.not_le_of_lt hj), readByte_ok hin]
  change (if byteAt buf s.cur &&& labelCtrlMask = 0xc0#8 then _ else _) = _
  rw [if_neg hptr, if_pos hlabel]

theorem LabelAt.not_pointer {cur : Nat} (hl : LabelAt buf cur len) :
    byteAt buf cur &&& labelCtrlMask ≠ 0xc0#8 := by
  rw [hl.ctrl]
  decide

theorem walkTurn_long (hj : s.jumps < maxNameCycles) (hl : LabelAt buf s.cur len)
    (hpos : maxPos < s.cur + 1 + len) :
    walkTurn buf msgSize maxPos s label = .error (.errno .ebadmsg) := by
  rw [walkTurn, if_neg (Nat.not_le_of_lt hj), readByte_ok hl.inside]
  change (if byteAt buf s.cur &&& labelCtrlMask = 0xc0#8 then _ else _) = _
  rw [if_neg hl.not_pointer, if_neg (not_not.mpr hl.ctrl)]
  simp only [hl.len_eq]
  rw [if_pos hpos]

theorem place_cases (buf : List Byte) (cur : Nat) :
    CutAt buf cur ∨ (∃ offset, PointerAt buf cur offset) ∨ (∃ len, LabelAt buf cur len) ∨
    (cur < buf.length ∧ byteAt buf cur &&& labelCtrlMask ≠ 0xc0#8 ∧
      byteAt buf cur &&& labelCtrlMask ≠ 0x00#8) := by
  by_cases hin : cur < buf.length
  case neg => exact .inl (.label (Nat.le_of_not_lt hin))
  by_cases hptr : byteAt buf cur &&& labelCtrlMask = 0xc0#8
  · by_cases hin2 : cur + 2 ≤ buf.length
    · exact .inr (.inl ⟨_, hin2, hptr, rfl⟩)
    · exact .inl (.pointer (by omega) hptr)
  · by_cases hlabel : byteAt buf cur &&& labelCtrlMask = 0x00#8
    · exact .inr (.inr (.inl ⟨_, hin, hlabel, rfl⟩))
    · exact .inr (.inr (.inr ⟨hin, hptr, hlabel⟩))

def Refused {α : Type} (r : Except Stop α) : Prop :=
  ∃ e, e ≠ Errno.noReturn ∧ r = .error (.errno e)

theorem walkTurn_cases (h : walkTurn buf msgSize maxPos s label = r) :
    Refused r ∨
    s.jumps < maxNameCycles ∧
      ((r = .error .read ∧ CutAt buf s.cur) ∨
      (∃ offset, Follows buf msgSize s.cur offset ∧
        r = .ok (.again { s with jumps := s.jumps + 1, cur := offset })) ∨
      (∃ len, LabelAt buf s.cur len ∧ s.cur + 1 + len ≤ maxPos ∧ r = label len)) := by
  by_cases hj : s.jumps < maxNameCycles
  case neg =>
    rw [walkTurn_eloop (Nat.le_of_not_lt hj)] at h
    exact .inl ⟨_, by decide, h.symm⟩
  rcases place_cases buf s.cur with hcut | ⟨offset, hp⟩ | ⟨len, hl⟩ | ⟨hin, hptr, hlabel⟩
  · rw [walkTurn_cut hj hcut] at h
    exact .inr ⟨hj, .inl ⟨h.symm, hcut⟩⟩
  · by_cases hbad : msgSize < offset ∨ offset < hdrSize ∨ s.cur = offset
    · rw [walkTurn_bad_pointer hj hp hbad] at h
      exact .inl ⟨_, by decide, h.symm⟩
    · rw [not_or, not_or, Nat.not_lt, Nat.not_lt] at hbad
      have hfollows : Follows buf msgSize s.cur offset := ⟨hp, hbad.2.1, hbad.1, hbad.2.2⟩
      rw [walkTurn_pointer hj hfollows] at h
      exact .inr ⟨hj, .inr (.inl ⟨_, hfollows, h.symm⟩)⟩
  · by_cases hpos : s.cur + 1 + len ≤ maxPos
    · rw [walkTurn_label hj hl hpos] at h
      exact .inr ⟨hj, .inr (.inr ⟨_, hl, hpos, h.symm⟩)⟩
    · rw [walkTurn_long hj hl (Nat.lt_of_not_le hpos)] at h
      exact .inl ⟨_, by decide, h.symm⟩
  · rw [walkTurn_unsupported hj hin hptr hlabel] at h
    exact .inl ⟨_, by decide, h.symm⟩

/-! ## Labels -/

theorem copyLabel_zero (h : s.nameLen < s.name.length) :
    copyLabel buf s 0 = .ok (.done (s.nameLen - 1, splice s.name (s.nameLen - 1) [0#8])) := by
  rw [copyLabel, if_pos rfl, writeBytes_ok (by rw [List.length_singleton]; omega)]
  rfl

theorem copyLabel_cut (hlen : len ≠ 0) (hroom : s.nameLen + (len + 1) < s.name.length)
    (hcut : buf.length < s.cur + 1 + len) : copyLabel buf s len = .error .read := by
  rw [copyLabel, if_neg hlen, if_neg (by omega), readBytes, if_neg (by omega)]
  rfl

theorem copyLabel_copy (hlen : len ≠ 0) (hroom : s.nameLen + (len + 1) < s.name.length)
    (hin : s.cur + 1 + len ≤ buf.length) : copyLabel buf s len = .ok (.again { s with
      cur := s.cur + 1 + len, nameLen := s.nameLen + (len + 1),
      name := splice s.name s.nameLen ((buf.drop (s.cur + 1)).take len ++ [dot]) }) := by
  have hdata : ((buf.drop (s.cur + 1)).take len).length = len := by
    rw [List.length_take, List.length_drop]
    omega
  have hfirst : s.nameLen + ((buf.drop (s.cur + 1)).take len).length ≤ s.name.length := by
    rw [hdata]
    omega
  have hsecond : s.nameLen + len + [dot].length ≤
      (splice s.name s.nameLen ((buf.drop (s.cur + 1)).take len)).length := by
    rw [length_splice hfirst, List.length_singleton]
    omega
  have hjoin := @splice_splice _ s.name _ [dot] _ hfirst
  rw [hdata] at hjoin
  rw [copyLabel, if_neg hlen, if_neg (by omega), readBytes_ok hin]
  change (writeBytes s.name s.nameLen _ >>= _) = _
  rw [writeBytes_ok hfirst]
  change (writeBytes _ (s.nameLen + len) [dot] >>= _) = _
  rw [writeBytes_ok hsecond, hjoin]
  rfl

theorem copyLabel_cases (hs : s.nameLen < s.name.length) (h : copyLabel buf s len = r) :
    (len = 0 ∧ r = .ok (.done (s.nameLen - 1, splice s.name (s.nameLen - 1) [0#8]))) ∨
    (len ≠ 0 ∧ s.name.length ≤ s.nameLen + (len + 1) ∧ r = .error (.errno .eoverflow)) ∨
    (len ≠ 0 ∧ s.nameLen + (len + 1) < s.name.length ∧ buf.length < s.cur + 1 + len ∧
      r = .error .read) ∨
    (len ≠ 0 ∧ s.nameLen + (len + 1) < s.name.length ∧ s.cur + 1 + len ≤ buf.length ∧
      r = .ok (.again { s with
        cur := s.cur + 1 + len, nameLen := s.nameLen + (len + 1),
        name := splice s.name s.nameLen ((buf.drop (s.cur + 1)).take len ++ [dot]) })) := by
  by_cases hlen : len = 0
  · left
    rw [hlen, copyLabel_zero hs] at h
    exact ⟨hlen, h.symm⟩
  · right
    by_cases hroom : s.nameLen + (len + 1) < s.name.length
    case neg =>
      left
      rw [copyLabel, if_neg hlen, if_pos (Nat.le_of_not_lt hroom)] at h
      exact ⟨hlen, Nat.le_of_not_lt hroom, h.symm⟩
    right
    by_cases hin : s.cur + 1 + len ≤ buf.length
    · right
      rw [copyLabel_copy hlen hroom hin] at h
      exact ⟨hlen, hroom, hin, h.symm⟩
    · left
      rw [copyLabel_cut hlen hroom (Nat.lt_of_not_le hin)] at h
      exact ⟨hlen, hroom, Nat.lt_of_not_le hin, h.symm⟩

def Walk.jumped (s : Walk) (offset : Nat) : Walk := { s with jumps := s.jumps + 1, cur := offset }

/-- The walk behind a label that was counted. -/
def Walk.counted (s : Walk) (len : Nat) : Walk :=
  { s with cur := s.cur + 1 + len, nameLen := s.nameLen + (len + 1) }

/-- The walk behind a label that was copied. -/
def Walk.copied (s : Walk) (buf : List Byte) (len : Nat) : Walk :=
  { s.counted len with name := splice s.name s.nameLen ((buf.drop (s.cur + 1)).take len ++ [dot]) }

/-- There is a place for the terminating zero. -/
def Walk.Room (s : Walk) : Prop := s.nameLen < s.name.length

/-- A label at the place of the walk that is not the last one. -/
structure Counts (buf : List Byte) (maxPos : Nat) (s : Walk) (len : Nat) : Prop extends
    LabelAt buf s.cur len where
  ne : len ≠ 0
  pos : s.cur + 1 + len ≤ maxPos

/-- Such a label that there is room for. -/
structure Fits (buf : List Byte) (maxPos : Nat) (s : Walk) (len : Nat) : Prop extends
    Counts buf maxPos s len where
  room : s.nameLen + (len + 1) < s.name.length

theorem nameLenTurn_pointer (hj : s.jumps < maxNameCycles) (hp : Follows buf msgSize s.cur offset) :
    nameLenTurn buf msgSize maxPos s = .ok (.again (s.jumped offset)) := by
  rw [nameLenTurn, walkTurn_pointer hj hp]
  rfl

theorem nameLenTurn_counts (hj : s.jumps < maxNameCycles) (hl : Counts buf maxPos s len) :
    nameLenTurn buf msgSize maxPos s = .ok (.again (s.counted len)) := by
  rw [nameLenTurn, walkTurn_label hj hl.toLabelAt hl.pos, countLabel, if_neg hl.ne]
  rfl

theorem nameLenTurn_end (hj : s.jumps < maxNameCycles) (hl : LabelAt buf s.cur 0)
    (hpos : s.cur + 1 ≤ maxPos) :
    nameLenTurn buf msgSize maxPos s = .ok (.done (s.nameLen - 1, s.name)) := by
  rw [nameLenTurn, walkTurn_label hj hl hpos, countLabel, if_pos rfl]

theorem nameLenTurn_cases (h : nameLenTurn buf msgSize maxPos s = r) :
    Refused r ∨
    s.jumps < maxNameCycles ∧
      ((r = .error .read ∧ CutAt buf s.cur) ∨
      (∃ offset, Follows buf msgSize s.cur offset ∧ r = .ok (.again (s.jumped offset))) ∨
      (LabelAt buf s.cur 0 ∧ s.cur + 1 ≤ maxPos ∧ r = .ok (.done (s.nameLen - 1, s.name))) ∨
      (∃ len, Counts buf maxPos s len ∧ r = .ok (.again (s.counted len)))) := by
  rw [nameLenTurn] at h
  rcases walkTurn_cases h with he | ⟨hj, hcut | hptr | ⟨len, hl, hpos, hr⟩⟩
  · exact .inl he
  · exact .inr ⟨hj, .inl hcut⟩
  · exact .inr ⟨hj, .inr (.inl hptr)⟩
  · refine .inr ⟨hj, .inr (.inr ?_)⟩
    by_cases hlen : len = 0
    · subst hlen
      exact .inl ⟨hl, hpos, hr⟩
    · rw [countLabel, if_neg hlen] at hr
      exact .inr ⟨len, ⟨hl, hlen, hpos⟩, hr⟩

theorem nameTurn_pointer (hj : s.jumps < maxNameCycles) (hp : Follows buf msgSize s.cur offset) :
    nameTurn buf msgSize maxPos s = .ok (.again (s.jumped offset)) := by
  rw [nameTurn, walkTurn_pointer hj hp]
  rfl

theorem nameTurn_copies (hj : s.jumps < maxNameCycles) (hl : Fits buf maxPos s len)
    (hin : s.cur + 1 + len ≤ buf.length) :
    nameTurn buf msgSize maxPos s = .ok (.again (s.copied buf len)) := by
  rw [nameTurn, walkTurn_label hj hl.toLabelAt hl.pos, copyLabel_copy hl.ne hl.room hin]
  rfl

theorem nameTurn_end (hj : s.jumps < maxNameCycles) (hs : s.Room) (hl : LabelAt buf s.cur 0)
    (hpos : s.cur + 1 ≤ maxPos) : nameTurn buf msgSize maxPos s =
      .ok (.done (s.nameLen - 1, splice s.name (s.nameLen - 1) [0#8])) := by
  rw [nameTurn, walkTurn_label hj hl hpos, copyLabel_zero hs]

theorem nameTurn_cut (hj : s.jumps < maxNameCycles) (hc : CutAt buf s.cur) :
    nameTurn buf msgSize maxPos s = .error .read := by
  rw [nameTurn, walkTurn_cut hj hc]

theorem nameTurn_cut_label (hj : s.jumps < maxNameCycles) (hl : Fits buf maxPos s len)
    (hcut : buf.length < s.cur + 1 + len) : nameTurn buf msgSize maxPos s = .error .read := by
  rw [nameTurn, walkTurn_label hj hl.toLabelAt hl.pos, copyLabel_cut hl.ne hl.room hcut]

theorem nameTurn_overflow (hj : s.jumps < maxNameCycles) (hl : Counts buf maxPos s len)
    (hroom : s.name.length ≤ s.nameLen + (len + 1)) :
    nameTurn buf msgSize maxPos s = .error (.errno .eoverflow) := by
  rw [nameTurn, walkTurn_label hj hl.toLabelAt hl.pos, copyLabel, if_neg hl.ne, if_pos hroom]

theorem nameTurn_cases (hs : s.Room) (h : nameTurn buf msgSize maxPos s = r) :
    Refused r ∨
    s.jumps < maxNameCycles ∧
      ((r = .error .read ∧ CutAt buf s.cur) ∨
      (∃ len, Fits buf maxPos s len ∧ buf.length < s.cur + 1 + len ∧ r = .error .read) ∨
      (∃ offset, Follows buf msgSize s.cur offset ∧ r = .ok (.again (s.jumped offset))) ∨
      (LabelAt buf s.cur 0 ∧ s.cur + 1 ≤ maxPos ∧
        r = .ok (.done (s.nameLen - 1, splice s.name (s.nameLen - 1) [0#8]))) ∨
      (∃ len, Fits buf maxPos s len ∧ s.cur + 1 + len ≤ buf.length ∧
        r = .ok (.again (s.copied buf len)))) := by
  rw [nameTurn] at h
  rcases walkTurn_cases h with he | ⟨hj, hcut | hptr | ⟨len, hl, hpos, hr⟩⟩
  · exact .inl he
  · exact .inr ⟨hj, .inl hcut⟩
  · exact .inr ⟨hj, .inr (.inr (.inl hptr))⟩
  · rcases copyLabel_cases hs hr.symm with ⟨rfl, hr'⟩ | ⟨-, -, hr'⟩ | ⟨hlen, hroom, hcut, hr'⟩ |
      ⟨hlen, hroom, hin, hr'⟩
    · exact .inr ⟨hj, .inr (.inr (.inr (.inl ⟨hl, hpos, hr'⟩)))⟩
    · exact .inl ⟨_, by decide, hr'⟩
    · exact .inr ⟨hj, .inr (.inl ⟨len, ⟨⟨hl, hlen, hpos⟩, hroom⟩, hcut, hr'⟩)⟩
    · exact .inr ⟨hj, .inr (.inr (.inr (.inr ⟨len, ⟨⟨hl, hlen, hpos⟩, hroom⟩, hin, hr'⟩)))⟩

theorem Fits.copied_length (hl : Fits buf maxPos s len) :
    (s.copied buf len).name.length = s.name.length := by
  apply length_splice
  have := hl.room
  rw [List.length_append, List.length_take, List.length_drop, List.length_singleton]
  omega

theorem nameTurn_keeps (hs : s.Room) (h : nameTurn buf msgSize maxPos s = .ok (.again s')) :
    s'.Room ∧ s'.name.length = s.name.length := by
  rcases nameTurn_cases hs h with ⟨e, -, he⟩ | ⟨-, ⟨he, -⟩ | ⟨len, -, -, he⟩ | ⟨offset, -, hs'⟩ |
    ⟨-, -, he⟩ | ⟨len, hl, -, hs'⟩⟩
  · cases he
  · cases he
  · cases he
  · cases hs'
    exact ⟨hs, rfl⟩
  · cases he
  · cases hs'
    have hlen := hl.copied_length
    refine ⟨?_, hlen⟩
    rw [Walk.Room, hlen]
    exact hl.room

def Moves (label : Walk → Nat → Except Stop (Next Walk (Nat × List Byte))) : Prop :=
  ∀ s len s', label s len = .ok (.again s') → s'.jumps = s.jumps ∧ s'.cur = s.cur + 1 + len

theorem countLabel_moves : Moves countLabel := by
  intro s len s' h
  rw [countLabel] at h
  split at h
  · cases h
  · cases h
    exact ⟨rfl, rfl⟩

theorem copyLabel_moves (buf : List Byte) : Moves (copyLabel buf) := by
  intro s len s' h
  rw [copyLabel] at h
  split at h
  · obtain ⟨name, -, h⟩ := bind_ok h
    cases h
  · split at h
    · cases h
    · obtain ⟨data, -, h⟩ := bind_ok h
      obtain ⟨name, -, h⟩ := bind_ok h
      obtain ⟨name', -, h⟩ := bind_ok h
      cases h
      exact ⟨rfl, rfl⟩

theorem walkTurn_lowers {label : Walk → Nat → Except Stop (Next Walk (Nat × List Byte))}
    (hlabel : Moves label) :
    Lowers (catching fun s => walkTurn buf msgSize maxPos s (label s)) (Walk.rank maxPos) := by
  intro s s' h
  rcases walkTurn_cases (catching_again.mp h) with ⟨e, -, he⟩ | ⟨hj, hcase⟩
  · cases he
  rcases hcase with ⟨he, -⟩ | ⟨offset, -, hs'⟩ | ⟨len, -, hpos, hs'⟩
  · cases he
  · cases hs'
    -- a pointer takes one of the jumps, which counts for more than any way back
    obtain ⟨k, hk⟩ : ∃ k, maxNameCycles - s.jumps = k + 1 := ⟨maxNameCycles - s.jumps - 1, by omega⟩
    have hk' : maxNameCycles - (s.jumps + 1) = k := by omega
    rw [Walk.rank, Walk.rank, hk, hk', Nat.succ_mul]
    omega
  · obtain ⟨hjumps, hcur⟩ := hlabel s len s' hs'.symm
    rw [Walk.rank, Walk.rank, hjumps, hcur]
    omega

theorem nameLenTurn_lowers (buf : List Byte) (msgSize maxPos : Nat) :
    Lowers (catching (nameLenTurn buf msgSize maxPos)) (Walk.rank maxPos) :=
  walkTurn_lowers countLabel_moves

theorem nameTurn_lowers (buf : List Byte) (msgSize maxPos : Nat) :
    Lowers (catching (nameTurn buf msgSize maxPos)) (Walk.rank maxPos) :=
  walkTurn_lowers (copyLabel_moves buf)

/-! ## What a loop returns -/

section Ended

variable {σ α : Type} {turn : σ → Except Stop (Next σ α)} {rank : σ → Nat} {t t' : σ}

theorem ended_run (hlow : Lowers (catching turn) rank) (r : Except Stop α) :
    ended (run (catching turn) rank t) = r ↔ run (catching turn) rank t = some r := by
  obtain ⟨r', hr'⟩ := run_catching hlow t
  rw [hr', Option.some.injEq]
  rfl

theorem ended_ok_iff (hlow : Lowers (catching turn) rank) {a : α} :
    ended (run (catching turn) rank t) = .ok a ↔
      ∃ t', Reaches (catching turn) t t' ∧ turn t' = .ok (.done a) := by
  rw [ended_run hlow, run_eq_some_iff hlow]
  simp only [catching_ok]

theorem ended_error_iff (hlow : Lowers (catching turn) rank) {e : Stop} :
    ended (run (catching turn) rank t) = .error e ↔
      ∃ t', Reaches (catching turn) t t' ∧ turn t' = .error e := by
  rw [ended_run hlow, run_eq_some_iff hlow]
  simp only [catching_error]

theorem ended_again (hlow : Lowers (catching turn) rank) (h : turn t = .ok (.again t')) :
    ended (run (catching turn) rank t) = ended (run (catching turn) rank t') := by
  rw [run_again hlow (catching_again.mpr h)]

theorem ended_done {a : α} (h : turn t = .ok (.done a)) :
    ended (run (catching turn) rank t) = .ok a := by
  rw [run_done (catching_ok.mpr h)]
  rfl

theorem ended_error {e : Stop} (h : turn t = .error e) :
    ended (run (catching turn) rank t) = .error e := by
  rw [run_done (catching_error.mpr h)]
  rfl

end Ended

end Dns.Read
