import Liblcb.Proto.Radius

/-!
# The attributes of a RADIUS packet

A packet that was built holds a list of attributes, one after another from the end of the header to
the length the header gives.  One lemma per operation says what it does to that list.
-/

namespace Radius

open Mem Wire Buffer

/-- An attribute that can stand in a packet. -/
structure Attr where
  type : Byte
  data : List Byte
  type_ne : type ≠ 0
  size : data.length ≤ attrDataSizeMax
  deriving DecidableEq

namespace Attr

def pair (a : Attr) : Byte × List Byte := (a.type, a.data)

def bytes (a : Attr) : List Byte := [a.type, BitVec.ofNat 8 (2 + a.data.length)] ++ a.data

@[simp] theorem length_bytes (a : Attr) : a.bytes.length = 2 + a.data.length := by
  rw [bytes, List.length_append]
  rfl

def withData (a : Attr) (data : List Byte) (h : data.length = a.data.length) : Attr where
  type := a.type
  data := data
  type_ne := a.type_ne
  size := by rw [h]; exact a.size

end Attr

def encode (as : List Attr) : List Byte := as.flatMap Attr.bytes

@[simp] theorem encode_nil : encode [] = [] := rfl

@[simp] theorem encode_cons (a : Attr) (as : List Attr) : encode (a :: as) = a.bytes ++ encode as :=
  List.flatMap_cons

@[simp] theorem encode_append (as bs : List Attr) : encode (as ++ bs) = encode as ++ encode bs :=
  List.flatMap_append

/-- The packet holds the attributes `as` and nothing else. -/
structure Holds (pkt : List Byte) (as : List Attr) : Prop where
  len : pktLen pkt = hdrSize + (encode as).length
  room : pktLen pkt ≤ pkt.length
  attrs : At pkt hdrSize (encode as)

/-- The caller's loop over a packet: the attributes at successive offsets, up to the length. -/
def walkLoop (pkt : List Byte) : Nat → Nat → Except Errno (List (Byte × List Byte))
  | 0, _ => .error .noReturn
  | fuel + 1, offset =>
    if pktLen pkt ≤ offset then .ok []
    else do
      let (type, data) ← attrGetDataPtrRaw pkt offset
      let rest ← walkLoop pkt fuel (offset + data.length + 2)
      return (type, data) :: rest

def walk (pkt : List Byte) : Except Errno (List (Byte × List Byte)) :=
  walkLoop pkt (pkt.length + 1) hdrSize

theorem pktLen_lt (pkt : List Byte) : pktLen pkt < 2 ^ 16 := (getBe16 pkt 2).isLt

/-! ## The first attribute of a type -/

theorem first_split (type : Byte) : ∀ as : List Attr, (∀ a ∈ as, a.type ≠ type) ∨
    ∃ pre a post, as = pre ++ a :: post ∧ a.type = type ∧ ∀ b ∈ pre, b.type ≠ type
  | [] => .inl fun _ h => absurd h List.not_mem_nil
  | a :: as => by
    by_cases ha : a.type = type
    · exact .inr ⟨[], a, as, rfl, ha, fun _ h => absurd h List.not_mem_nil⟩
    · rcases first_split type as with hno | ⟨pre, b, post, rfl, hb, hpre⟩
      · exact .inl (List.forall_mem_cons.mpr ⟨ha, hno⟩)
      · exact .inr ⟨a :: pre, b, post, rfl, hb, List.forall_mem_cons.mpr ⟨ha, hpre⟩⟩

theorem attr_at {pkt : List Byte} {off : Nat} {a : Attr} (h : At pkt off a.bytes) :
    attrType pkt off = a.type ∧ attrLen pkt off = 2 + a.data.length ∧ attrData pkt off = a.data := by
  rcases At.append_iff.mp h with ⟨hhdr, hdata⟩
  have hsize := a.size
  unfold attrDataSizeMax at hsize
  have hlen : attrLen pkt off = 2 + a.data.length := by
    rw [attrLen, (At.cons_iff.mp hhdr).2.byteAt_eq, BitVec.toNat_ofNat, Nat.mod_eq_of_lt (by omega)]
  refine ⟨hhdr.byteAt_eq, hlen, ?_⟩
  rw [attrData, hlen, Nat.add_sub_cancel_left]
  exact hdata

theorem findLoop_none {pkt : List Byte} {type : Byte} : ∀ {as : List Attr} {fuel off : Nat},
    At pkt off (encode as) → (∀ a ∈ as, a.type ≠ type) → as.length < fuel →
    findLoop pkt type fuel (encode as).length off = .error .enoattr
  | [], fuel, off, _, _, hfuel => by
    rcases Nat.exists_eq_add_of_lt hfuel with ⟨k, rfl⟩
    rw [findLoop, if_pos (by rfl)]
  | a :: as, fuel, off, hat, hno, hfuel => by
    rcases Nat.exists_eq_add_of_lt hfuel with ⟨k, rfl⟩
    rw [encode_cons, At.append_iff] at hat
    rcases attr_at hat.1 with ⟨htype, hlen, -⟩
    have hrest : At pkt (off + attrLen pkt off) (encode as) := by
      rw [hlen, ← a.length_bytes]
      exact hat.2
    have hsz : (encode (a :: as)).length = attrLen pkt off + (encode as).length := by
      rw [encode_cons, List.length_append, a.length_bytes, hlen]
    have ih := findLoop_none hrest (fun b hb => hno b (List.mem_cons_of_mem a hb))
      (show as.length < as.length + 1 + k by omega)
    rw [List.length_cons, findLoop, if_neg (by omega), if_neg (by omega), if_neg (by omega),
      if_neg (by rw [htype]; exact fun h => h.elim a.type_ne (by omega)),
      if_neg (by rw [htype]; exact (hno a List.mem_cons_self).symm), hsz, Nat.add_sub_cancel_left]
    exact ih

theorem findLoop_first {pkt : List Byte} {a : Attr} {post : List Attr} :
    ∀ {pre : List Attr} {fuel off : Nat}, At pkt off (encode (pre ++ a :: post)) →
    (∀ b ∈ pre, b.type ≠ a.type) → pre.length < fuel →
    findLoop pkt a.type fuel (encode (pre ++ a :: post)).length off = .ok (off + (encode pre).length)
  | [], fuel, off, hat, _, hfuel => by
    rcases Nat.exists_eq_add_of_lt hfuel with ⟨k, rfl⟩
    rw [List.nil_append, encode_cons, At.append_iff] at hat
    rcases attr_at hat.1 with ⟨htype, hlen, -⟩
    have hsz : (encode (a :: post)).length = attrLen pkt off + (encode post).length := by
      rw [encode_cons, List.length_append, a.length_bytes, hlen]
    rw [List.nil_append, findLoop, if_neg (by omega), if_neg (by omega), if_neg (by omega),
      if_neg (by rw [htype]; exact fun h => h.elim a.type_ne (by omega)), if_pos htype.symm]
    rfl
  | b :: pre, fuel, off, hat, hno, hfuel => by
    rcases Nat.exists_eq_add_of_lt hfuel with ⟨k, rfl⟩
    rw [List.cons_append, encode_cons, At.append_iff] at hat
    rcases attr_at hat.1 with ⟨htype, hlen, -⟩
    have hrest : At pkt (off + attrLen pkt off) (encode (pre ++ a :: post)) := by
      rw [hlen, ← b.length_bytes]
      exact hat.2
    have hsz : (encode (b :: pre ++ a :: post)).length =
        attrLen pkt off + (encode (pre ++ a :: post)).length := by
      rw [List.cons_append, encode_cons, List.length_append, b.length_bytes, hlen]
    have ih := findLoop_first hrest (fun c hc => hno c (List.mem_cons_of_mem b hc))
      (show pre.length < pre.length + 1 + k by omega)
    rw [List.length_cons, findLoop, if_neg (by omega), if_neg (by omega), if_neg (by omega),
      if_neg (by rw [htype]; exact fun h => h.elim b.type_ne (by omega)),
      if_neg (by rw [htype]; exact (hno b List.mem_cons_self).symm), hsz, Nat.add_sub_cancel_left]
    rw [ih, encode_cons, List.length_append, b.length_bytes, hlen, Nat.add_assoc]

theorem length_le_encode (as : List Attr) : as.length ≤ (encode as).length := by
  induction as with
  | nil => exact Nat.le_refl 0
  | cons a as ih =>
    rw [encode_cons, List.length_append, a.length_bytes, List.length_cons]
    omega

namespace Holds

variable {pkt : List Byte} {as : List Attr}

theorem attrs_size (h : Holds pkt as) : attrsSize pkt hdrSize = (encode as).length := by
  have hlen := h.len
  rw [attrsSize, if_pos (by omega)]
  omega

theorem find_none (h : Holds pkt as) {type : Byte} (hno : ∀ a ∈ as, a.type ≠ type) :
    attrFind pkt 0 type = .error .enoattr := by
  rw [attrFind, if_neg (by simp)]
  simp only
  rw [h.attrs_size]
  exact findLoop_none h.attrs hno (Nat.lt_succ_of_le (length_le_encode as))

theorem find_first {pre post : List Attr} {a : Attr} (h : Holds pkt (pre ++ a :: post))
    (hpre : ∀ b ∈ pre, b.type ≠ a.type) :
    attrFind pkt 0 a.type = .ok (hdrSize + (encode pre).length) := by
  rw [attrFind, if_neg (by simp)]
  simp only
  rw [h.attrs_size]
  refine findLoop_first h.attrs hpre ?_
  have hle := length_le_encode (pre ++ a :: post)
  rw [List.length_append] at hle
  omega

theorem attr {pre post : List Attr} {a : Attr} (h : Holds pkt (pre ++ a :: post)) :
    At pkt (hdrSize + (encode pre).length) a.bytes := by
  have hat := h.attrs
  rw [encode_append, encode_cons] at hat
  exact (At.append_iff.mp (At.append_iff.mp hat).2).1

theorem get_from_offset {pre post : List Attr} {a : Attr} (h : Holds pkt (pre ++ a :: post)) :
    attrGetFromOffset pkt (hdrSize + (encode pre).length) =
      .ok (hdrSize + (encode pre).length) := by
  have hlen := h.len
  have halen := (attr_at h.attr).2.1
  rw [encode_append, encode_cons, List.length_append, List.length_append, a.length_bytes] at hlen
  rw [attrGetFromOffset, if_neg (by omega), halen, if_neg (by omega)]

theorem walkLoop_eq : ∀ {as : List Attr} (pre : List Attr) {fuel : Nat}, Holds pkt (pre ++ as) →
    as.length < fuel →
    walkLoop pkt fuel (hdrSize + (encode pre).length) = .ok (as.map Attr.pair)
  | [], pre, fuel, h, hfuel => by
    rcases Nat.exists_eq_add_of_lt hfuel with ⟨k, rfl⟩
    have hlen := h.len
    rw [List.append_nil] at hlen
    rw [walkLoop, if_pos (by omega)]
    rfl
  | a :: as, pre, fuel, h, hfuel => by
    rcases Nat.exists_eq_add_of_lt hfuel with ⟨k, rfl⟩
    have hlen := h.len
    rw [encode_append, encode_cons, List.length_append, List.length_append, a.length_bytes] at hlen
    rcases attr_at h.attr with ⟨htype, -, hdata⟩
    have h' : Holds pkt ((pre ++ [a]) ++ as) := by
      rw [List.append_assoc]
      exact h
    have hoff : hdrSize + (encode (pre ++ [a])).length =
        hdrSize + (encode pre).length + a.data.length + 2 := by
      rw [encode_append, List.length_append, encode_cons, encode_nil, List.append_nil,
        a.length_bytes]
      omega
    have ih := walkLoop_eq (pre ++ [a]) h' (show as.length < as.length + 1 + k by omega)
    rw [hoff] at ih
    have hget : attrGetDataPtrRaw pkt (hdrSize + (encode pre).length) = .ok a.pair := by
      rw [attrGetDataPtrRaw, h.get_from_offset]
      simp only [bind, Except.bind, pure, Except.pure]
      rw [htype, hdata, Attr.pair]
    rw [List.length_cons, walkLoop, if_neg (by omega), hget]
    simp only [bind, Except.bind, Attr.pair]
    rw [ih]
    rfl

theorem walk_eq (h : Holds pkt as) : walk pkt = .ok (as.map Attr.pair) := by
  have hle := length_le_encode as
  have hlen := h.len
  have hroom := h.room
  exact walkLoop_eq [] h (by omega)

end Holds

/-! ## Writes -/

/-- The same code, identifier and authenticator, in a buffer of the same size. -/
structure SameHead (pkt pkt' : List Byte) : Prop where
  code : pktCode pkt' = pktCode pkt
  id : pktId pkt' = pktId pkt
  authenticator : pktAuthenticator pkt' = pktAuthenticator pkt
  length : pkt'.length = pkt.length

theorem SameHead.refl (pkt : List Byte) : SameHead pkt pkt := ⟨rfl, rfl, rfl, rfl⟩

theorem SameHead.trans {pkt pkt' pkt'' : List Byte} (h : SameHead pkt pkt')
    (h' : SameHead pkt' pkt'') : SameHead pkt pkt'' :=
  ⟨h'.code.trans h.code, h'.id.trans h.id, h'.authenticator.trans h.authenticator,
    h'.length.trans h.length⟩

theorem splice_attrs {pkt bs : List Byte} {pos : Nat} (hpos : hdrSize ≤ pos)
    (h : pos + bs.length ≤ pkt.length) :
    SameHead pkt (splice pkt pos bs) ∧ pktLen (splice pkt pos bs) = pktLen pkt := by
  unfold hdrSize at hpos
  refine ⟨⟨?_, ?_, ?_, length_splice h⟩, ?_⟩
  · rw [pktCode, byteAt_splice h (.inl (by omega)), pktCode]
  · rw [pktId, byteAt_splice h (.inl (by omega)), pktId]
  · rw [pktAuthenticator, take_drop_splice_of_disjoint h (.inl (by omega)), pktAuthenticator]
  · rw [pktLen, getBe16_splice h (.inl (by omega)), pktLen]

theorem setPktLen_head {pkt : List Byte} {n : Nat} (h : hdrSize ≤ pkt.length) (hn : n < 2 ^ 16) :
    SameHead pkt (setPktLen pkt n) ∧ pktLen (setPktLen pkt n) = n := by
  have hfit : 2 + (be16 (BitVec.ofNat 16 n)).length ≤ pkt.length := by
    rw [length_be16]
    unfold hdrSize at h
    omega
  refine ⟨⟨?_, ?_, ?_, length_splice hfit⟩, ?_⟩
  · rw [pktCode, setPktLen, byteAt_splice hfit (.inl (by omega)), pktCode]
  · rw [pktId, setPktLen, byteAt_splice hfit (.inl (by omega)), pktId]
  · rw [pktAuthenticator, setPktLen, take_drop_splice_of_disjoint hfit (.inr (by rw [length_be16])),
      pktAuthenticator]
  · rw [pktLen, setPktLen, (At.splice hfit).getBe16_eq, BitVec.toNat_ofNat, Nat.mod_eq_of_lt hn]

/-- The buffer after `radius_pkt_attr_alloc_raw` and the copy of the data. -/
def appended (pkt : List Byte) (type len : Byte) (data : List Byte) : List Byte :=
  splice (setPktLen (splice pkt (pktLen pkt) [type, 2#8 + len]) (pktLen pkt + (2 + len.toNat)))
    (pktLen pkt + 2) data

namespace Holds

variable {pkt : List Byte} {as : List Attr}

theorem set_data {pre post : List Attr} {a : Attr} (h : Holds pkt (pre ++ a :: post))
    {data : List Byte} (hd : data.length = a.data.length) :
    Holds (splice pkt (hdrSize + (encode pre).length + 2) data) (pre ++ a.withData data hd :: post) ∧
      SameHead pkt (splice pkt (hdrSize + (encode pre).length + 2) data) := by
  have hlen := h.len
  have hroom := h.room
  have hsize : (encode (pre ++ a.withData data hd :: post)).length =
      (encode (pre ++ a :: post)).length := by
    simp only [encode_append, encode_cons, List.length_append, Attr.length_bytes, Attr.withData, hd]
  have htotal : (encode (pre ++ a :: post)).length =
      (encode pre).length + (2 + a.data.length + (encode post).length) := by
    simp only [encode_append, encode_cons, List.length_append, Attr.length_bytes]
  have hfit : hdrSize + (encode pre).length + 2 + data.length ≤ pkt.length := by omega
  rcases splice_attrs (show hdrSize ≤ hdrSize + (encode pre).length + 2 by omega) hfit with
    ⟨hhead, hplen⟩
  refine ⟨⟨by rw [hplen, hsize]; exact hlen, by rw [hplen, hhead.length]; exact hroom, ?_⟩, hhead⟩
  have hat := h.attrs
  rw [encode_append, encode_cons, Attr.bytes, List.append_assoc, At.append_iff, At.append_iff,
    At.append_iff] at hat
  rcases hat with ⟨hpre, hhdr, -, hpost⟩
  rw [encode_append, encode_cons, Attr.bytes, List.append_assoc, At.append_iff, At.append_iff,
    At.append_iff]
  have htwo : [a.type, BitVec.ofNat 8 (2 + a.data.length)].length = 2 := rfl
  have htwo' : [(a.withData data hd).type, BitVec.ofNat 8 (2 + (a.withData data hd).data.length)] =
      [a.type, BitVec.ofNat 8 (2 + a.data.length)] := by
    rw [Attr.withData, hd]
  rw [htwo', htwo]
  refine ⟨hpre.frame hfit (.inl (by omega)), hhdr.frame hfit (.inl (by rw [htwo])),
    At.splice hfit, ?_⟩
  rw [show (a.withData data hd).data.length = a.data.length from hd]
  exact hpost.frame hfit (.inr (by rw [htwo, hd]))

theorem append (h : Holds pkt as) (a : Attr) (hfit : pktLen pkt + (2 + a.data.length) ≤ pkt.length)
    (hsize : pktLen pkt + (2 + a.data.length) < 2 ^ 16) :
    Holds (appended pkt a.type (BitVec.ofNat 8 a.data.length) a.data) (as ++ [a]) ∧
      SameHead pkt (appended pkt a.type (BitVec.ofNat 8 a.data.length) a.data) := by
  have hlen := h.len
  have hmax := a.size
  unfold attrDataSizeMax at hmax
  have hsum : 2#8 + BitVec.ofNat 8 a.data.length = BitVec.ofNat 8 (2 + a.data.length) := by
    rw [BitVec.ofNat_add]
  have hnat : (BitVec.ofNat 8 a.data.length).toNat = a.data.length := by
    rw [BitVec.toNat_ofNat, Nat.mod_eq_of_lt (by omega)]
  rw [appended, hsum, hnat]
  -- the two bytes before the data, then the length of the packet, then the data
  have hfit1 : pktLen pkt + [a.type, BitVec.ofNat 8 (2 + a.data.length)].length ≤ pkt.length := by
    show pktLen pkt + 2 ≤ pkt.length
    omega
  have hhdr1 : hdrSize ≤ pktLen pkt := by omega
  rcases splice_attrs hhdr1 hfit1 with ⟨head1, len1⟩
  have hat1 := h.attrs.frame hfit1 (.inl (by omega))
  have hnew1 := At.splice hfit1
  generalize splice pkt (pktLen pkt) [a.type, BitVec.ofNat 8 (2 + a.data.length)] = p1 at *
  have hp1 : hdrSize ≤ p1.length := by rw [head1.length]; omega
  have hfit2 : 2 + (be16 (BitVec.ofNat 16 (pktLen pkt + (2 + a.data.length)))).length ≤ p1.length := by
    rw [length_be16]
    unfold hdrSize at hp1
    omega
  rcases setPktLen_head hp1 hsize with ⟨head2, len2⟩
  have hat2 : At (setPktLen p1 (pktLen pkt + (2 + a.data.length))) hdrSize (encode as) :=
    hat1.frame hfit2 (.inr (by rw [length_be16]; decide))
  have hnew2 : At (setPktLen p1 (pktLen pkt + (2 + a.data.length))) (pktLen pkt)
      [a.type, BitVec.ofNat 8 (2 + a.data.length)] :=
    hnew1.frame hfit2 (.inr (by rw [length_be16]; unfold hdrSize at hhdr1; omega))
  generalize setPktLen p1 (pktLen pkt + (2 + a.data.length)) = p2 at *
  have hfit3 : pktLen pkt + 2 + a.data.length ≤ p2.length := by
    rw [head2.length, head1.length]
    omega
  rcases splice_attrs (show hdrSize ≤ pktLen pkt + 2 by omega) hfit3 with ⟨head3, len3⟩
  refine ⟨⟨?_, ?_, ?_⟩, head1.trans (head2.trans head3)⟩
  · rw [len3, len2, encode_append, encode_cons, encode_nil, List.append_nil, List.length_append,
      a.length_bytes]
    omega
  · rw [len3, len2, head3.length, head2.length, head1.length]
    exact hfit
  · have htwo : [a.type, BitVec.ofNat 8 (2 + a.data.length)].length = 2 := rfl
    have hbefore : pktLen pkt + [a.type, BitVec.ofNat 8 (2 + a.data.length)].length ≤
        pktLen pkt + 2 := by omega
    have hold : At (splice p2 (pktLen pkt + 2) a.data) hdrSize (encode as) :=
      hat2.frame hfit3 (.inl (by omega))
    have hhdr : At (splice p2 (pktLen pkt + 2) a.data) (pktLen pkt)
        [a.type, BitVec.ofNat 8 (2 + a.data.length)] := hnew2.frame hfit3 (.inl hbefore)
    have hdata : At (splice p2 (pktLen pkt + 2) a.data) (pktLen pkt + 2) a.data := At.splice hfit3
    rw [encode_append, encode_cons, encode_nil, List.append_nil, Attr.bytes, At.append_iff,
      At.append_iff, ← hlen, htwo]
    exact ⟨hold, hhdr, hdata⟩

end Holds

/-! ## The first attribute of a type, as the callers use it -/

theorem attrAbsent_eq {pkt : List Byte} {as : List Attr} (h : Holds pkt as) (type : Byte) :
    attrAbsent type pkt =
      if ∀ a ∈ as, a.type ≠ type then .ok () pkt else .error .eexist pkt := by
  by_cases hno : ∀ a ∈ as, a.type ≠ type
  · rw [if_pos hno, attrAbsent, h.find_none hno]
  · rcases first_split type as with hno' | ⟨pre, a, post, rfl, rfl, hpre⟩
    · exact absurd hno' hno
    · rw [if_neg hno, attrAbsent, h.find_first hpre]

end Radius
