import Liblcb.Proto.RadiusGet
import Mathlib.Data.List.TakeWhile

/-!
# The attributes of a packet that `radius_pkt_chk` accepts

Such a packet holds a list of attributes.  The search and the collecting loop as functions of that
list, from any place where an attribute starts.
-/

namespace Radius.Get

open Mem Wire

/-! ## Accepted packets -/

theorem attrData_size_le (pkt : List Byte) (off : Nat) :
    (attrData pkt off).length ≤ attrDataSizeMax := by
  have hlen : attrLen pkt off < 256 := (byteAt pkt (off + 1)).isLt
  rw [attrData, List.length_take]
  unfold attrDataSizeMax
  omega

def attrAt (pkt : List Byte) (off : Nat) (htype : attrType pkt off ≠ 0) : Attr where
  type := attrType pkt off
  data := attrData pkt off
  type_ne := htype
  size := attrData_size_le pkt off

theorem at_attrAt {pkt : List Byte} {off : Nat} (htype : attrType pkt off ≠ 0)
    (hlen : 2 ≤ attrLen pkt off) (hfit : off + attrLen pkt off ≤ pkt.length) :
    At pkt off (attrAt pkt off htype).bytes ∧
      (attrAt pkt off htype).bytes.length = attrLen pkt off := by
  have hdata : (attrData pkt off).length = attrLen pkt off - 2 := by
    rw [attrData, List.length_take, List.length_drop]
    omega
  have htotal : 2 + (attrData pkt off).length = attrLen pkt off := by omega
  have hget : ∀ i, i < pkt.length → pkt[i]? = some (byteAt pkt i) := fun i hi => by
    rw [byteAt, List.getD_eq_getElem?_getD, List.getElem?_eq_getElem hi, Option.getD_some]
  refine ⟨?_, by rw [Attr.length_bytes]; exact htotal⟩
  show At pkt off ([attrType pkt off, BitVec.ofNat 8 (2 + (attrData pkt off).length)] ++
    attrData pkt off)
  rw [htotal, attrLen, BitVec.ofNat_toNat, BitVec.setWidth_eq, At.append_iff, At.cons_iff,
    At.cons_iff]
  refine ⟨⟨hget _ (by omega), hget _ (by omega), At.nil _ _⟩, ?_⟩
  show (pkt.drop (off + 2)).take (attrData pkt off).length = attrData pkt off
  rw [hdata, attrData]

theorem chkLoop_holds {pkt : List Byte} {size off : Nat} {c c' : Counts}
    (h : chkLoop pkt size off c = .ok c') (hfit : off + size ≤ pkt.length) :
    ∃ as, At pkt off (encode as) ∧ (encode as).length = size := by
  fun_induction chkLoop pkt size off c with
  | case1 off c => exact ⟨[], At.nil _ _, rfl⟩
  | case2 => cases h
  | case3 => cases h
  | case4 => cases h
  | case5 size off c hne htwo hout hok ih =>
    obtain ⟨htype, hlen⟩ := attrChk_ok hok
    obtain ⟨hat, hbytes⟩ := at_attrAt htype hlen (by omega)
    obtain ⟨as, hrest, hsize⟩ := ih h (by omega)
    refine ⟨attrAt pkt off htype :: as, ?_, ?_⟩
    · rw [encode_cons, At.append_iff, hbytes]
      exact ⟨hat, hrest⟩
    · rw [encode_cons, List.length_append, hbytes, hsize]
      omega

theorem pktChk_holds {pkt : List Byte} (h : pktChk pkt = .ok ()) : ∃ as, Holds pkt as := by
  rw [pktChk] at h
  split at h
  next => cases h
  next hsize =>
    split at h
    next => cases h
    next =>
      split at h
      next => cases h
      next c hloop =>
        obtain ⟨as, hat, hlen⟩ := chkLoop_holds hloop (by omega)
        exact ⟨as, by omega, by omega, hat⟩

/-! ## Memory that holds the packet -/

def Sees (m : Memory) (pkt : List Byte) : Prop := ∀ i, i < pktLen pkt → m i = some (byteAt pkt i)

theorem sees_inside (pkt : List Byte) : Sees (inside pkt) pkt := fun _ hi => if_pos hi

theorem sees_followed (pkt : List Byte) (behind : Nat → Byte) : Sees (followed pkt behind) pkt :=
  fun _ hi => congrArg some (if_pos hi)

/-- The bytes from `s` on. -/
def Reads (m : Memory) : Nat → List Byte → Prop
  | _, [] => True
  | s, b :: bs => m s = some b ∧ Reads m (s + 1) bs

theorem Sees.reads {m : Memory} {pkt : List Byte} (hsees : Sees m pkt) {s : Nat} {bs : List Byte}
    (hat : At pkt s bs) (hin : s + bs.length ≤ pktLen pkt) : Reads m s bs := by
  induction bs generalizing s with
  | nil => trivial
  | cons b bs ih =>
    rw [List.length_cons] at hin
    refine ⟨?_, ih (At.cons_iff.mp hat).2 (by omega)⟩
    rw [hsees s (by omega), hat.byteAt_eq]

theorem Reads.left {m : Memory} {s : Nat} {as bs : List Byte} (h : Reads m s (as ++ bs)) :
    Reads m s as := by
  induction as generalizing s with
  | nil => trivial
  | cons a as ih => exact ⟨h.1, ih h.2⟩

theorem readBytes_eq {m : Memory} {s : Nat} {bs : List Byte} (h : Reads m s bs) :
    readBytes m s bs.length = some bs := by
  induction bs generalizing s with
  | nil => rfl
  | cons b bs ih =>
    rw [List.length_cons, readBytes, h.1, ih h.2]
    rfl

theorem strnlen_eq {m : Memory} {s : Nat} {bs : List Byte} (h : Reads m s bs) :
    strnlen m s bs.length = some (bs.takeWhile (· != 0)).length := by
  induction bs generalizing s with
  | nil => rfl
  | cons b bs ih =>
    rw [List.length_cons, strnlen, h.1]
    simp only
    by_cases hb : b = 0
    · rw [if_pos hb, List.takeWhile_cons_of_neg (by rw [hb]; decide)]
      rfl
    · rw [if_neg hb, ih h.2, List.takeWhile_cons, if_pos (bne_iff_ne.mpr hb)]
      rfl

section Search

variable {m : Memory} {pkt : List Byte} {pre post : List Attr} {a : Attr}

theorem hdrLenGet_eq (hsees : Sees m pkt) (h : hdrSize ≤ pktLen pkt) :
    hdrLenGet m = some (pktLen pkt) := by
  unfold hdrSize at h
  rw [hdrLenGet, hsees 2 (by omega), hsees 3 (by omega)]
  rfl

theorem header_at (hsees : Sees m pkt) {off : Nat} (hat : At pkt off a.bytes)
    (hin : off + (2 + a.data.length) ≤ pktLen pkt) :
    m off = some a.type ∧ ∃ len, m (off + 1) = some len ∧ len.toNat = 2 + a.data.length := by
  obtain ⟨htype, hlen, -⟩ := attr_at hat
  exact ⟨by rw [hsees off (by omega), ← htype, attrType],
    _, hsees (off + 1) (by omega), hlen⟩

def firstOff (type : Byte) : Nat → List Attr → Except Errno Nat
  | _, [] => .error .enoattr
  | off, a :: as => if type = a.type then .ok off else firstOff type (off + (2 + a.data.length)) as

theorem firstOff_none {type : Byte} {off : Nat} {as : List Attr} (h : ∀ a ∈ as, a.type ≠ type) :
    firstOff type off as = .error .enoattr := by
  induction as generalizing off with
  | nil => rfl
  | cons a as ih =>
    rw [List.forall_mem_cons] at h
    rw [firstOff, if_neg h.1.symm, ih h.2]

theorem firstOff_first {off : Nat} {mid rest : List Attr} (h : ∀ b ∈ mid, b.type ≠ a.type) :
    firstOff a.type off (mid ++ a :: rest) = .ok (off + (encode mid).length) := by
  induction mid generalizing off with
  | nil => exact if_pos rfl
  | cons b mid ih =>
    rw [List.forall_mem_cons] at h
    rw [List.cons_append, firstOff, if_neg h.1.symm, ih h.2, encode_cons, List.length_append,
      b.length_bytes, Nat.add_assoc]

theorem findLoop_eq (hsees : Sees m pkt) (type : Byte) {as : List Attr} {off : Nat}
    (hat : At pkt off (encode as)) (hin : off + (encode as).length ≤ pktLen pkt) :
    findLoop m type (encode as).length off = some (firstOff type off as) := by
  induction as generalizing off with
  | nil =>
    rw [findLoop]
    rfl
  | cons a as ih =>
    rw [encode_cons, List.length_append, a.length_bytes] at hin
    rw [encode_cons, At.append_iff, a.length_bytes] at hat
    obtain ⟨htype, len, hlen, hnat⟩ := header_at hsees hat.1 (by omega)
    have hrest := ih hat.2 (by omega)
    rw [encode_cons, List.length_append, a.length_bytes, findLoop, if_neg (by omega),
      if_neg (by omega), hlen]
    simp only
    rw [if_neg (by omega), htype]
    simp only
    rw [if_neg (by rw [hnat]; exact fun h => h.elim a.type_ne (by omega)), firstOff, hnat,
      Nat.add_sub_cancel_left, hrest]
    split <;> rfl

/-- Where the attributes behind `pre` start; 0 is the start of all. -/
def Starts (pre : List Attr) (offset : Nat) : Prop :=
  offset = hdrSize + (encode pre).length ∨ (offset = 0 ∧ pre = [])

theorem Starts.of_zero (h : Starts pre 0) : pre = [] := by
  rcases h with hoff | ⟨-, hpre⟩
  · unfold hdrSize at hoff
    omega
  · exact hpre

theorem attrGetFromOffset_at (hsees : Sees m pkt) (hhdr : hdrSize ≤ pktLen pkt) {off : Nat}
    (hat : At pkt off a.bytes) (hoff : hdrSize ≤ off)
    (hin : off + (2 + a.data.length) ≤ pktLen pkt) :
    attrGetFromOffset m off = some (.ok off) := by
  obtain ⟨-, len, hlen, hnat⟩ := header_at hsees hat hin
  rw [attrGetFromOffset, hdrLenGet_eq hsees hhdr]
  simp only [Option.bind_eq_bind, Option.bind_some, hlen, hnat]
  rw [if_neg (by omega), if_neg (by omega)]
  rfl

theorem attrFind_at (hsees : Sees m pkt) (h : Holds pkt (pre ++ a :: post)) {offset : Nat}
    (hstart : Starts pre offset) (type : Byte) :
    attrFind m offset type =
      some (firstOff type (hdrSize + (encode pre).length) (a :: post)) := by
  have hlen := h.len
  have hsize : (encode (pre ++ a :: post)).length =
      (encode pre).length + (encode (a :: post)).length := by
    rw [encode_append, List.length_append]
  have hone : (encode (a :: post)).length = 2 + a.data.length + (encode post).length := by
    rw [encode_cons, List.length_append, a.length_bytes]
  have hat : At pkt (hdrSize + (encode pre).length) (encode (a :: post)) := by
    have hall := h.attrs
    rw [encode_append] at hall
    exact (At.append_iff.mp hall).2
  have hloop := findLoop_eq hsees type hat (by omega)
  have hrest : (encode (a :: post)).length = pktLen pkt - (hdrSize + (encode pre).length) := by omega
  rw [hrest] at hloop
  have hsearch : (do
      let pktSize ← hdrLenGet m
      findLoop m type (if hdrSize + (encode pre).length ≤ pktSize then
        pktSize - (hdrSize + (encode pre).length)
        else 2 ^ 64 - (hdrSize + (encode pre).length - pktSize)) (hdrSize + (encode pre).length)) =
      some (firstOff type (hdrSize + (encode pre).length) (a :: post)) := by
    rw [hdrLenGet_eq hsees (by omega), Option.bind_eq_bind, Option.bind_some, if_pos (by omega), hloop]
  rw [attrFind]
  rcases hstart with rfl | ⟨rfl, rfl⟩
  · have hget := attrGetFromOffset_at hsees (by omega) h.attr (by omega) (by omega)
    rw [if_pos (by unfold hdrSize; omega), hget]
    exact hsearch
  · rw [if_neg (by decide)]
    exact hsearch

end Search

theorem attrFind_empty {m : Memory} {pkt : List Byte} (hsees : Sees m pkt) (h : Holds pkt [])
    (type : Byte) : attrFind m 0 type = some (.error .enoattr) := by
  have hlen := h.len
  rw [encode_nil, List.length_nil, Nat.add_zero] at hlen
  rw [attrFind, if_neg (by decide)]
  simp only
  rw [hdrLenGet_eq hsees (by omega), Option.bind_eq_bind, Option.bind_some, if_pos (by omega), hlen,
    Nat.sub_self, findLoop, if_pos rfl]

theorem attrFind_end {pkt : List Byte} (hhdr : hdrSize ≤ pktLen pkt) (type : Byte) :
    attrFind (inside pkt) (pktLen pkt) type = none := by
  have hout : inside pkt (pktLen pkt + 1) = none := if_neg (by omega)
  have hget : attrGetFromOffset (inside pkt) (pktLen pkt) = none := by
    rw [attrGetFromOffset, hdrLenGet_eq (sees_inside pkt) hhdr]
    simp only [Option.bind_eq_bind, Option.bind_some, hout]
    rw [if_neg (by omega)]
    rfl
  rw [attrFind, if_pos (by unfold hdrSize at hhdr; omega), hget]

theorem findLoop_stops {m : Memory} (hall : ∀ i, ∃ b, m i = some b) (type : Byte) {size off : Nat}
    (hstop : size = 0 ∨ m off = some 0) : ∃ e, findLoop m type size off = some (.error e) := by
  rw [findLoop]
  by_cases hzero : size = 0
  · rw [if_pos hzero]
    exact ⟨_, rfl⟩
  obtain ⟨len, hlen⟩ := hall (off + 1)
  rw [if_neg hzero, hlen, hstop.resolve_left hzero]
  simp only [true_or, if_true]
  split
  next => exact ⟨_, rfl⟩
  next => split <;> exact ⟨_, rfl⟩

theorem attrFind_stops {pkt : List Byte} (behind : Nat → Byte) (hhdr : hdrSize ≤ pktLen pkt)
    {offset : Nat} (hoff : hdrSize ≤ offset)
    (hstop : offset = pktLen pkt ∨ (offset < pktLen pkt ∧ byteAt pkt offset = 0)) (type : Byte) :
    ∃ e, attrFind (followed pkt behind) offset type = some (.error e) := by
  have hsees := sees_followed pkt behind
  have hlen := hdrLenGet_eq hsees hhdr
  have hall : ∀ i, ∃ b, followed pkt behind i = some b := fun _ => ⟨_, rfl⟩
  obtain ⟨len, hread⟩ := hall (offset + 1)
  have hloop : ∃ e, findLoop (followed pkt behind) type (pktLen pkt - offset) offset =
      some (.error e) := by
    refine findLoop_stops hall type ?_
    rcases hstop with rfl | ⟨hlt, hzero⟩
    · exact .inl (Nat.sub_self _)
    · exact .inr (by rw [hsees offset hlt, hzero])
  rw [attrFind, if_pos (by unfold hdrSize at hoff; omega), attrGetFromOffset, hlen]
  simp only [Option.bind_eq_bind, Option.bind_some, hread]
  rw [if_neg (by omega)]
  by_cases hout : pktLen pkt < offset + len.toNat
  · rw [if_pos hout]
    exact ⟨_, rfl⟩
  · rw [if_neg hout]
    show ∃ e, findLoop _ type (if offset ≤ pktLen pkt then _ else _) offset = some (.error e)
    rw [if_pos (by omega)]
    exact hloop

/-! ## Finding -/

section Find

variable {pkt : List Byte} {pre post : List Attr} {offset : Nat}

/-- The search reads the packet only, and gives the first attribute of the type in `post`, the
attributes from `offset` on, or `ENOATTR`. -/
def FindRight (pkt : List Byte) (pre post : List Attr) (offset : Nat) (type : Byte) : Prop :=
  ((∀ a ∈ post, a.type ≠ type) ∧ attrFind (inside pkt) offset type = some (.error .enoattr)) ∨
    ∃ mid a rest, post = mid ++ a :: rest ∧ a.type = type ∧ (∀ b ∈ mid, b.type ≠ type) ∧
      attrFind (inside pkt) offset type = some (.ok (hdrSize + (encode (pre ++ mid)).length))

theorem starts_end (h : Holds pkt (pre ++ post)) (hstart : Starts pre offset) :
    offset = pktLen pkt ↔ post = [] ∧ offset ≠ 0 := by
  have hlen := h.len
  have hpost := length_le_encode post
  rw [encode_append, List.length_append] at hlen
  have hnil : (encode post).length = 0 ↔ post = [] := by
    refine ⟨fun hzero => List.eq_nil_of_length_eq_zero (by omega), ?_⟩
    rintro rfl
    rfl
  unfold hdrSize at hlen
  rcases hstart with rfl | ⟨rfl, -⟩
  · unfold hdrSize
    rw [← hnil]
    omega
  · constructor <;> intro h' <;> omega

theorem findRight_iff (h : Holds pkt (pre ++ post)) (hstart : Starts pre offset) (type : Byte) :
    FindRight pkt pre post offset type ↔ offset ≠ pktLen pkt := by
  have hsees := sees_inside pkt
  have hhdr : hdrSize ≤ pktLen pkt := by have hlen := h.len; omega
  by_cases hend : offset = pktLen pkt
  · refine iff_of_false ?_ (not_not.mpr hend)
    rw [FindRight, hend, attrFind_end hhdr]
    rintro (⟨-, h⟩ | ⟨_, _, _, -, -, -, h⟩) <;> cases h
  refine iff_of_true ?_ hend
  cases post with
  | nil =>
    have hzero : offset = 0 := by
      by_contra hne
      exact hend ((starts_end h hstart).mpr ⟨rfl, hne⟩)
    subst hzero
    have hpre := hstart.of_zero
    subst hpre
    exact .inl ⟨nofun, attrFind_empty hsees h type⟩
  | cons a post =>
    have hfind := attrFind_at hsees h hstart type
    rcases first_split type (a :: post) with hno | ⟨mid, b, rest, hpost, rfl, hmid⟩
    · exact .inl ⟨hno, by rw [hfind, firstOff_none hno]⟩
    · refine .inr ⟨mid, b, rest, hpost, rfl, hmid, ?_⟩
      rw [hfind, hpost, firstOff_first hmid, encode_append, List.length_append, Nat.add_assoc]

end Find

/-! ## Collecting -/

/-- The data as `radius_pkt_attr_get_data_ptr` gives it: a password ends at its first zero. -/
def value (a : Attr) : List Byte :=
  if a.type = typeUserPassword then a.data.takeWhile (· != 0) else a.data

/-- A password with a zero. -/
def Padded (a : Attr) : Prop := a.type = typeUserPassword ∧ 0 ∈ a.data

instance (a : Attr) : Decidable (Padded a) := by unfold Padded; infer_instance

theorem value_of_not_padded {a : Attr} (h : ¬Padded a) : value a = a.data := by
  rw [value]
  split
  next htype =>
    rw [List.takeWhile_eq_self_iff]
    intro b hb
    rw [bne_iff_ne]
    rintro rfl
    exact h ⟨htype, hb⟩
  next => rfl

theorem takeWhile_zero {bs : List Byte} (h : 0 ∈ bs) :
    ∃ rest, bs = bs.takeWhile (· != 0) ++ 0 :: rest := by
  induction bs with
  | nil => cases h
  | cons b bs ih =>
    by_cases hb : b = 0
    · refine ⟨bs, ?_⟩
      rw [List.takeWhile_cons, if_neg (by rw [hb]; decide), hb]
      rfl
    · obtain ⟨rest, hrest⟩ := ih ((List.mem_cons.mp h).resolve_left (Ne.symm hb))
      refine ⟨rest, ?_⟩
      rw [List.takeWhile_cons, if_pos (bne_iff_ne.mpr hb), List.cons_append, ← hrest]

theorem data_of_padded {a : Attr} (h : Padded a) : ∃ rest, a.data = value a ++ 0 :: rest := by
  rw [value, if_pos h.1]
  exact takeWhile_zero h.2

/-- The attributes to collect: all of the type, or the first `count`. -/
def wanted (type : Byte) (count : Nat) (as : List Attr) : List Attr :=
  (as.filter (·.type == type)).take count

def gather (bufSize : Nat) : List Attr → Except Errno Unit → List Byte →
    Except Errno Unit × List Byte
  | [], error, out => (error, out)
  | a :: as, _, out =>
    if bufSize < out.length + (value a).length then (.ok (), out)
    -- the next offset is that of the zero
    else if Padded a then (.ok (), out ++ value a)
    else gather bufSize as (.ok ()) (out ++ value a)

section Collect

variable {m : Memory} {pkt : List Byte} {pre post : List Attr} {a : Attr}

theorem attrGetDataPtr_at (hsees : Sees m pkt) (h : Holds pkt (pre ++ a :: post)) :
    attrGetDataPtr m (hdrSize + (encode pre).length) =
        some (.ok (hdrSize + (encode pre).length + 2, (value a).length)) ∧
      Reads m (hdrSize + (encode pre).length + 2) a.data := by
  have hlen := h.len
  rw [encode_append, encode_cons, List.length_append, List.length_append, a.length_bytes] at hlen
  have hget := attrGetFromOffset_at hsees (by omega) h.attr (by omega) (by omega)
  obtain ⟨htype, len, hread, hnat⟩ := header_at hsees h.attr (by omega)
  have hat : At pkt (hdrSize + (encode pre).length + 2) a.data := (At.append_iff.mp h.attr).2
  have hreads := hsees.reads hat (by omega)
  have hsize := a.size
  unfold attrDataSizeMax at hsize
  have hdata : (len.toNat + (2 ^ 64 - 2)) % 2 ^ 64 = a.data.length := by omega
  refine ⟨?_, hreads⟩
  rw [attrGetDataPtr, hget]
  simp only [htype, hread, Option.bind_eq_bind, Option.bind_some, hdata]
  rw [value]
  split
  next => rw [strnlen_eq hreads]; rfl
  next => rfl

theorem zero_behind (h : Holds pkt (pre ++ a :: post)) (hpad : Padded a) :
    hdrSize + (encode pre).length + ((value a).length + 2) < pktLen pkt ∧
      byteAt pkt (hdrSize + (encode pre).length + ((value a).length + 2)) = 0 := by
  obtain ⟨zeros, hdata⟩ := data_of_padded hpad
  have hlen := h.len
  rw [encode_append, encode_cons, List.length_append, List.length_append, a.length_bytes, hdata,
    List.length_append, List.length_cons] at hlen
  have hat : At pkt (hdrSize + (encode pre).length + 2) a.data := (At.append_iff.mp h.attr).2
  rw [hdata, At.append_iff] at hat
  refine ⟨by omega, ?_⟩
  rw [show hdrSize + (encode pre).length + ((value a).length + 2) =
    hdrSize + (encode pre).length + 2 + (value a).length by omega]
  exact hat.2.byteAt_eq

theorem wanted_first {mid rest : List Attr} {count : Nat} (h : ∀ b ∈ mid, b.type ≠ a.type) :
    wanted a.type (count + 1) (mid ++ a :: rest) = a :: wanted a.type count rest := by
  have hmid : mid.filter (·.type == a.type) = [] := by
    rw [List.filter_eq_nil_iff]
    intro b hb
    rw [beq_iff_eq]
    exact h b hb
  rw [wanted, List.filter_append, hmid, List.nil_append, List.filter_cons_of_pos (by simp),
    List.take_succ_cons, wanted]

theorem wanted_none {type : Byte} {as : List Attr} {count : Nat} (h : ∀ a ∈ as, a.type ≠ type) :
    wanted type count as = [] := by
  have hnil : as.filter (·.type == type) = [] := by
    rw [List.filter_eq_nil_iff]
    intro b hb
    rw [beq_iff_eq]
    exact h b hb
  rw [wanted, hnil, List.take_nil]

theorem dataToBufLoop_stops {type : Byte} {bufSize offset : Nat} {error : Except Errno Unit}
    {out : List Byte} (count : Nat) (h : ∃ e, attrFind m offset type = some (.error e)) :
    dataToBufLoop m type bufSize count offset error out = some (error, out) := by
  cases count with
  | zero => rfl
  | succ count =>
    obtain ⟨e, he⟩ := h
    rw [dataToBufLoop, he]

theorem dataToBufLoop_eq (behind : Nat → Byte) (type : Byte) (bufSize : Nat) {count offset : Nat}
    {error : Except Errno Unit} {out : List Byte} (h : Holds pkt (pre ++ post))
    (hstart : Starts pre offset) :
    dataToBufLoop (followed pkt behind) type bufSize count offset error out =
      some (gather bufSize (wanted type count post) error out) := by
  have hsees := sees_followed pkt behind
  have hhdr : hdrSize ≤ pktLen pkt := by have hlen := h.len; omega
  induction count generalizing pre post offset error out with
  | zero => rfl
  | succ count ih =>
    cases post with
    | nil =>
      rw [@wanted_none type [] _ nofun]
      refine dataToBufLoop_stops _ ?_
      by_cases hzero : offset = 0
      · subst hzero
        have hpre := hstart.of_zero
        subst hpre
        exact ⟨_, attrFind_empty hsees h type⟩
      · have hend := (starts_end h hstart).mpr ⟨rfl, hzero⟩
        exact attrFind_stops behind hhdr (by omega) (.inl hend) type
    | cons a post =>
      have hfind := attrFind_at hsees h hstart type
      rcases first_split type (a :: post) with hno | ⟨mid, b, rest, hpost, rfl, hmid⟩
      · rw [wanted_none hno]
        rw [firstOff_none hno] at hfind
        exact dataToBufLoop_stops _ ⟨_, hfind⟩
      -- the attribute `b` is found
      rw [hpost, firstOff_first hmid] at hfind
      have hb : Holds pkt ((pre ++ mid) ++ b :: rest) := by
        rw [List.append_assoc, ← hpost]
        exact h
      have hoff : hdrSize + (encode pre).length + (encode mid).length =
          hdrSize + (encode (pre ++ mid)).length := by
        rw [encode_append, List.length_append, Nat.add_assoc]
      rw [hoff] at hfind
      obtain ⟨hptr, hreads⟩ := attrGetDataPtr_at hsees hb
      rw [hpost, wanted_first hmid, gather, dataToBufLoop, hfind]
      simp only
      rw [hptr]
      simp only
      by_cases hroom : bufSize < out.length + (value b).length
      · rw [if_pos hroom, if_pos hroom]
      rw [if_neg hroom, if_neg hroom]
      by_cases hpad : Padded b
      · obtain ⟨zeros, hdata⟩ := data_of_padded hpad
        rw [hdata] at hreads
        rw [if_pos hpad, readBytes_eq hreads.left]
        have hzero := zero_behind hb hpad
        exact dataToBufLoop_stops _ (attrFind_stops behind hhdr (by omega) (.inr hzero) _)
      · rw [value_of_not_padded hpad, if_neg hpad, readBytes_eq hreads]
        have hnext : Holds pkt ((pre ++ mid ++ [b]) ++ rest) := by
          rw [List.append_assoc]
          exact hb
        refine ih hnext (.inl ?_)
        rw [encode_append (pre ++ mid), encode_cons, encode_nil, List.append_nil,
          List.length_append, b.length_bytes]
        omega

end Collect

theorem gather_iff (bufSize : Nat) (as : List Attr) {out : List Byte} (hout : out.length ≤ bufSize) :
    (gather bufSize as (.ok ()) out).1 = .ok () ∧
      ((gather bufSize as (.ok ()) out).2 = out ++ as.flatMap value ↔
        out.length + (as.flatMap value).length ≤ bufSize ∧
          as.Pairwise fun a b => Padded a → value b = []) := by
  induction as generalizing out with
  | nil => simpa [gather] using hout
  | cons a as ih =>
    rw [gather, List.flatMap_cons, List.length_append, List.pairwise_cons]
    by_cases hroom : bufSize < out.length + (value a).length
    · rw [if_pos hroom]
      refine ⟨rfl, iff_of_false ?_ (by omega)⟩
      intro h
      have hlen := congrArg List.length h
      rw [List.length_append, List.length_append] at hlen
      simp only at hlen
      omega
    rw [if_neg hroom]
    by_cases hpad : Padded a
    · rw [if_pos hpad]
      refine ⟨rfl, ?_⟩
      constructor
      · intro h
        have hcancel := List.append_cancel_left h
        have hrest : as.flatMap value = [] := List.self_eq_append_right.mp hcancel
        have hall := List.flatMap_eq_nil_iff.mp hrest
        refine ⟨by rw [hrest, List.length_nil]; omega, fun b hb _ => hall b hb, ?_⟩
        exact List.pairwise_of_forall_mem_list fun _ _ b hb _ => hall b hb
      · rintro ⟨-, hall, -⟩
        rw [List.flatMap_eq_nil_iff.mpr fun b hb => hall b hb hpad, List.append_nil]
    · rw [if_neg hpad]
      obtain ⟨hok, hiff⟩ := @ih (out ++ value a) (by rw [List.length_append]; omega)
      refine ⟨hok, ?_⟩
      rw [← List.append_assoc, hiff, List.length_append, Nat.add_assoc]
      exact and_congr_right' ⟨fun h => ⟨fun _ _ h' => absurd h' hpad, h⟩, fun h => h.2⟩

/-- All attributes of the type, or the first `count`. -/
def asked (type : Byte) (count : BitVec 64) (as : List Attr) : List Attr :=
  if count = 0 then as.filter (·.type == type) else wanted type count.toNat as

theorem wanted_asked {as : List Attr} (h : as.length < 2 ^ 64) (type : Byte) (count : BitVec 64) :
    wanted type (if count = 0 then ~~~count else count).toNat as = asked type count as := by
  rw [asked]
  by_cases hzero : count = 0
  · have hall : (~~~(0 : BitVec 64)).toNat = 2 ^ 64 - 1 := by decide
    have hle : (as.filter (·.type == type)).length ≤ as.length := List.length_filter_le _ _
    rw [if_pos hzero, if_pos hzero, hzero]
    exact List.take_of_length_le (by rw [hall]; omega)
  · rw [if_neg hzero, if_neg hzero]

/-- A call that succeeds gives the data of the attributes asked for in `post`, the attributes from
`offset` on. -/
def CollectRight (pkt : List Byte) (behind : Nat → Byte) (post : List Attr) (offset : Nat)
    (count : BitVec 64) (type : Byte) (bufSize : Nat) : Prop :=
  ∀ out, attrGetDataToBuf (followed pkt behind) offset count type bufSize = some (.ok (), out) →
    out = (asked type count post).flatMap value

/-- The data fits, and nothing stands behind a padded password. -/
def Collectable (as : List Attr) (bufSize : Nat) : Prop :=
  (as.flatMap value).length ≤ bufSize ∧ as.Pairwise fun a b => Padded a → value b = []

instance (as : List Attr) (bufSize : Nat) : Decidable (Collectable as bufSize) := by
  unfold Collectable; infer_instance

theorem collectRight_iff {pkt : List Byte} {pre post : List Attr} {offset : Nat}
    (behind : Nat → Byte) (h : Holds pkt (pre ++ post)) (hstart : Starts pre offset)
    (count : BitVec 64) (type : Byte) (bufSize : Nat) :
    CollectRight pkt behind post offset count type bufSize ↔
      Collectable (asked type count post) bufSize := by
  have hlen := h.len
  have hlt := pktLen_lt pkt
  have hpost := length_le_encode post
  rw [encode_append, List.length_append] at hlen
  have hget : attrGetDataToBuf (followed pkt behind) offset count type bufSize =
      some (gather bufSize (asked type count post) (.error .enoattr) []) := by
    rw [attrGetDataToBuf, dataToBufLoop_eq behind type bufSize h hstart, wanted_asked (by omega)]
  rw [CollectRight, hget, Collectable]
  cases hasked : asked type count post with
  | nil =>
    refine iff_of_true (fun out h => ?_) ⟨Nat.zero_le _, List.Pairwise.nil⟩
    cases h
  | cons a as =>
    have hsame : gather bufSize (a :: as) (.error .enoattr) [] =
        gather bufSize (a :: as) (.ok ()) [] := rfl
    obtain ⟨hok, hiff⟩ := @gather_iff bufSize (a :: as) [] (Nat.zero_le _)
    rw [List.nil_append, List.length_nil, Nat.zero_add] at hiff
    have hret : gather bufSize (a :: as) (.ok ()) [] =
        (.ok (), (gather bufSize (a :: as) (.ok ()) []).2) := Prod.ext hok rfl
    rw [hsame, ← hiff]
    constructor
    · intro h
      exact h _ (congrArg some hret)
    · intro h out hout
      rw [Option.some.injEq] at hout
      rw [← h, hout]

/-- When the search and the collecting loop do what they are for, from any place where an attribute
starts and from the end. -/
theorem attr_access {pkt : List Byte} (hchk : pktChk pkt = .ok ()) :
    ∃ as, Holds pkt as ∧ ∀ pre post offset, as = pre ++ post → Starts pre offset → ∀ type,
      (FindRight pkt pre post offset type ↔ offset ≠ pktLen pkt) ∧
        ∀ behind count bufSize, CollectRight pkt behind post offset count type bufSize ↔
          Collectable (asked type count post) bufSize := by
  obtain ⟨as, has⟩ := pktChk_holds hchk
  refine ⟨as, has, ?_⟩
  rintro pre post offset rfl hstart type
  exact ⟨findRight_iff has hstart type, fun behind count bufSize =>
    collectRight_iff behind has hstart count type bufSize⟩

/-- An Access-Accept with two Class attributes of one byte. -/
def twoClasses : List Byte :=
  [2#8, 0#8, 0#8, 26#8] ++ zeros16 ++ [25#8, 3#8, 0x61#8, 25#8, 3#8, 0x62#8]

theorem pktChk_twoClasses : pktChk twoClasses = .ok () := by decide +kernel

theorem attr_access_twoClasses :
    ∃ as, Holds twoClasses as ∧ FindRight twoClasses [] as 0 25#8 := by
  obtain ⟨as, has, haccess⟩ := attr_access pktChk_twoClasses
  exact ⟨as, has, (haccess [] as 0 rfl (.inr ⟨rfl, rfl⟩) 25#8).1.mpr (by decide)⟩

def class1 : Attr := ⟨25#8, [0x61#8], by decide, by decide⟩
def class2 : Attr := ⟨25#8, [0x62#8], by decide, by decide⟩

/-- The second attribute does not fit into a buffer of one byte, and the call succeeds. -/
theorem not_collectRight_twoClasses :
    pktChk twoClasses = .ok () ∧ Holds twoClasses [class1, class2] ∧
      ¬CollectRight twoClasses (fun _ => 0) [class1, class2] 0 0 25#8 1 := by
  have hholds : Holds twoClasses [class1, class2] := ⟨by decide, by decide, by rfl⟩
  refine ⟨pktChk_twoClasses, hholds, ?_⟩
  have hiff := @collectRight_iff twoClasses [] [class1, class2] 0 (fun _ => 0) hholds
    (.inr ⟨rfl, rfl⟩) 0 25#8 1
  rw [hiff]
  decide

end Radius.Get
