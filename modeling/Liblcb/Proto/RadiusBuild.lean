import Liblcb.Proto.RadiusAttrs

/-!
# Building RADIUS packets

A packet is started by `radius_pkt_init` and attributes are added to it, call after call.
-/

namespace Radius

open Mem Wire Buffer

/-- A call that adds an attribute. -/
inductive Call where
  | add (type : Byte) (data : List Byte) (size : data.length < 2 ^ 8)
  | addUint32 (type : Byte) (data : BitVec 32)
  | addAddr (typeV4 typeV6 : Byte) (addr : SockaddrStorage)

namespace Call

def run (h : Hashes) : Call → EStateM Errno (List Byte) (Nat × Nat)
  | .add type data _ => attrAdd h type (BitVec.ofNat 8 data.length) (some data)
  | .addUint32 type data => attrAddUint32 h type data
  | .addAddr typeV4 typeV6 addr => attrAddAddr h typeV4 typeV6 addr

/-- The type and the value the caller asks for: of an address structure, the address. -/
def asked : Call → Option (Byte × List Byte)
  | .add type data _ => some (type, data)
  | .addUint32 type data => some (type, le32 data)
  | .addAddr typeV4 typeV6 addr =>
    match addr.family with
    | .inet => some (typeV4, (addr.bytes.drop sinAddr).take 4)
    | .inet6 => some (typeV6, (addr.bytes.drop sin6Addr).take 16)
    | .other => none

/-- The data `radius_pkt_attr_add` is called with. -/
def passed : Call → List Byte
  | .add _ data _ => data
  | .addUint32 _ data => le32 data
  | .addAddr _ _ addr =>
    match addr.family with
    | .inet => (addr.bytes.drop sinAddr).take sockaddrInSize.toNat
    | .inet6 => (addr.bytes.drop sin6Addr).take sockaddrIn6Size.toNat
    | .other => []

end Call

/-- The attribute that holds a value: a password is padded with zeros, and a Message-Authenticator is
zero until the packet is signed. -/
def stored (v : Byte × List Byte) : Byte × List Byte :=
  if v.1 = typeUserPassword then
    (v.1, v.2 ++ List.replicate (passwordLenAligned v.2.length - v.2.length) 0)
  else if v.1 = typeMsgAuthentic then (v.1, zeros16)
  else v

/-- The type and the value can be added to the packet. -/
def Admissible (pkt : List Byte) (v : Byte × List Byte) : Prop :=
  if v.1 = typeUserPassword then
    v.2.length ≤ userPasswordMaxLen ∧ attrFind pkt 0 typeUserPassword = .error .enoattr
  else if v.1 = typeMsgAuthentic then attrFind pkt 0 typeMsgAuthentic = .error .enoattr
  else attrLenChk v.1 (BitVec.ofNat 8 v.2.length) = .ok ()

/-- There is room for an attribute with `n` bytes of data. -/
def Room (pkt : List Byte) (n : Nat) : Prop := pktLen pkt + (2 + n) ≤ pkt.length

/-- What is promised of one call: a value that is admissible and fits is added, a call that returns 0
has added its value behind the others, and a call that fails has changed nothing. -/
structure Meets (h : Hashes) (c : Call) (pkt : List Byte) : Prop where
  accepts : ∀ v ∈ c.asked, Admissible pkt v → Room pkt (stored v).2.length →
    ∃ r pkt', c.run h pkt = .ok r pkt'
  appends : ∀ r pkt', c.run h pkt = .ok r pkt' → ∃ v ∈ c.asked, ∃ as, walk pkt = .ok as ∧
    walk pkt' = .ok (as ++ [stored v])
  keeps : ∀ e pkt', c.run h pkt = .error e pkt' → pkt' = pkt

/-- The packet after a call. -/
def after (h : Hashes) (c : Call) (pkt : List Byte) : List Byte :=
  match c.run h pkt with
  | .ok _ pkt' => pkt'
  | .error _ pkt' => pkt'

/-- What a call has added. -/
def added (h : Hashes) (c : Call) (pkt : List Byte) : List (Byte × List Byte) :=
  match c.run h pkt with
  | .ok _ _ => (c.asked.map stored).toList
  | .error _ _ => []

/-- `P` of every call of a run, at the packet it meets. -/
def Every (h : Hashes) (P : Call → List Byte → Prop) : List Call → List Byte → Prop
  | [], _ => True
  | c :: cs, pkt => P c pkt ∧ Every h P cs (after h c pkt)

/-- The packet after a run, and all that was added. -/
def runCalls (h : Hashes) : List Call → List Byte → List Byte × List (Byte × List Byte)
  | [], pkt => (pkt, [])
  | c :: cs, pkt =>
    let rest := runCalls h cs (after h c pkt)
    (rest.1, added h c pkt ++ rest.2)

/-- The calls that do not reach what is wrong.  A User-Password is never added: its size is asked for
with a buffer of size 0.  An address is added with the size of the structure around it.  A length of
254 or 255 passes the check and has no room in the length field of an attribute, and a packet of
64 KiB has none in that of the packet. -/
def Clear (c : Call) (pkt : List Byte) : Prop :=
  ∀ v ∈ c.asked,
    if v.1 = typeUserPassword then ¬ (Admissible pkt v ∧ Room pkt (stored v).2.length)
    else if v.1 = typeMsgAuthentic then
      Admissible pkt v → Room pkt 16 → pktLen pkt + (2 + 16) < 2 ^ 16
    else
      (Admissible pkt v → Room pkt v.2.length → c.passed = v.2 ∧ v.2.length ≤ attrDataSizeMax) ∧
      (attrLenChk v.1 (BitVec.ofNat 8 c.passed.length) = .ok () → Room pkt c.passed.length →
        c.passed.length ≤ attrDataSizeMax →
        c.passed = v.2 ∧ pktLen pkt + (2 + c.passed.length) < 2 ^ 16)

/-! ## The bound of a walk -/

/-- The sizes of attributes. -/
def total (as : List (Byte × List Byte)) : Nat := (as.map fun a => 2 + a.2.length).sum

theorem total_append (as bs : List (Byte × List Byte)) : total (as ++ bs) = total as + total bs := by
  rw [total, List.map_append, List.sum_append, ← total, ← total]

theorem total_pairs (as : List Attr) : total (as.map Attr.pair) = (encode as).length := by
  induction as with
  | nil => rfl
  | cons a as ih =>
    rw [encode_cons, List.length_append, a.length_bytes, ← ih]
    rfl

theorem walkLoop_total {pkt : List Byte} : ∀ {fuel off : Nat} {as : List (Byte × List Byte)},
    walkLoop pkt fuel off = .ok as → off + total as ≤ max off (pktLen pkt + 2)
  | 0, off, as, h => by cases h
  | fuel + 1, off, as, h => by
    rw [walkLoop] at h
    split at h
    · rw [← Except.ok.inj h]
      exact Nat.le_max_left _ _
    next hoff =>
    obtain ⟨⟨type, data⟩, hget, h⟩ := bind_ok h
    obtain ⟨rest, hrest, h⟩ := bind_ok h
    have ih := walkLoop_total hrest
    rw [← Except.ok.inj h]
    obtain ⟨attr, hattr, hget⟩ := bind_ok hget
    -- the data of an attribute ends before the packet does
    have hdata : off + (2 + data.length) ≤ max (off + 2) (pktLen pkt) := by
      rw [attrGetFromOffset] at hattr
      split at hattr
      · cases hattr
      · split at hattr
        · cases hattr
        next hend =>
        rw [← Except.ok.inj hattr] at hget
        have hlen : data = attrData pkt off := (Prod.mk.inj (Except.ok.inj hget)).2.symm
        have hle : data.length ≤ attrLen pkt off - 2 := by
          rw [hlen, attrData]
          exact List.length_take_le _ _
        omega
    show off + (2 + data.length + total rest) ≤ _
    omega

theorem walk_total {pkt : List Byte} {as : List (Byte × List Byte)} (h : walk pkt = .ok as) :
    hdrSize + total as ≤ max hdrSize (pktLen pkt + 2) := walkLoop_total h

/-! ## One call -/

variable (h : Hashes) {pkt : List Byte} {as : List Attr}

theorem attrAdd_userPassword (len : Byte) (data : Option (List Byte)) (hp : Holds pkt as) :
    ∃ e, attrAdd h typeUserPassword len data pkt = .error e pkt := by
  have hprobe : len.toNat ≤ userPasswordMaxLen →
      passwordEncode h none none len.toNat [] true 0 = .error .eoverflow := by
    intro hlen
    have hpos : 0 < passwordLenAligned len.toNat := by
      rw [passwordLenAligned]
      split <;> omega
    rw [passwordEncode, if_neg (by omega), if_pos hpos]
  unfold attrAdd
  simp only [StateErr.bind_apply, StateErr.ite_apply, StateErr.throw_apply,
    if_neg (show typeUserPassword ≠ 0 by decide), StateErr.fold_ok, StateErr.fold_error,
    attrAbsent_eq hp, ite_true, StateErr.fold_ite]
  by_cases hlen : userPasswordMaxLen < len.toNat
  · exact ⟨.einval, by rw [if_pos hlen]⟩
  · rw [if_neg hlen]
    by_cases hpw : ∀ a ∈ as, a.type ≠ typeUserPassword
    · rw [if_pos hpw]
      by_cases hchap : ∀ a ∈ as, a.type ≠ typeChapPassword
      · rw [if_pos hchap, hprobe (by omega)]
        exact ⟨.eoverflow, rfl⟩
      · exact ⟨.eexist, by rw [if_neg hchap]⟩
    · exact ⟨.eexist, by rw [if_neg hpw]⟩

theorem attrAdd_msgAuthentic (len : Byte) (data : Option (List Byte)) (hp : Holds pkt as) :
    attrAdd h typeMsgAuthentic len data pkt =
      if ∀ a ∈ as, a.type ≠ typeMsgAuthentic then
        if pkt.length < pktLen pkt + (2 + 16) then .error .eoverflow pkt
        else .ok (pktLen pkt + (2 + 16), pktLen pkt) (appended pkt typeMsgAuthentic 16#8 zeros16)
      else .error .eexist pkt := by
  unfold attrAdd
  simp only [StateErr.bind_apply, StateErr.ite_apply, StateErr.throw_apply, StateErr.pure_apply,
    if_neg (show typeMsgAuthentic ≠ 0 by decide), StateErr.fold_ok,
    if_neg (show typeMsgAuthentic ≠ typeUserPassword by decide), attrAbsent_eq hp, ite_true,
    StateErr.fold_ite, StateErr.fold_error, StateErr.modify_apply]
  rw [attrAllocRaw]
  split
  · rw [if_neg (by decide)]
    show StateErr.fold (if pkt.length < pktLen pkt + (2 + 16) then _ else _) _ _ = _
    split <;> rfl
  · rfl

theorem attrAdd_other {type : Byte} (hpw : type ≠ typeUserPassword) (hma : type ≠ typeMsgAuthentic)
    (len : Byte) (data : List Byte) :
    attrAdd h type len (some data) pkt =
      match attrLenChk type len with
      | .error e => .error e pkt
      | .ok () =>
        if attrDataSizeMax < len.toNat then .error .einval pkt
        else if pkt.length < pktLen pkt + (2 + len.toNat) then .error .eoverflow pkt
        else .ok (pktLen pkt + (2 + len.toNat), pktLen pkt)
          (appended pkt type len (data.take len.toNat)) := by
  unfold attrAdd
  by_cases hzero : type = 0
  · subst hzero
    rfl
  · simp only [StateErr.bind_apply, StateErr.ite_apply, StateErr.throw_apply, if_neg hzero, if_neg hpw,
      if_neg hma]
    cases attrLenChk type len with
    | error e => rfl
    | ok u =>
      simp only [attrAddRaw, Option.isNone_some, Bool.false_eq_true, false_and, if_false,
        StateErr.bind_apply, StateErr.pure_apply, Option.getD_some]
      rw [attrAllocRaw]
      split
      · rfl
      · show StateErr.fold (if pkt.length < pktLen pkt + (2 + len.toNat) then _ else _) _ _ = _
        split <;> rfl

theorem pktLen_appended_wrap (hp : Holds pkt as) (type : Byte) {data : List Byte}
    (hlen : data.length ≤ attrDataSizeMax) (hroom : Room pkt data.length)
    (hwrap : ¬ pktLen pkt + (2 + data.length) < 2 ^ 16) :
    pktLen (appended pkt type (BitVec.ofNat 8 data.length) data) =
      pktLen pkt + (2 + data.length) - 2 ^ 16 := by
  have hplen := hp.len
  have hlt := pktLen_lt pkt
  unfold attrDataSizeMax at hlen
  unfold Room at hroom
  have hnat : (BitVec.ofNat 8 data.length).toNat = data.length := by
    rw [BitVec.toNat_ofNat, Nat.mod_eq_of_lt (by omega)]
  have hlen1 : (splice pkt (pktLen pkt) [type, 2#8 + BitVec.ofNat 8 data.length]).length =
      pkt.length := length_splice (show pktLen pkt + 2 ≤ pkt.length by omega)
  have hfit : 2 + (be16 (BitVec.ofNat 16 (pktLen pkt + (2 + data.length)))).length ≤
      (splice pkt (pktLen pkt) [type, 2#8 + BitVec.ofNat 8 data.length]).length := by
    rw [length_be16, hlen1]
    unfold hdrSize at hplen
    omega
  have hfit' : pktLen pkt + 2 + data.length ≤ (setPktLen (splice pkt (pktLen pkt)
      [type, 2#8 + BitVec.ofNat 8 data.length]) (pktLen pkt + (2 + data.length))).length := by
    rw [setPktLen, length_splice hfit, hlen1]
    omega
  rw [appended, hnat, (splice_attrs (show hdrSize ≤ pktLen pkt + 2 by omega) hfit').2, pktLen,
    setPktLen, (At.splice hfit).getBe16_eq, BitVec.toNat_ofNat]
  omega

theorem walk_appended_iff (hp : Holds pkt as) {type : Byte} {data : List Byte} (htype : type ≠ 0)
    (hlen : data.length ≤ attrDataSizeMax) (hroom : Room pkt data.length) (v : Byte × List Byte) :
    walk (appended pkt type (BitVec.ofNat 8 data.length) data) = .ok (as.map Attr.pair ++ [v]) ↔
      v = (type, data) ∧ pktLen pkt + (2 + data.length) < 2 ^ 16 := by
  have hplen := hp.len
  have hlt := pktLen_lt pkt
  have hlen' := hlen
  unfold attrDataSizeMax at hlen'
  by_cases hwrap : pktLen pkt + (2 + data.length) < 2 ^ 16
  · have happ := (hp.append ⟨type, data, htype, hlen⟩ hroom hwrap).1.walk_eq
    rw [happ, List.map_append]
    constructor
    · intro heq
      have hv := List.append_cancel_left (Except.ok.inj heq)
      exact ⟨(List.cons.inj hv).1.symm, hwrap⟩
    · rintro ⟨rfl, -⟩
      rfl
  · -- the length wraps, and the walk ends long before the attributes that were there
    constructor
    · intro heq
      have htot := walk_total heq
      rw [total_append, total_pairs] at htot
      have hshort := pktLen_appended_wrap hp type hlen hroom hwrap
      rw [hshort] at htot
      unfold hdrSize at *
      omega
    · rintro ⟨-, h⟩
      exact absurd h hwrap

/-! ## What a call promises -/

theorem Call.run_of_asked (c : Call) {v : Byte × List Byte} (hv : c.asked = some v) :
    ∃ mem, c.run h = attrAdd h v.1 (BitVec.ofNat 8 c.passed.length) (some mem) ∧
      mem.take c.passed.length = c.passed ∧ c.passed.length < 2 ^ 8 := by
  cases c with
  | add type data size =>
    cases hv
    exact ⟨data, rfl, List.take_length, size⟩
  | addUint32 type data =>
    cases hv
    exact ⟨le32 data, rfl, List.take_length, show 4 < 2 ^ 8 by decide⟩
  | addAddr typeV4 typeV6 addr =>
    have hbytes := addr.length_bytes
    simp only [Call.asked] at hv
    cases hf : addr.family with
    | inet =>
      rw [hf] at hv
      cases hv
      have hlen : (Call.addAddr typeV4 typeV6 addr).passed.length = 16 := by
        simp only [Call.passed, hf, List.length_take, List.length_drop, hbytes]
        rfl
      refine ⟨addr.bytes.drop sinAddr, ?_, ?_, by omega⟩
      · rw [hlen, Call.run, attrAddAddr, hf]
        rfl
      · rw [hlen, Call.passed, hf]
        rfl
    | inet6 =>
      rw [hf] at hv
      cases hv
      have hlen : (Call.addAddr typeV4 typeV6 addr).passed.length = 28 := by
        simp only [Call.passed, hf, List.length_take, List.length_drop, hbytes]
        rfl
      refine ⟨addr.bytes.drop sin6Addr, ?_, ?_, by omega⟩
      · rw [hlen, Call.run, attrAddAddr, hf]
        rfl
      · rw [hlen, Call.passed, hf]
        rfl
    | other =>
      rw [hf] at hv
      cases hv

theorem Call.run_of_not_asked (c : Call) (hc : c.asked = none) (pkt : List Byte) :
    c.run h pkt = .error .einval pkt := by
  cases c with
  | add type data size => cases hc
  | addUint32 type data => cases hc
  | addAddr typeV4 typeV6 addr =>
    simp only [Call.asked] at hc
    cases hf : addr.family with
    | inet => rw [hf] at hc; cases hc
    | inet6 => rw [hf] at hc; cases hc
    | other => rw [Call.run, attrAddAddr, hf]; rfl

theorem Holds.find_enoattr_iff (hp : Holds pkt as) (type : Byte) :
    attrFind pkt 0 type = .error .enoattr ↔ ∀ a ∈ as, a.type ≠ type := by
  constructor
  · intro hfind
    rcases first_split type as with hno | ⟨pre, a, post, rfl, rfl, hpre⟩
    · exact hno
    · rw [hp.find_first hpre] at hfind
      cases hfind
  · exact hp.find_none

theorem meets_of_error {c : Call} {e : Errno} (hrun : c.run h pkt = .error e pkt) :
    Meets h c pkt ↔ ∀ v ∈ c.asked, ¬ (Admissible pkt v ∧ Room pkt (stored v).2.length) := by
  constructor
  · intro hm v hv hadm
    rcases hm.accepts v hv hadm.1 hadm.2 with ⟨r, pkt', hok⟩
    rw [hrun] at hok
    cases hok
  · intro hno
    constructor
    · intro v hv hadm hroom
      exact absurd ⟨hadm, hroom⟩ (hno v hv)
    · intro r pkt' hok
      rw [hrun] at hok
      cases hok
    · intro e' pkt' herr
      rw [hrun] at herr
      cases herr
      rfl

theorem meets_of_ok (hp : Holds pkt as) {c : Call} {v : Byte × List Byte} (hv : c.asked = some v)
    {r : Nat × Nat} {type : Byte} {data : List Byte} (htype : type ≠ 0)
    (hlen : data.length ≤ attrDataSizeMax) (hroom : Room pkt data.length)
    (hrun : c.run h pkt = .ok r (appended pkt type (BitVec.ofNat 8 data.length) data)) :
    Meets h c pkt ↔ stored v = (type, data) ∧ pktLen pkt + (2 + data.length) < 2 ^ 16 := by
  rw [← walk_appended_iff hp htype hlen hroom]
  constructor
  · intro hm
    rcases hm.appends _ _ hrun with ⟨w, hw, bs, hbs, hwalk⟩
    rw [hv] at hw
    cases hw
    rw [hp.walk_eq] at hbs
    rw [Except.ok.inj hbs]
    exact hwalk
  · intro hwalk
    constructor
    · intro w hw hadm hroom'
      exact ⟨_, _, hrun⟩
    · intro r' pkt' hok
      rw [hrun] at hok
      cases hok
      exact ⟨v, hv, as.map Attr.pair, hp.walk_eq, hwalk⟩
    · intro e pkt' herr
      rw [hrun] at herr
      cases herr

theorem stored_other {v : Byte × List Byte} (hpw : v.1 ≠ typeUserPassword)
    (hma : v.1 ≠ typeMsgAuthentic) : stored v = v := by
  rw [stored, if_neg hpw, if_neg hma]

theorem stored_msgAuthentic {v : Byte × List Byte} (hma : v.1 = typeMsgAuthentic) :
    stored v = (typeMsgAuthentic, zeros16) := by
  rw [stored, hma, if_neg (by decide), if_pos rfl]

theorem type_ne_of_chk {type len : Byte} (hchk : attrLenChk type len = .ok ()) : type ≠ 0 := by
  rintro rfl
  cases hchk

def Ends (h : Hashes) (c : Call) (pkt : List Byte) (v : Byte × List Byte) : Prop :=
  (∃ e, c.run h pkt = .error e pkt ∧
    (Clear c pkt ↔ ¬ (Admissible pkt v ∧ Room pkt (stored v).2.length))) ∨
  (∃ r type data, type ≠ 0 ∧ data.length ≤ attrDataSizeMax ∧ Room pkt data.length ∧
    c.run h pkt = .ok r (appended pkt type (BitVec.ofNat 8 data.length) data) ∧
    (Clear c pkt ↔ stored v = (type, data) ∧ pktLen pkt + (2 + data.length) < 2 ^ 16))

theorem clear_iff {c : Call} {v : Byte × List Byte} (hv : c.asked = some v) :
    Clear c pkt ↔
      if v.1 = typeUserPassword then ¬ (Admissible pkt v ∧ Room pkt (stored v).2.length)
      else if v.1 = typeMsgAuthentic then
        Admissible pkt v → Room pkt 16 → pktLen pkt + (2 + 16) < 2 ^ 16
      else
        (Admissible pkt v → Room pkt v.2.length → c.passed = v.2 ∧ v.2.length ≤ attrDataSizeMax) ∧
        (attrLenChk v.1 (BitVec.ofNat 8 c.passed.length) = .ok () → Room pkt c.passed.length →
          c.passed.length ≤ attrDataSizeMax →
          c.passed = v.2 ∧ pktLen pkt + (2 + c.passed.length) < 2 ^ 16) := by
  constructor
  · intro hc
    exact hc v hv
  · intro hc w hw
    rw [← Option.some.inj (hv.symm.trans hw)]
    exact hc

theorem ends_userPassword (hp : Holds pkt as) {c : Call} {v : Byte × List Byte}
    (hv : c.asked = some v) (hpw : v.1 = typeUserPassword) : Ends h c pkt v := by
  rcases Call.run_of_asked h c hv with ⟨mem, hrun, -, -⟩
  rcases attrAdd_userPassword h (BitVec.ofNat 8 c.passed.length) (some mem) hp with ⟨e, he⟩
  refine .inl ⟨e, by rw [hrun, hpw, he], ?_⟩
  rw [clear_iff hv, if_pos hpw]

theorem ends_msgAuthentic (hp : Holds pkt as) {c : Call} {v : Byte × List Byte}
    (hv : c.asked = some v) (hma : v.1 = typeMsgAuthentic) : Ends h c pkt v := by
  have hpw : v.1 ≠ typeUserPassword := by
    rw [hma]
    decide
  have hadm : Admissible pkt v ↔ ∀ a ∈ as, a.type ≠ typeMsgAuthentic := by
    rw [Admissible, if_neg hpw, if_pos hma, hp.find_enoattr_iff]
  have hlen : zeros16.length = 16 := rfl
  rcases Call.run_of_asked h c hv with ⟨mem, hrun, -, -⟩
  unfold Ends
  rw [clear_iff hv, if_neg hpw, if_pos hma, hrun, hma, attrAdd_msgAuthentic h _ _ hp,
    stored_msgAuthentic hma, hadm]
  unfold Room
  by_cases hno : ∀ a ∈ as, a.type ≠ typeMsgAuthentic
  · rw [if_pos hno]
    by_cases hroom : pkt.length < pktLen pkt + (2 + 16)
    · rw [if_pos hroom]
      refine .inl ⟨.eoverflow, rfl, ?_⟩
      show _ ↔ ¬ (_ ∧ pktLen pkt + (2 + 16) ≤ pkt.length)
      omega
    · rw [if_neg hroom]
      refine .inr ⟨_, typeMsgAuthentic, zeros16, by decide, by decide, by omega, rfl, ?_⟩
      rw [hlen]
      exact ⟨fun hc => ⟨rfl, hc hno (by omega)⟩, fun hc _ _ => hc.2⟩
  · rw [if_neg hno]
    exact .inl ⟨.eexist, rfl, fun _ hc => hno hc.1, fun _ hc => absurd hc hno⟩

theorem ends_other {c : Call} {v : Byte × List Byte} (hv : c.asked = some v)
    (hpw : v.1 ≠ typeUserPassword) (hma : v.1 ≠ typeMsgAuthentic) : Ends h c pkt v := by
  rcases Call.run_of_asked h c hv with ⟨mem, hrun, hmem, hbyte⟩
  have hnat : (BitVec.ofNat 8 c.passed.length).toNat = c.passed.length := by
    rw [BitVec.toNat_ofNat, Nat.mod_eq_of_lt hbyte]
  have hadm : Admissible pkt v ↔ attrLenChk v.1 (BitVec.ofNat 8 v.2.length) = .ok () := by
    rw [Admissible, if_neg hpw, if_neg hma]
  unfold Ends
  rw [clear_iff hv, if_neg hpw, if_neg hma, hrun, attrAdd_other h hpw hma, stored_other hpw hma, hadm,
    hnat, hmem]
  generalize c.passed = data at *
  -- the call fails at the first test that the passed data does not pass
  cases hchk : attrLenChk v.1 (BitVec.ofNat 8 data.length) with
  | error e =>
    refine .inl ⟨e, rfl, ?_, ?_⟩
    · intro hc hok
      rw [(hc.1 hok.1 hok.2).1] at hchk
      rw [hok.1] at hchk
      cases hchk
    · intro hc
      exact ⟨fun h1 h2 => absurd ⟨h1, h2⟩ hc, nofun⟩
  | ok u =>
    by_cases hmax : attrDataSizeMax < data.length
    · refine .inl ⟨.einval, if_pos hmax, ?_, ?_⟩
      · intro hc hok
        have := hc.1 hok.1 hok.2
        rw [← this.1] at this
        omega
      · intro hc
        exact ⟨fun h1 h2 => absurd ⟨h1, h2⟩ hc, fun _ _ h3 => absurd h3 (by omega)⟩
    · by_cases hroom : pkt.length < pktLen pkt + (2 + data.length)
      · refine .inl ⟨.eoverflow, by simp only [if_neg hmax, if_pos hroom], ?_, ?_⟩
        · intro hc hok
          have hdata := (hc.1 hok.1 hok.2).1
          have := hok.2
          unfold Room at this
          rw [← hdata] at this
          omega
        · intro hc
          refine ⟨fun h1 h2 => absurd ⟨h1, h2⟩ hc, fun _ h2 => ?_⟩
          unfold Room at h2
          omega
      · refine .inr ⟨_, v.1, data, type_ne_of_chk hchk, by omega, by unfold Room; omega,
          by simp only [if_neg hmax, if_neg hroom]; rfl, ?_, ?_⟩
        · intro hc
          have := hc.2 rfl (by unfold Room; omega) (by omega)
          exact ⟨by rw [this.1], this.2⟩
        · intro hc
          have hdata : data = v.2 := (congrArg Prod.snd hc.1).symm
          exact ⟨fun _ _ => ⟨hdata, by rw [← hdata]; omega⟩, fun _ _ _ => ⟨hdata, hc.2⟩⟩

theorem ends (hp : Holds pkt as) {c : Call} {v : Byte × List Byte} (hv : c.asked = some v) :
    Ends h c pkt v := by
  by_cases hpw : v.1 = typeUserPassword
  · exact ends_userPassword h hp hv hpw
  · by_cases hma : v.1 = typeMsgAuthentic
    · exact ends_msgAuthentic h hp hv hma
    · exact ends_other h hv hpw hma

theorem meets_iff (hp : Holds pkt as) (c : Call) : Meets h c pkt ↔ Clear c pkt := by
  cases hv : c.asked with
  | none =>
    rw [meets_of_error h (c.run_of_not_asked h hv pkt), Clear, hv]
    exact ⟨fun _ v hw => absurd hw (by simp), fun _ v hw => absurd hw (by simp)⟩
  | some v =>
    rcases ends h hp hv with ⟨e, hrun, hclear⟩ | ⟨r, type, data, htype, hlen, hroom, hrun, hclear⟩
    · rw [meets_of_error h hrun, hclear, hv]
      exact ⟨fun hc => hc v rfl, fun hc w hw => (Option.some.inj hw) ▸ hc⟩
    · rw [meets_of_ok h hp hv htype hlen hroom hrun, hclear]

theorem holds_after (hp : Holds pkt as) {c : Call} (hc : Clear c pkt) :
    ∃ bs, Holds (after h c pkt) bs ∧ bs.map Attr.pair = as.map Attr.pair ++ added h c pkt := by
  cases hv : c.asked with
  | none =>
    rw [after, added, c.run_of_not_asked h hv pkt]
    exact ⟨as, hp, (List.append_nil _).symm⟩
  | some v =>
    rcases ends h hp hv with ⟨e, hrun, -⟩ | ⟨r, type, data, htype, hlen, hroom, hrun, hclear⟩
    · rw [after, added, hrun]
      exact ⟨as, hp, (List.append_nil _).symm⟩
    · have hok := hclear.mp hc
      rw [after, added, hrun, hv]
      have happ := hp.append ⟨type, data, htype, hlen⟩ hroom hok.2
      refine ⟨as ++ [⟨type, data, htype, hlen⟩], happ.1, ?_⟩
      rw [List.map_append]
      simp only [Option.map_some, Option.toList_some, hok.1]
      rfl

/-! ## A run -/

theorem holds_init {code id : Byte} {authenticator : Option (List Byte)} {buf : List Byte}
    (hinit : pktInit code id authenticator buf = .ok () pkt) : Holds pkt [] := by
  rw [pktInit] at hinit
  split at hinit
  · cases hinit
  next hbuf =>
  split at hinit
  · cases hinit
  next auth _ =>
  have hpkt := (EStateM.Result.ok.inj hinit).2
  have hauth : (auth.take 16).length ≤ 16 := List.length_take_le 16 auth
  have hlen1 : (splice buf 4 (auth.take 16)).length = buf.length := by
    apply length_splice
    unfold hdrSize at hbuf
    omega
  have hlen2 : (splice (splice buf 4 (auth.take 16)) 0 [code, id]).length = buf.length := by
    rw [length_splice (by rw [hlen1]; show 0 + 2 ≤ buf.length; unfold hdrSize at hbuf; omega), hlen1]
  have hhead := setPktLen_head (show hdrSize ≤ _ by rw [hlen2]; omega)
    (show hdrSize < 2 ^ 16 by decide)
  rw [hpkt] at hhead
  refine ⟨by rw [hhead.2]; rfl, ?_, At.nil _ _⟩
  rw [hhead.2, hhead.1.length, hlen2]
  omega

theorem run_meets_iff : ∀ (cs : List Call) {pkt : List Byte} {as : List Attr}, Holds pkt as →
    ((Every h (Meets h) cs pkt ∧
      walk (runCalls h cs pkt).1 = .ok (as.map Attr.pair ++ (runCalls h cs pkt).2)) ↔
      Every h Clear cs pkt)
  | [], pkt, as, hp => by
    rw [runCalls, List.append_nil]
    exact ⟨fun _ => trivial, fun _ => ⟨trivial, hp.walk_eq⟩⟩
  | c :: cs, pkt, as, hp => by
    constructor
    · rintro ⟨⟨hmeets, hrest⟩, hwalk⟩
      have hc := (meets_iff h hp c).mp hmeets
      rcases holds_after h hp hc with ⟨bs, hbs, hpairs⟩
      refine ⟨hc, (run_meets_iff cs hbs).mp ⟨hrest, ?_⟩⟩
      rw [hpairs, List.append_assoc]
      exact hwalk
    · rintro ⟨hc, hrest⟩
      rcases holds_after h hp hc with ⟨bs, hbs, hpairs⟩
      have ih := (run_meets_iff cs hbs).mpr hrest
      refine ⟨⟨(meets_iff h hp c).mpr hc, ih.1⟩, ?_⟩
      rw [hpairs, List.append_assoc] at ih
      exact ih.2

/-- A packet started by `radius_pkt_init` and any calls: all of them keep their promise and the walk
of the finished packet yields what was added, exactly when no call reaches what is wrong. -/
theorem build_meets_iff {code id : Byte} {authenticator : Option (List Byte)} {buf pkt : List Byte}
    (hinit : pktInit code id authenticator buf = .ok () pkt) (cs : List Call) :
    (Every h (Meets h) cs pkt ∧ walk (runCalls h cs pkt).1 = .ok (runCalls h cs pkt).2) ↔
      Every h Clear cs pkt :=
  run_meets_iff h cs (holds_init hinit)

instance (pkt : List Byte) (n : Nat) : Decidable (Room pkt n) :=
  inferInstanceAs (Decidable (_ ≤ _))

instance (pkt : List Byte) (v : Byte × List Byte) : Decidable (Admissible pkt v) := by
  delta Admissible
  infer_instance

instance (c : Call) (pkt : List Byte) : Decidable (Clear c pkt) := by
  delta Clear
  infer_instance

/-- Functions in place of MD5 and HMAC-MD5, for packets no digest is taken of. -/
def zeroHashes : Hashes where
  md5 _ := zeros16
  hmacMd5 _ _ := zeros16
  length_md5 _ := rfl
  length_hmacMd5 _ _ := rfl

/-- An Access-Request in a buffer of 64 bytes. -/
def startedPkt : List Byte := [1#8, 7#8, 0#8, 20#8] ++ List.replicate 60 0#8

/-- User-Name, NAS-Port and a Message-Authenticator. -/
theorem build_meets_three :
    pktInit accessRequest 7#8 (some zeros16) (List.replicate 64 0#8) = .ok () startedPkt ∧
    Every zeroHashes (Meets zeroHashes) [.add 1#8 [98#8, 111#8, 98#8] (by decide), .addUint32 5#8 3#32,
      .add typeMsgAuthentic [] (by decide)] startedPkt ∧
    walk (runCalls zeroHashes [.add 1#8 [98#8, 111#8, 98#8] (by decide), .addUint32 5#8 3#32,
      .add typeMsgAuthentic [] (by decide)] startedPkt).1 =
      .ok [(1#8, [98#8, 111#8, 98#8]), (5#8, [3#8, 0#8, 0#8, 0#8]), (typeMsgAuthentic, zeros16)] := by
  have hinit : pktInit accessRequest 7#8 (some zeros16) (List.replicate 64 0#8) = .ok () startedPkt :=
    rfl
  exact ⟨hinit, (build_meets_iff zeroHashes hinit _).mpr ⟨by decide, by decide, by decide, trivial⟩⟩

/-- A User-Password of one byte is refused, as the address 127.0.0.1 for NAS-IP-Address is. -/
theorem build_refuses_password :
    pktInit accessRequest 7#8 (some zeros16) (List.replicate 64 0#8) = .ok () startedPkt ∧
    ¬ Every zeroHashes (Meets zeroHashes) [.add typeUserPassword [97#8] (by decide)] startedPkt ∧
    ¬ Every zeroHashes (Meets zeroHashes) [.addAddr 4#8 95#8
      ⟨.inet, [2#8, 0#8, 0#8, 0#8, 127#8, 0#8, 0#8, 1#8] ++ List.replicate 120 0#8, rfl⟩]
      startedPkt := by
  have hinit : pktInit accessRequest 7#8 (some zeros16) (List.replicate 64 0#8) = .ok () startedPkt :=
    rfl
  refine ⟨hinit, ?_, ?_⟩
  · intro hc
    exact absurd ((meets_iff zeroHashes (holds_init hinit) _).mp hc.1) (by decide)
  · intro hc
    exact absurd ((meets_iff zeroHashes (holds_init hinit) _).mp hc.1) (by decide)

end Radius
