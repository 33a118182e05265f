import Liblcb.Proto.RadiusBuild

/-!
# Signed RADIUS packets

What `radius_pkt_sign` and `radius_pkt_verify` do to the attributes of a packet, and when the second
accepts what the first has made.
-/

namespace Radius

open Mem Wire Buffer

/-! ## The first attribute of a type -/

/-- Where the first attribute of a type starts, and its data. -/
def locate (type : Byte) : List (Byte × List Byte) → Option (Nat × List Byte)
  | [] => none
  | (t, d) :: ps =>
    if t = type then some (0, d) else (locate type ps).map fun r => (2 + d.length + r.1, r.2)

/-- Other data for the first attribute of a type. -/
def setFirst (type : Byte) (data : List Byte) :
    List (Byte × List Byte) → List (Byte × List Byte)
  | [] => []
  | (t, d) :: ps => if t = type then (t, data) :: ps else (t, d) :: setFirst type data ps

def encodePairs (ps : List (Byte × List Byte)) : List Byte :=
  ps.flatMap fun p => [p.1, BitVec.ofNat 8 (2 + p.2.length)] ++ p.2

theorem length_encodePairs_cons (p : Byte × List Byte) (ps : List (Byte × List Byte)) :
    (encodePairs (p :: ps)).length = 2 + p.2.length + (encodePairs ps).length := by
  rw [encodePairs, List.flatMap_cons, List.length_append, List.length_append]
  rfl

theorem encodePairs_pairs (as : List Attr) : encodePairs (as.map Attr.pair) = encode as := by
  rw [encodePairs, encode, List.flatMap_map]
  rfl

theorem locate_setFirst_self (type : Byte) (data : List Byte) : ∀ (ps : List (Byte × List Byte)),
    locate type (setFirst type data ps) = (locate type ps).map fun r => (r.1, data)
  | [] => rfl
  | (t, d) :: ps => by
    have ih := locate_setFirst_self type data ps
    by_cases ht : t = type
    · rw [setFirst, if_pos ht, locate, if_pos ht, locate, if_pos ht]
      rfl
    · rw [setFirst, if_neg ht, locate, if_neg ht, locate, if_neg ht, ih, Option.map_map,
        Option.map_map]
      rfl

theorem locate_setFirst_ne {type type' : Byte} (hne : type' ≠ type) (data : List Byte) :
    ∀ (ps : List (Byte × List Byte)), (∀ r ∈ locate type' ps, r.2.length = data.length) →
    locate type (setFirst type' data ps) = locate type ps
  | [], _ => rfl
  | (t, d) :: ps, hlen => by
    by_cases ht : t = type'
    · have hd : d.length = data.length := hlen (0, d) (by rw [locate, if_pos ht]; rfl)
      have ht' : t ≠ type := ht ▸ hne
      rw [setFirst, if_pos ht, locate, if_neg ht', locate, if_neg ht', hd]
    · have ih := locate_setFirst_ne hne data ps (by
        intro r hr
        rw [locate, if_neg ht, Option.mem_def.mp hr] at hlen
        exact hlen (2 + d.length + r.1, r.2) rfl)
      rw [setFirst, if_neg ht, locate, locate, ih]

theorem setFirst_of_none {type : Byte} (data : List Byte) : ∀ {ps : List (Byte × List Byte)},
    locate type ps = none → setFirst type data ps = ps
  | [], _ => rfl
  | (t, d) :: ps, hno => by
    by_cases ht : t = type
    · rw [locate, if_pos ht] at hno
      cases hno
    · rw [locate, if_neg ht, Option.map_eq_none_iff] at hno
      rw [setFirst, if_neg ht, setFirst_of_none data hno]

theorem setFirst_setFirst_self (type : Byte) (data data' : List Byte) :
    ∀ (ps : List (Byte × List Byte)),
    setFirst type data (setFirst type data' ps) = setFirst type data ps
  | [] => rfl
  | (t, d) :: ps => by
    by_cases ht : t = type
    · rw [setFirst, if_pos ht, setFirst, if_pos ht, setFirst, if_pos ht]
    · rw [setFirst, if_neg ht, setFirst, if_neg ht, setFirst, if_neg ht,
        setFirst_setFirst_self type data data' ps]

theorem setFirst_comm {type type' : Byte} (hne : type ≠ type') (data data' : List Byte) :
    ∀ (ps : List (Byte × List Byte)),
    setFirst type data (setFirst type' data' ps) = setFirst type' data' (setFirst type data ps)
  | [] => rfl
  | (t, d) :: ps => by
    by_cases ht : t = type
    · have ht' : t ≠ type' := ht ▸ hne
      rw [setFirst, if_neg ht', setFirst, if_pos ht, setFirst, if_pos ht, setFirst, if_neg ht']
    · by_cases ht' : t = type'
      · rw [setFirst, if_pos ht', setFirst, if_neg ht, setFirst, if_neg ht, setFirst, if_pos ht']
      · rw [setFirst, if_neg ht', setFirst, if_neg ht, setFirst, if_neg ht, setFirst, if_neg ht',
          setFirst_comm hne data data' ps]

theorem setFirst_located {type : Byte} : ∀ {ps : List (Byte × List Byte)} {r : Nat × List Byte},
    locate type ps = some r → setFirst type r.2 ps = ps
  | [], _, h => by cases h
  | (t, d) :: ps, r, h => by
    by_cases ht : t = type
    · rw [locate, if_pos ht] at h
      cases h
      rw [setFirst, if_pos ht]
    · rw [locate, if_neg ht, Option.map_eq_some_iff] at h
      rcases h with ⟨r', hr', rfl⟩
      rw [setFirst, if_neg ht, setFirst_located hr']

theorem setFirst_append {type : Byte} (data : List Byte) (qs : List (Byte × List Byte)) :
    ∀ {ps : List (Byte × List Byte)}, locate type ps ≠ none →
    setFirst type data (ps ++ qs) = setFirst type data ps ++ qs
  | [], h => absurd rfl h
  | (t, d) :: ps, h => by
    rw [List.cons_append]
    by_cases ht : t = type
    · rw [setFirst, if_pos ht, setFirst, if_pos ht, List.cons_append]
    · rw [locate, if_neg ht, ne_eq, Option.map_eq_none_iff] at h
      rw [setFirst, if_neg ht, setFirst, if_neg ht, setFirst_append data qs h, List.cons_append]

theorem locate_eq_none_iff {type : Byte} : ∀ {ps : List (Byte × List Byte)},
    locate type ps = none ↔ ∀ p ∈ ps, p.1 ≠ type
  | [] => ⟨fun _ _ hp => absurd hp List.not_mem_nil, fun _ => rfl⟩
  | (t, d) :: ps => by
    rw [locate, List.forall_mem_cons]
    by_cases ht : t = type
    · rw [if_pos ht]
      exact ⟨nofun, fun hno => absurd ht hno.1⟩
    · rw [if_neg ht, Option.map_eq_none_iff, locate_eq_none_iff]
      exact ⟨fun hno => ⟨ht, hno⟩, fun hno => hno.2⟩

theorem locate_none_iff {type : Byte} {as : List Attr} :
    locate type (as.map Attr.pair) = none ↔ ∀ a ∈ as, a.type ≠ type := by
  rw [locate_eq_none_iff, List.forall_mem_map]
  rfl

theorem locate_pairs_first {a : Attr} (post : List Attr) : ∀ {pre : List Attr},
    (∀ b ∈ pre, b.type ≠ a.type) →
    locate a.type ((pre ++ a :: post).map Attr.pair) = some ((encode pre).length, a.data)
  | [], _ => by
    rw [List.nil_append, List.map_cons, Attr.pair, locate, if_pos rfl]
    rfl
  | b :: pre, hpre => by
    have ih := locate_pairs_first post (fun c hc => hpre c (List.mem_cons_of_mem b hc))
    rw [List.cons_append, List.map_cons, Attr.pair, locate, if_neg (hpre b List.mem_cons_self), ih,
      encode_cons, List.length_append, b.length_bytes]
    rfl

theorem setFirst_pairs (a a' : Attr) (post : List Attr) (htype : a'.type = a.type) :
    ∀ {pre : List Attr}, (∀ b ∈ pre, b.type ≠ a.type) →
    setFirst a.type a'.data ((pre ++ a :: post).map Attr.pair) = (pre ++ a' :: post).map Attr.pair
  | [], _ => by
    rw [List.nil_append, List.map_cons, Attr.pair, setFirst, if_pos rfl, List.nil_append,
      List.map_cons, Attr.pair, htype]
  | b :: pre, hpre => by
    have ih := setFirst_pairs a a' post htype (fun c hc => hpre c (List.mem_cons_of_mem b hc))
    rw [List.cons_append, List.map_cons, Attr.pair, setFirst, if_neg (hpre b List.mem_cons_self), ih]
    rfl

/-! ## A packet and its types and data -/

/-- The packet holds the attributes with these types and data. -/
def Has (pkt : List Byte) (ps : List (Byte × List Byte)) : Prop :=
  ∃ as, Holds pkt as ∧ as.map Attr.pair = ps

namespace Has

variable {pkt : List Byte} {ps : List (Byte × List Byte)} {type : Byte} {off : Nat}
  {data : List Byte}

theorem walk_eq (hp : Has pkt ps) : walk pkt = .ok ps := by
  rcases hp with ⟨as, hp, rfl⟩
  exact hp.walk_eq

theorem len (hp : Has pkt ps) : pktLen pkt = hdrSize + (encodePairs ps).length := by
  rcases hp with ⟨as, hp, rfl⟩
  rw [encodePairs_pairs]
  exact hp.len

theorem room (hp : Has pkt ps) : pktLen pkt ≤ pkt.length := by
  rcases hp with ⟨as, hp, rfl⟩
  exact hp.room

theorem attrs (hp : Has pkt ps) : At pkt hdrSize (encodePairs ps) := by
  rcases hp with ⟨as, hp, rfl⟩
  rw [encodePairs_pairs]
  exact hp.attrs

theorem find_none (hp : Has pkt ps) (hno : locate type ps = none) :
    attrFind pkt 0 type = .error .enoattr := by
  rcases hp with ⟨as, hp, rfl⟩
  rcases first_split type as with hno' | ⟨pre, a, post, rfl, rfl, hpre⟩
  · exact hp.find_none hno'
  · rw [locate_pairs_first post hpre] at hno
    cases hno

theorem split (hp : Has pkt ps) (hloc : locate type ps = some (off, data)) :
    ∃ pre a post, Holds pkt (pre ++ a :: post) ∧ (∀ b ∈ pre, b.type ≠ a.type) ∧ a.type = type ∧
      a.data = data ∧ off = (encode pre).length ∧ ps = (pre ++ a :: post).map Attr.pair := by
  rcases hp with ⟨as, hp, rfl⟩
  rcases first_split type as with hno | ⟨pre, a, post, rfl, rfl, hpre⟩
  · rw [locate_none_iff.mpr hno] at hloc
    cases hloc
  · rw [locate_pairs_first post hpre] at hloc
    cases hloc
    exact ⟨pre, a, post, hp, hpre, rfl, rfl, rfl, rfl⟩

theorem find_some (hp : Has pkt ps) (hloc : locate type ps = some (off, data)) :
    attrFind pkt 0 type = .ok (hdrSize + off) := by
  rcases hp.split hloc with ⟨pre, a, post, hold, hpre, rfl, rfl, rfl, rfl⟩
  exact hold.find_first hpre

theorem located (hp : Has pkt ps) (hloc : locate type ps = some (off, data)) :
    attrGetFromOffset pkt (hdrSize + off) = .ok (hdrSize + off) ∧
    attrType pkt (hdrSize + off) = type ∧ attrLen pkt (hdrSize + off) = 2 + data.length ∧
    attrData pkt (hdrSize + off) = data ∧ hdrSize + off + (2 + data.length) ≤ pktLen pkt := by
  rcases hp.split hloc with ⟨pre, a, post, hold, hpre, rfl, rfl, rfl, rfl⟩
  have hlen := hold.len
  rw [encode_append, encode_cons, List.length_append, List.length_append, a.length_bytes] at hlen
  rcases attr_at hold.attr with ⟨htype, halen, hadata⟩
  exact ⟨hold.get_from_offset, htype, halen, hadata, by omega⟩

theorem set_first (hp : Has pkt ps) (hloc : locate type ps = some (off, data)) {data' : List Byte}
    (hlen : data'.length = data.length) :
    Has (splice pkt (hdrSize + off + 2) data') (setFirst type data' ps) ∧
      SameHead pkt (splice pkt (hdrSize + off + 2) data') := by
  rcases hp.split hloc with ⟨pre, a, post, hold, hpre, rfl, rfl, rfl, rfl⟩
  have hset := hold.set_data hlen
  refine ⟨⟨_, hset.1, ?_⟩, hset.2⟩
  exact (setFirst_pairs a (a.withData data' hlen) post rfl hpre).symm

end Has

/-! ## The steps of `radius_pkt_sign` -/

def signPassword (h : Hashes) (key : List Byte) : EStateM Errno (List Byte) Unit := fun pkt =>
  match attrFind pkt 0 typeUserPassword with
  | .error _ => .ok () pkt
  | .ok attr =>
    let len := attrLen pkt attr - 2
    match passwordEncode h (some (pktAuthenticator pkt)) (some (attrData pkt attr)) len key false
        len with
    | .error e => .error e pkt
    | .ok buf => .ok () (splice pkt (attr + 2) buf)

def signLocate (h : Hashes) (addMsgAuthr : Bool) : EStateM Errno (List Byte) Nat := fun pkt =>
  if addMsgAuthr then
    StateErr.fold (attrAdd h typeMsgAuthentic 0#8 none pkt) (fun r p => .ok r.2 p) .error
  else
    match attrFind pkt 0 typeMsgAuthentic with
    | .ok offset => .ok offset pkt
    | .error .enoattr => .ok 0 pkt
    | .error e => .error e pkt

theorem signLocate_bind (h : Hashes) (addMsgAuthr : Bool)
    (rest : Nat → EStateM Errno (List Byte) Nat) :
    (do
      let pkt ← get
      if addMsgAuthr then
        let (_, offset) ← attrAdd h typeMsgAuthentic 0#8 none
        rest offset
      else
        match attrFind pkt 0 typeMsgAuthentic with
        | .ok offset => rest offset
        | .error .enoattr => rest 0
        | .error e =>
          let offset ← throw e
          rest offset) = signLocate h addMsgAuthr >>= rest := by
  funext pkt
  simp only [StateErr.bind_apply, StateErr.get_apply, StateErr.fold_ok, signLocate]
  cases addMsgAuthr with
  | true =>
    simp only [ite_true, StateErr.bind_apply]
    cases attrAdd h typeMsgAuthentic 0#8 none pkt <;> rfl
  | false =>
    simp only [Bool.false_eq_true, ite_false]
    cases attrFind pkt 0 typeMsgAuthentic with
    | ok offset => rfl
    | error e => cases e <;> rfl

theorem pktSign_eq (h : Hashes) (key : List Byte) (addMsgAuthr : Bool) :
    pktSign h key addMsgAuthr = (do
      signPassword h key
      let offset ← signLocate h addMsgAuthr
      StateErr.onlyIf (offset ≠ 0) (msgAuthenticatorUpdate h offset key true none)
      authenticatorUpdate h key true none
      let pkt ← get
      return pktLen pkt) := by
  have hend : ∀ offset : Nat, (if offset ≠ 0 then do
        msgAuthenticatorUpdate h offset key true none
        authenticatorUpdate h key true none
        let pkt ← get
        pure (pktLen pkt)
      else do
        authenticatorUpdate h key true none
        let pkt ← get
        pure (pktLen pkt) : EStateM Errno (List Byte) Nat) = (do
      StateErr.onlyIf (offset ≠ 0) (msgAuthenticatorUpdate h offset key true none)
      authenticatorUpdate h key true none
      let pkt ← get
      return pktLen pkt) := by
    intro offset
    unfold StateErr.onlyIf
    split <;> rfl
  have hrest := signLocate_bind h addMsgAuthr fun offset => do
    StateErr.onlyIf (offset ≠ 0) (msgAuthenticatorUpdate h offset key true none)
    authenticatorUpdate h key true none
    let pkt ← get
    return pktLen pkt
  funext pkt
  unfold pktSign
  simp only [hend, pure_bind]
  rw [StateErr.bind_apply, StateErr.get_apply, StateErr.fold_ok,
    StateErr.bind_apply (signPassword h key), signPassword]
  cases attrFind pkt 0 typeUserPassword with
  | error e => exact congrFun hrest pkt
  | ok attr =>
    simp only
    cases passwordEncode h (some (pktAuthenticator pkt)) (some (attrData pkt attr))
        (attrLen pkt attr - 2) key false (attrLen pkt attr - 2) with
    | error e => rfl
    | ok buf => exact congrFun hrest _

/-! ## Hidden passwords -/

theorem length_xorBytes {as bs : List Byte} (h : as.length ≤ bs.length) :
    (xorBytes as bs).length = as.length := by
  rw [xorBytes, List.length_zipWith, Nat.min_eq_left h]

theorem xorBytes_xorBytes : ∀ {as bs : List Byte}, as.length ≤ bs.length →
    xorBytes (xorBytes as bs) bs = as
  | [], _, _ => rfl
  | a :: as, [], h => by cases h
  | a :: as, b :: bs, h => by
    have ih := xorBytes_xorBytes (Nat.le_of_succ_le_succ h)
    show ((a ^^^ b) ^^^ b) :: xorBytes (xorBytes as bs) bs = a :: as
    rw [ih, BitVec.xor_assoc, BitVec.xor_self, BitVec.xor_zero]

theorem length_encodeBlocks (h : Hashes) (key : List Byte) : ∀ (n : Nat) (prev buf : List Byte),
    buf.length = 16 * n → (encodeBlocks h key n prev buf).length = 16 * n
  | 0, _, _, _ => rfl
  | n + 1, prev, buf, hlen => by
    have hblock : (xorBytes (buf.take 16) (h.md5 (key ++ prev))).length = 16 := by
      rw [length_xorBytes (by rw [h.length_md5]; exact List.length_take_le 16 buf), List.length_take]
      omega
    rw [encodeBlocks, List.length_append, hblock,
      length_encodeBlocks h key n _ _ (by rw [List.length_drop]; omega)]
    omega

theorem length_decodeBlocks (h : Hashes) (key : List Byte) : ∀ (n : Nat) (prev buf : List Byte),
    buf.length = 16 * n → (decodeBlocks h key n prev buf).length = 16 * n
  | 0, _, _, _ => rfl
  | n + 1, prev, buf, hlen => by
    have hblock : (xorBytes (buf.take 16) (h.md5 (key ++ prev))).length = 16 := by
      rw [length_xorBytes (by rw [h.length_md5]; exact List.length_take_le 16 buf), List.length_take]
      omega
    rw [decodeBlocks, List.length_append, hblock,
      length_decodeBlocks h key n _ _ (by rw [List.length_drop]; omega)]
    omega

theorem decode_encodeBlocks (h : Hashes) (key : List Byte) : ∀ (n : Nat) (prev buf : List Byte),
    buf.length = 16 * n → decodeBlocks h key n prev (encodeBlocks h key n prev buf) = buf
  | 0, _, buf, hlen => (List.length_eq_zero_iff.mp hlen).symm
  | n + 1, prev, buf, hlen => by
    have htake : (buf.take 16).length ≤ (h.md5 (key ++ prev)).length := by
      rw [h.length_md5]
      exact List.length_take_le 16 buf
    have hblock : (xorBytes (buf.take 16) (h.md5 (key ++ prev))).length = 16 := by
      rw [length_xorBytes htake, List.length_take]
      omega
    have ih := decode_encodeBlocks h key n (xorBytes (buf.take 16) (h.md5 (key ++ prev)))
      (buf.drop 16) (by rw [List.length_drop]; omega)
    rw [encodeBlocks, decodeBlocks, List.take_left' hblock, List.drop_left' hblock, ih,
      xorBytes_xorBytes htake, List.take_append_drop]

/-- A password that `radius_pkt_sign` can hide in place: it is padded already. -/
def PasswordFits (ps : List (Byte × List Byte)) : Prop :=
  ∀ r ∈ locate typeUserPassword ps,
    r.2.length ≠ 0 ∧ r.2.length ≤ userPasswordMaxLen ∧ r.2.length % 16 = 0

/-- The attributes with the password hidden. -/
def hidden (h : Hashes) (key authenticator : List Byte) (ps : List (Byte × List Byte)) :
    List (Byte × List Byte) :=
  match locate typeUserPassword ps with
  | none => ps
  | some r => setFirst typeUserPassword (encodeBlocks h key (r.2.length / 16) authenticator r.2) ps

variable (h : Hashes) (key : List Byte) {pkt : List Byte} {ps : List (Byte × List Byte)}

theorem passwordEncode_eq (authenticator data : List Byte) :
    passwordEncode h (some authenticator) (some data) data.length key false data.length =
      if userPasswordMaxLen < data.length then .error .einval
      else if data.length < passwordLenAligned data.length then .error .eoverflow
      else .ok (encodeBlocks h key (data.length / 16) authenticator data) := by
  unfold passwordEncode
  by_cases hmax : userPasswordMaxLen < data.length
  · rw [if_pos hmax, if_pos hmax]
  · rw [if_neg hmax, if_neg hmax]
    by_cases hal : data.length < passwordLenAligned data.length
    · simp only [if_pos hal]
    · have heq : passwordLenAligned data.length = data.length := by
        unfold passwordLenAligned at hal ⊢
        by_cases hzero : data.length ≠ 0
        · rw [if_pos hzero] at hal ⊢
          omega
        · rw [if_neg hzero] at hal ⊢
          omega
      simp only [heq, Nat.lt_irrefl, if_false, Option.isNone_some, Bool.false_eq_true, false_and,
        or_self, Option.getD_some, List.take_length, Nat.sub_self, List.replicate_zero,
        List.append_nil]

theorem passwordFits_iff {n : Nat} :
    (¬ userPasswordMaxLen < n ∧ ¬ n < passwordLenAligned n) ↔
      n ≠ 0 ∧ n ≤ userPasswordMaxLen ∧ n % 16 = 0 := by
  unfold passwordLenAligned
  split <;> omega

theorem signPassword_ok (hp : Has pkt ps) (hfit : PasswordFits ps) :
    ∃ p1, signPassword h key pkt = .ok () p1 ∧ Has p1 (hidden h key (pktAuthenticator pkt) ps) ∧
      SameHead pkt p1 := by
  unfold hidden signPassword
  cases hloc : locate typeUserPassword ps with
  | none =>
    rw [hp.find_none hloc]
    exact ⟨pkt, rfl, hp, SameHead.refl pkt⟩
  | some r =>
    rcases r with ⟨off, data⟩
    have hdata : ¬ userPasswordMaxLen < data.length ∧ ¬ data.length < passwordLenAligned data.length :=
      passwordFits_iff.mpr (hfit (off, data) hloc)
    rcases hp.located hloc with ⟨-, -, hlen, hbytes, -⟩
    have henc : (encodeBlocks h key (data.length / 16) (pktAuthenticator pkt) data).length =
        data.length := by
      have hmod := (passwordFits_iff.mp hdata).2.2
      rw [length_encodeBlocks h key _ _ _ (by omega)]
      omega
    rw [hp.find_some hloc]
    simp only [hlen, hbytes, Nat.add_sub_cancel_left, passwordEncode_eq, if_neg hdata.1,
      if_neg hdata.2]
    exact ⟨_, rfl, hp.set_first hloc henc⟩

theorem signPassword_error (hp : Has pkt ps) (hfit : ¬ PasswordFits ps) :
    ∃ e, signPassword h key pkt = .error e pkt := by
  unfold PasswordFits at hfit
  unfold signPassword
  cases hloc : locate typeUserPassword ps with
  | none =>
    rw [hloc] at hfit
    exact absurd (fun r hr => by cases hr) hfit
  | some r =>
    rcases r with ⟨off, data⟩
    rcases hp.located hloc with ⟨-, -, hlen, hbytes, -⟩
    rw [hp.find_some hloc]
    simp only [hlen, hbytes, Nat.add_sub_cancel_left, passwordEncode_eq]
    by_cases hmax : userPasswordMaxLen < data.length
    · exact ⟨.einval, by rw [if_pos hmax]⟩
    · by_cases hal : data.length < passwordLenAligned data.length
      · exact ⟨.eoverflow, by rw [if_neg hmax, if_pos hal]⟩
      · rw [hloc] at hfit
        refine absurd (fun r hr => ?_) hfit
        rw [← Option.some.inj hr]
        exact passwordFits_iff.mp ⟨hmax, hal⟩

/-! ## The bytes that are hashed -/

namespace Has

variable {pkt : List Byte} {ps : List (Byte × List Byte)}

theorem hdr_le (hp : Has pkt ps) : hdrSize ≤ pkt.length := by
  have hlen := hp.len
  have hroom := hp.room
  omega

theorem length_authenticator (hp : Has pkt ps) : (pktAuthenticator pkt).length = 16 :=
  length_pktAuthenticator hp.hdr_le

theorem attrs_bytes (hp : Has pkt ps) :
    (pkt.drop hdrSize).take (pktLen pkt - hdrSize) = encodePairs ps := by
  rw [hp.len, Nat.add_sub_cancel_left]
  exact hp.attrs

theorem take_pktLen (hp : Has pkt ps) :
    pkt.take (pktLen pkt) = pkt.take 4 ++ pktAuthenticator pkt ++ encodePairs ps := by
  have hlen := hp.len
  have h16 : pktLen pkt = 4 + (16 + (encodePairs ps).length) := by
    rw [hlen]
    unfold hdrSize
    omega
  have hattrs : (pkt.drop 20).take (encodePairs ps).length = encodePairs ps := hp.attrs
  rw [h16, List.take_add, List.take_add, pktAuthenticator, List.drop_drop, List.append_assoc]
  rw [hattrs]

theorem msgAuthenticatorBytes_eq (hp : Has pkt ps) {off : Nat} {data : List Byte}
    (hloc : locate typeMsgAuthentic ps = some (off, data)) (hdata : data.length = 16)
    (authenticator : List Byte) :
    msgAuthenticatorBytes pkt (hdrSize + off) authenticator =
      pkt.take 4 ++ authenticator ++ encodePairs (setFirst typeMsgAuthentic zeros16 ps) := by
  rcases hp.split hloc with ⟨pre, a, post, hold, hpre, htype, rfl, rfl, rfl⟩
  have hlen := hold.len
  have hset := setFirst_pairs a (a.withData zeros16 hdata.symm) post rfl hpre
  rw [htype] at hset
  rw [show setFirst typeMsgAuthentic zeros16 ((pre ++ a :: post).map Attr.pair) = _ from hset,
    encodePairs_pairs]
  -- the attributes up to the data, and those behind it
  have hat := hold.attrs
  rw [encode_append, encode_cons, Attr.bytes, List.append_assoc, ← List.append_assoc] at hat
  rcases At.append_iff.mp hat with ⟨hbefore, hrest⟩
  have hafter := (At.append_iff.mp hrest).2
  have htwo : ([a.type, BitVec.ofNat 8 (2 + a.data.length)] : List Byte).length = 2 := rfl
  have hfirst : (pkt.drop hdrSize).take (hdrSize + (encode pre).length + 2 - hdrSize) =
      encode pre ++ [a.type, BitVec.ofNat 8 (2 + a.data.length)] := by
    have hb : (pkt.drop hdrSize).take _ = _ := hbefore
    rw [List.length_append, htwo] at hb
    rw [show hdrSize + (encode pre).length + 2 - hdrSize = (encode pre).length + 2 by omega]
    exact hb
  have hlast : (pkt.drop (hdrSize + (encode pre).length + 18)).take
      (pktLen pkt - (hdrSize + (encode pre).length + 18)) = encode post := by
    have ha : (pkt.drop _).take _ = _ := hafter
    rw [List.length_append, htwo, hdata] at ha
    rw [encode_append, encode_cons, List.length_append, List.length_append, a.length_bytes, hdata]
      at hlen
    rw [show hdrSize + (encode pre).length + 18 = hdrSize + ((encode pre).length + 2) + 16 by omega,
      show pktLen pkt - (hdrSize + ((encode pre).length + 2) + 16) = (encode post).length by omega]
    exact ha
  rw [msgAuthenticatorBytes, hfirst, hlast, encode_append, encode_cons, Attr.bytes]
  simp only [Attr.withData, List.append_assoc, hdata]
  rfl

end Has

/-! ## The Message-Authenticator -/

/-- The attributes that are signed. -/
def withMsgAuthr (addMsgAuthr : Bool) (ps : List (Byte × List Byte)) : List (Byte × List Byte) :=
  if addMsgAuthr then ps ++ [(typeMsgAuthentic, zeros16)] else ps

/-- A Message-Authenticator can be added, or the one that is there has its length. -/
def MsgAuthrFits (pkt : List Byte) (addMsgAuthr : Bool) (ps : List (Byte × List Byte)) : Prop :=
  if addMsgAuthr then
    locate typeMsgAuthentic ps = none ∧ pktLen pkt + 18 ≤ pkt.length ∧ pktLen pkt + 18 < 2 ^ 16
  else ∀ r ∈ locate typeMsgAuthentic ps, r.2.length = 16

/-- The offset `radius_pkt_sign` works with. -/
def msgAuthrOffset (qs : List (Byte × List Byte)) : Nat :=
  match locate typeMsgAuthentic qs with
  | none => 0
  | some r => hdrSize + r.1

theorem locate_append_self {type : Byte} (data : List Byte) :
    ∀ {ps : List (Byte × List Byte)}, locate type ps = none →
    locate type (ps ++ [(type, data)]) = some ((encodePairs ps).length, data)
  | [], _ => by
    rw [List.nil_append, locate, if_pos rfl]
    rfl
  | (t, d) :: ps, hno => by
    by_cases ht : t = type
    · rw [locate, if_pos ht] at hno
      cases hno
    · rw [locate, if_neg ht, Option.map_eq_none_iff] at hno
      rw [List.cons_append, locate, if_neg ht, locate_append_self data hno]
      show some (2 + d.length + (encodePairs ps).length, data) = _
      rw [length_encodePairs_cons]

theorem signLocate_add (hp : Has pkt ps) (hno : locate typeMsgAuthentic ps = none)
    (hroom : pktLen pkt + 18 ≤ pkt.length) (hlen : pktLen pkt + 18 < 2 ^ 16) :
    ∃ p2, signLocate h true pkt = .ok (pktLen pkt) p2 ∧
      Has p2 (ps ++ [(typeMsgAuthentic, zeros16)]) ∧ SameHead pkt p2 := by
  rcases hp with ⟨as, hold, rfl⟩
  have happ := hold.append ⟨typeMsgAuthentic, zeros16, by decide, by decide⟩ hroom hlen
  have hadd := attrAdd_msgAuthentic h 0#8 none hold
  rw [if_pos (locate_none_iff.mp hno), if_neg (by omega)] at hadd
  refine ⟨_, ?_, ⟨_, happ.1, ?_⟩, happ.2⟩
  · rw [signLocate, if_pos rfl, hadd]
    rfl
  · rw [List.map_append]
    rfl

theorem signLocate_find (hp : Has pkt ps) :
    signLocate h false pkt = .ok (msgAuthrOffset ps) pkt := by
  rw [signLocate, if_neg (by decide), msgAuthrOffset]
  cases hloc : locate typeMsgAuthentic ps with
  | none => rw [hp.find_none hloc]
  | some r => rw [hp.find_some hloc]

/-- The Message-Authenticator of a packet with the attributes `qs`. -/
def mac (pkt authenticator : List Byte) (qs : List (Byte × List Byte)) : List Byte :=
  h.hmacMd5 key (pkt.take 4 ++ authenticator ++ encodePairs (setFirst typeMsgAuthentic zeros16 qs))

theorem take_four_splice {pkt bs : List Byte} {pos : Nat} (hpos : 4 ≤ pos)
    (hfit : pos + bs.length ≤ pkt.length) : (splice pkt pos bs).take 4 = pkt.take 4 := by
  have hsame := take_drop_splice_of_disjoint (q := 0) (n := 4) hfit (.inl (by omega))
  rwa [List.drop_zero, List.drop_zero] at hsame

theorem signMac_ok (hp : Has pkt ps) (hfit : ∀ r ∈ locate typeMsgAuthentic ps, r.2.length = 16) :
    ∃ p3, StateErr.onlyIf (msgAuthrOffset ps ≠ 0)
        (msgAuthenticatorUpdate h (msgAuthrOffset ps) key true none) pkt = .ok () p3 ∧
      Has p3 (setFirst typeMsgAuthentic (mac h key pkt (pktAuthenticator pkt) ps) ps) ∧
      SameHead pkt p3 ∧ p3.take 4 = pkt.take 4 := by
  rw [StateErr.onlyIf_apply, msgAuthrOffset]
  cases hloc : locate typeMsgAuthentic ps with
  | none =>
    rw [setFirst_of_none _ hloc]
    exact ⟨pkt, rfl, hp, SameHead.refl pkt, rfl⟩
  | some r =>
    rcases r with ⟨off, data⟩
    have hdata : data.length = 16 := hfit (off, data) hloc
    rcases hp.located hloc with ⟨hget, htype, hlen, -, hend⟩
    have hne : hdrSize + off ≠ 0 := by
      unfold hdrSize
      omega
    have hmac : (mac h key pkt (pktAuthenticator pkt) ps).length = data.length := by
      rw [mac, h.length_hmacMd5, hdata]
    have hset := hp.set_first hloc hmac
    have hroom := hp.room
    refine ⟨_, ?_, hset.1, hset.2, take_four_splice (by unfold hdrSize; omega) (by omega)⟩
    have hattr : msgAuthenticatorAttr pkt (hdrSize + off) = .ok (hdrSize + off) := by
      rw [msgAuthenticatorAttr, if_pos hne, hget]
      simp only [htype, ne_eq, not_true, if_false]
    have hcalc : msgAuthenticatorCalc h pkt (hdrSize + off) key true none =
        .ok (mac h key pkt (pktAuthenticator pkt) ps) := by
      rw [msgAuthenticatorCalc, if_neg (by rw [hlen, hdata]; decide), countedAuthenticator,
        if_pos (.inl rfl), mac]
      simp only [hp.msgAuthenticatorBytes_eq hloc hdata]
    simp only [if_pos hne, msgAuthenticatorUpdate, hattr, hcalc]

/-! ## The authenticator -/

theorem Has.set_authenticator (hp : Has pkt ps) {auth : List Byte} (hauth : auth.length = 16) :
    Has (splice pkt 4 auth) ps ∧ pktCode (splice pkt 4 auth) = pktCode pkt ∧
      pktAuthenticator (splice pkt 4 auth) = auth ∧ (splice pkt 4 auth).take 4 = pkt.take 4 := by
  have hle := hp.hdr_le
  unfold hdrSize at hle
  have hfit : 4 + auth.length ≤ pkt.length := by omega
  have hplen : pktLen (splice pkt 4 auth) = pktLen pkt := by
    rw [pktLen, getBe16_splice hfit (.inl (by omega)), pktLen]
  have hauth' : pktAuthenticator (splice pkt 4 auth) = auth := by
    have h := take_drop_splice hfit
    rw [hauth] at h
    exact h
  refine ⟨?_, ?_, hauth', take_four_splice (Nat.le_refl 4) hfit⟩
  · rcases hp with ⟨as, hold, rfl⟩
    refine ⟨as, ⟨by rw [hplen]; exact hold.len, ?_, ?_⟩, rfl⟩
    · rw [hplen, length_splice hfit]
      exact hold.room
    · exact hold.attrs.frame hfit (.inr (by rw [hauth]; decide))
  · rw [pktCode, byteAt_splice hfit (.inl (by omega)), pktCode]

def signedAuthenticator (pkt authenticator : List Byte) (ps : List (Byte × List Byte)) : List Byte :=
  if pktCode pkt ∈ randomCodes then authenticator
  else h.md5 (pkt.take 4 ++ authenticator ++ encodePairs ps ++ key)

theorem authenticatorUpdate_ok (hp : Has pkt ps) :
    ∃ p4, authenticatorUpdate h key true none pkt = .ok () p4 ∧ Has p4 ps ∧
      pktCode p4 = pktCode pkt ∧ p4.take 4 = pkt.take 4 ∧
      pktAuthenticator p4 = signedAuthenticator h key pkt (pktAuthenticator pkt) ps := by
  unfold authenticatorUpdate signedAuthenticator
  by_cases hrnd : pktCode pkt ∈ randomCodes
  · rw [if_pos hrnd, if_pos hrnd]
    exact ⟨pkt, rfl, hp, rfl, rfl, rfl⟩
  · rw [if_neg hrnd, if_neg hrnd, authenticatorCalc, if_neg hrnd, if_pos rfl, hp.take_pktLen]
    rcases hp.set_authenticator (h.length_md5 (pkt.take 4 ++ pktAuthenticator pkt ++ encodePairs ps ++
      key)) with ⟨hhas, hcode, hauth, hfour⟩
    exact ⟨_, rfl, hhas, hcode, hfour, hauth⟩

/-! ## A packet that was signed -/

/-- What `radius_pkt_sign` needs. -/
def Signable (pkt : List Byte) (addMsgAuthr : Bool) (ps : List (Byte × List Byte)) : Prop :=
  PasswordFits ps ∧ MsgAuthrFits pkt addMsgAuthr ps

def toSign (authenticator : List Byte) (addMsgAuthr : Bool) (ps : List (Byte × List Byte)) :
    List (Byte × List Byte) :=
  withMsgAuthr addMsgAuthr (hidden h key authenticator ps)

/-- `pkt'` is a packet with the attributes `qs` that was signed while its authenticator was `auth`. -/
structure Signed (auth : List Byte) (qs : List (Byte × List Byte)) (pkt' : List Byte) : Prop where
  has : Has pkt' (setFirst typeMsgAuthentic (mac h key pkt' auth qs) qs)
  authenticator : pktAuthenticator pkt' = signedAuthenticator h key pkt' auth
    (setFirst typeMsgAuthentic (mac h key pkt' auth qs) qs)

theorem locate_hidden {type : Byte} (hne : type ≠ typeUserPassword) (hfit : PasswordFits ps)
    (auth : List Byte) : locate type (hidden h key auth ps) = locate type ps := by
  unfold hidden
  cases hloc : locate typeUserPassword ps with
  | none => rfl
  | some r =>
    have hr := hfit r hloc
    apply locate_setFirst_ne hne.symm
    intro r' hr'
    rw [← Option.some.inj (hloc.symm.trans hr'), length_encodeBlocks h key _ _ _ (by omega)]
    omega

theorem msgAuthr_length {addMsgAuthr : Bool} (hfit : MsgAuthrFits pkt addMsgAuthr ps) :
    ∀ r ∈ locate typeMsgAuthentic (withMsgAuthr addMsgAuthr ps), r.2.length = 16 := by
  cases addMsgAuthr with
  | false => exact hfit
  | true =>
    intro r hr
    rw [withMsgAuthr, if_pos rfl, locate_append_self zeros16 hfit.1] at hr
    rw [← Option.some.inj hr]
    rfl

theorem length_encodePairs_setFirst {type : Byte} {data : List Byte} :
    ∀ {ps : List (Byte × List Byte)}, (∀ r ∈ locate type ps, r.2.length = data.length) →
    (encodePairs (setFirst type data ps)).length = (encodePairs ps).length
  | [], _ => rfl
  | (t, d) :: ps, hlen => by
    by_cases ht : t = type
    · have hd : d.length = data.length := hlen (0, d) (by rw [locate, if_pos ht]; rfl)
      rw [setFirst, if_pos ht, length_encodePairs_cons, length_encodePairs_cons, hd]
    · have hrest : ∀ r ∈ locate type ps, r.2.length = data.length := by
        intro r hr
        rw [locate, if_neg ht, Option.mem_def.mp hr] at hlen
        exact hlen (2 + d.length + r.1, r.2) rfl
      rw [setFirst, if_neg ht, length_encodePairs_cons, length_encodePairs_cons,
        length_encodePairs_setFirst hrest]

theorem length_encodePairs_hidden (hfit : PasswordFits ps) (auth : List Byte) :
    (encodePairs (hidden h key auth ps)).length = (encodePairs ps).length := by
  unfold hidden
  cases hloc : locate typeUserPassword ps with
  | none => rfl
  | some r =>
    have hr := hfit r hloc
    apply length_encodePairs_setFirst
    intro r' hr'
    rw [← Option.some.inj (hloc.symm.trans hr'), length_encodeBlocks h key _ _ _ (by omega)]
    omega

theorem msgAuthrFits_hidden {p1 : List Byte} {addMsgAuthr : Bool} {auth : List Byte} (hp : Has pkt ps)
    (hfit : PasswordFits ps) (hp1 : Has p1 (hidden h key auth ps)) (hhead : SameHead pkt p1) :
    MsgAuthrFits p1 addMsgAuthr (hidden h key auth ps) ↔ MsgAuthrFits pkt addMsgAuthr ps := by
  have hlen : pktLen p1 = pktLen pkt := by
    rw [hp1.len, hp.len, length_encodePairs_hidden h key hfit]
  unfold MsgAuthrFits
  rw [locate_hidden h key (show typeMsgAuthentic ≠ typeUserPassword by decide) hfit, hlen,
    hhead.length]

theorem signLocate_ok {addMsgAuthr : Bool} (hp : Has pkt ps)
    (hfit : MsgAuthrFits pkt addMsgAuthr ps) :
    ∃ p2, signLocate h addMsgAuthr pkt = .ok (msgAuthrOffset (withMsgAuthr addMsgAuthr ps)) p2 ∧
      Has p2 (withMsgAuthr addMsgAuthr ps) ∧ SameHead pkt p2 := by
  cases addMsgAuthr with
  | false => exact ⟨pkt, signLocate_find h hp, hp, SameHead.refl pkt⟩
  | true =>
    have hoff : msgAuthrOffset (withMsgAuthr true ps) = pktLen pkt := by
      rw [msgAuthrOffset, withMsgAuthr, if_pos rfl, locate_append_self zeros16 hfit.1, hp.len]
    rw [hoff]
    exact signLocate_add h hp hfit.1 hfit.2.1 hfit.2.2

theorem sign_ok {addMsgAuthr : Bool} (hp : Has pkt ps) (hfit : Signable pkt addMsgAuthr ps) :
    ∃ pkt', pktSign h key addMsgAuthr pkt = .ok (pktLen pkt') pkt' ∧ pktCode pkt' = pktCode pkt ∧
      Signed h key (pktAuthenticator pkt) (toSign h key (pktAuthenticator pkt) addMsgAuthr ps) pkt' := by
  rcases signPassword_ok h key hp hfit.1 with ⟨p1, hpw, hp1, head1⟩
  have hfit1 := (msgAuthrFits_hidden h key hp hfit.1 hp1 head1).mpr hfit.2
  rcases signLocate_ok h hp1 hfit1 with ⟨p2, hloc, hp2, head2⟩
  rcases signMac_ok h key hp2 (msgAuthr_length hfit1) with ⟨p3, hmac, hp3, head3, four3⟩
  rcases authenticatorUpdate_ok h key hp3 with ⟨p4, hupd, hp4, code4, four4, auth4⟩
  -- the authenticator is the same up to the last step
  have hauth2 : pktAuthenticator p2 = pktAuthenticator pkt :=
    (head1.trans head2).authenticator
  have hauth3 : pktAuthenticator p3 = pktAuthenticator pkt := head3.authenticator.trans hauth2
  have hcode : pktCode p4 = pktCode p3 := code4
  have hmac4 : mac h key p2 (pktAuthenticator p2) (withMsgAuthr addMsgAuthr
      (hidden h key (pktAuthenticator pkt) ps)) = mac h key p4 (pktAuthenticator pkt)
      (toSign h key (pktAuthenticator pkt) addMsgAuthr ps) := by
    rw [mac, mac, hauth2, four4, four3, toSign]
  rw [hmac4] at hp3 hp4 auth4
  refine ⟨p4, ?_, ?_, hp4, ?_⟩
  · rw [pktSign_eq, StateErr.bind_of_ok hpw, StateErr.bind_of_ok hloc, StateErr.bind_of_ok hmac,
      StateErr.bind_of_ok hupd]
    rfl
  · rw [code4]
    exact (head1.trans (head2.trans head3)).code
  · rw [auth4, hauth3, signedAuthenticator, signedAuthenticator, hcode, four4]
    rfl

theorem signMac_error (hp : Has pkt ps) {r : Nat × List Byte}
    (hloc : locate typeMsgAuthentic ps = some r) (hlen : r.2.length ≠ 16) :
    StateErr.onlyIf (msgAuthrOffset ps ≠ 0)
      (msgAuthenticatorUpdate h (msgAuthrOffset ps) key true none) pkt = .error .ebadmsg pkt := by
  rcases r with ⟨off, data⟩
  rcases hp.located hloc with ⟨hget, htype, halen, -, -⟩
  have hne : hdrSize + off ≠ 0 := by
    unfold hdrSize
    omega
  have hattr : msgAuthenticatorAttr pkt (hdrSize + off) = .ok (hdrSize + off) := by
    rw [msgAuthenticatorAttr, if_pos hne, hget]
    simp only [htype, ne_eq, not_true, if_false]
  have hcalc : msgAuthenticatorCalc h pkt (hdrSize + off) key true none = .error (.ebadmsg, none) := by
    have hne18 : 2 + data.length ≠ 18 := by
      intro heq
      apply hlen
      show data.length = 16
      omega
    rw [msgAuthenticatorCalc, halen, if_pos hne18]
  rw [StateErr.onlyIf_apply, msgAuthrOffset, hloc]
  simp only [if_pos hne, msgAuthenticatorUpdate, hattr, hcalc]

theorem signMac_wrap (hp : Has pkt ps) (hno : locate typeMsgAuthentic ps = none)
    (hroom : pktLen pkt + 18 ≤ pkt.length) (hlen : ¬ pktLen pkt + 18 < 2 ^ 16) :
    ∃ p2, signLocate h true pkt = .ok (pktLen pkt) p2 ∧
      StateErr.onlyIf (pktLen pkt ≠ 0) (msgAuthenticatorUpdate h (pktLen pkt) key true none) p2 =
        .error .einval p2 := by
  have hplen := hp.len
  have hlt := pktLen_lt pkt
  rcases hp with ⟨as, hold, rfl⟩
  have hadd := attrAdd_msgAuthentic h 0#8 none hold
  rw [if_pos (locate_none_iff.mp hno), if_neg (by omega)] at hadd
  have hshort := pktLen_appended_wrap hold typeMsgAuthentic (show zeros16.length ≤ _ by decide) hroom
    hlen
  have hzeros : zeros16.length = 16 := rfl
  rw [hzeros] at hshort
  refine ⟨appended pkt typeMsgAuthentic 16#8 zeros16, ?_, ?_⟩
  · rw [signLocate, if_pos rfl, hadd]
    rfl
  · have hattr : msgAuthenticatorAttr (appended pkt typeMsgAuthentic 16#8 zeros16) (pktLen pkt) =
        .error .einval := by
      rw [msgAuthenticatorAttr, if_pos (by unfold hdrSize at hplen; omega), attrGetFromOffset, if_pos]
      right
      show pktLen (appended pkt typeMsgAuthentic (BitVec.ofNat 8 16) zeros16) < _
      omega
    rw [StateErr.onlyIf_apply, if_pos (by unfold hdrSize at hplen; omega), msgAuthenticatorUpdate,
      hattr]

theorem sign_error {addMsgAuthr : Bool} (hp : Has pkt ps) (hfit : ¬ Signable pkt addMsgAuthr ps) :
    ∃ e pkt', pktSign h key addMsgAuthr pkt = .error e pkt' := by
  rw [pktSign_eq]
  by_cases hpwfit : PasswordFits ps
  · rcases signPassword_ok h key hp hpwfit with ⟨p1, hpw, hp1, head1⟩
    rw [StateErr.bind_of_ok hpw]
    have hfit1 : ¬ MsgAuthrFits p1 addMsgAuthr (hidden h key (pktAuthenticator pkt) ps) := by
      rw [msgAuthrFits_hidden h key hp hpwfit hp1 head1]
      exact fun hma => hfit ⟨hpwfit, hma⟩
    generalize hidden h key (pktAuthenticator pkt) ps = qs at hp1 hfit1
    cases addMsgAuthr with
    | false =>
      rw [StateErr.bind_of_ok (signLocate_find h hp1)]
      rw [MsgAuthrFits, if_neg (by decide)] at hfit1
      cases hloc : locate typeMsgAuthentic qs with
      | none =>
        rw [hloc] at hfit1
        exact absurd (fun r hr => by cases hr) hfit1
      | some r =>
        have hlen : r.2.length ≠ 16 := by
          intro heq
          rw [hloc] at hfit1
          exact hfit1 fun r' hr' => (Option.some.inj hr') ▸ heq
        exact ⟨_, _, StateErr.bind_of_error (signMac_error h key hp1 hloc hlen) _⟩
    | true =>
      rw [MsgAuthrFits, if_pos rfl] at hfit1
      -- with no attribute yet one is added, and its length may wrap or have no room; a second one is refused
      by_cases hno : locate typeMsgAuthentic qs = none
      · by_cases hroom : pktLen p1 + 18 ≤ p1.length
        · rcases signMac_wrap h key hp1 hno hroom (fun hlen => hfit1 ⟨hno, hroom, hlen⟩) with
            ⟨p2, hloc, hmac⟩
          rw [StateErr.bind_of_ok hloc]
          exact ⟨_, _, StateErr.bind_of_error hmac _⟩
        · rcases hp1 with ⟨as, hold, rfl⟩
          have hadd := attrAdd_msgAuthentic h 0#8 none hold
          rw [if_pos (locate_none_iff.mp hno), if_pos (by omega)] at hadd
          refine ⟨.eoverflow, p1, StateErr.bind_of_error ?_ _⟩
          rw [signLocate, if_pos rfl, hadd]
          rfl
      · rcases hp1 with ⟨as, hold, rfl⟩
        have hadd := attrAdd_msgAuthentic h 0#8 none hold
        rw [if_neg (fun hall => hno (locate_none_iff.mpr hall))] at hadd
        refine ⟨.eexist, p1, StateErr.bind_of_error ?_ _⟩
        rw [signLocate, if_pos rfl, hadd]
        rfl
  · rcases signPassword_error h key hp hpwfit with ⟨e, he⟩
    exact ⟨e, pkt, StateErr.bind_of_error he _⟩

theorem sign_cases {addMsgAuthr : Bool} (hp : Has pkt ps) {n : Nat} {pkt' : List Byte}
    (hsign : pktSign h key addMsgAuthr pkt = .ok n pkt') :
    Signable pkt addMsgAuthr ps ∧ pktCode pkt' = pktCode pkt ∧
      Signed h key (pktAuthenticator pkt) (toSign h key (pktAuthenticator pkt) addMsgAuthr ps) pkt' := by
  by_cases hfit : Signable pkt addMsgAuthr ps
  · rcases sign_ok h key hp hfit with ⟨p', hok, hcode, hsigned⟩
    rw [hsign] at hok
    cases hok
    exact ⟨hfit, hcode, hsigned⟩
  · rcases sign_error h key hp hfit with ⟨e, p', herr⟩
    rw [hsign] at herr
    cases herr

end Radius
