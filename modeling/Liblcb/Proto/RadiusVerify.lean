import Liblcb.Proto.RadiusSign

/-!
# Verified RADIUS packets

`radius_pkt_verify` of a packet that `radius_pkt_sign` has signed.
-/

namespace Radius

open Mem Wire Buffer

variable (h : Hashes) (key : List Byte) {pkt pkt' auth : List Byte} {ps qs : List (Byte × List Byte)}

/-- The check of the Message-Authenticator, as `radius_pkt_verify` makes it. -/
def verifyMac (req : Option (List Byte)) (pkt : List Byte) : Except Errno Unit :=
  match attrFind pkt 0 typeMsgAuthentic with
  | .error _ => .ok ()
  | .ok offset => msgAuthenticatorChk h pkt offset key false req

theorem verifyMac_eq (hs : Signed h key auth qs pkt') (req : Option (List Byte)) :
    verifyMac h key req pkt' =
      if locate typeMsgAuthentic qs = none then .ok ()
      else
        match countedAuthenticator pkt' false req with
        | .bytes auth' =>
          if mac h key pkt' auth qs ≠ mac h key pkt' auth' qs then .error .ebadmsg else .ok ()
        | .noRequest => .error .einval
        | .badCode => .error .ebadmsg := by
  unfold verifyMac
  have hself := locate_setFirst_self typeMsgAuthentic (mac h key pkt' auth qs) qs
  cases hloc : locate typeMsgAuthentic qs with
  | none =>
    rw [hloc] at hself
    rw [hs.has.find_none hself, if_pos rfl]
  | some r =>
    rw [hloc] at hself
    have hmac : (mac h key pkt' auth qs).length = 16 := h.length_hmacMd5 _ _
    rcases hs.has.located hself with ⟨hget, htype, halen, hdata, -⟩
    have hne : hdrSize + r.1 ≠ 0 := by
      unfold hdrSize
      omega
    have hattr : msgAuthenticatorAttr pkt' (hdrSize + r.1) = .ok (hdrSize + r.1) := by
      rw [msgAuthenticatorAttr, if_pos hne, hget]
      simp only [htype, ne_eq, not_true, if_false]
    have hstored : (pkt'.drop (hdrSize + r.1 + 2)).take 16 = mac h key pkt' auth qs := by
      rw [attrData, halen, hmac] at hdata
      exact hdata
    have hbytes := hs.has.msgAuthenticatorBytes_eq hself hmac
    simp only [setFirst_setFirst_self] at hbytes
    rw [hs.has.find_some hself, if_neg (by simp)]
    simp only [msgAuthenticatorChk, hattr, bind, Except.bind]
    rw [msgAuthenticatorCalc, if_neg (by rw [halen, hmac]; decide)]
    cases countedAuthenticator pkt' false req with
    | bytes auth' =>
      simp only [hbytes, hstored, mac]
      rfl
    | noRequest => rfl
    | badCode => rfl

def checkedAuthenticator (code : Byte) (req : Option (List Byte)) : Option (List Byte) :=
  if code ∈ zeroCodes then some zeros16
  else if code ∈ replyCodes ∨ code = accountingResponse then req.map pktAuthenticator
  else none

theorem authenticatorChk_eq (hs : Signed h key auth qs pkt') (req : Option (List Byte)) :
    authenticatorChk h pkt' key false req =
      if pktCode pkt' ∈ randomCodes then .ok ()
      else
        match checkedAuthenticator (pktCode pkt') req with
        | none => .error .einval
        | some auth' =>
          let rs := setFirst typeMsgAuthentic (mac h key pkt' auth qs) qs
          if h.md5 (pkt'.take 4 ++ auth ++ encodePairs rs ++ key) ≠
            h.md5 (pkt'.take 4 ++ auth' ++ encodePairs rs ++ key) then .error .ebadmsg else .ok () := by
  unfold authenticatorChk
  by_cases hrnd : pktCode pkt' ∈ randomCodes
  · rw [if_pos hrnd, if_pos hrnd]
  · have hauth := hs.authenticator
    rw [signedAuthenticator, if_neg hrnd] at hauth
    simp only [if_neg hrnd, authenticatorCalc, checkedAuthenticator, Bool.false_eq_true, if_false,
      hs.has.attrs_bytes, hauth]
    by_cases hzero : pktCode pkt' ∈ zeroCodes
    · simp only [if_pos hzero]
    · simp only [if_neg hzero]
      by_cases hreply : pktCode pkt' ∈ replyCodes ∨ pktCode pkt' = accountingResponse
      · simp only [if_pos hreply]
        cases req <;> rfl
      · simp only [if_neg hreply]

/-! ## The password -/

theorem locate_append_ne {type type' : Byte} (hne : type' ≠ type) (data : List Byte) :
    ∀ (ps : List (Byte × List Byte)), locate type (ps ++ [(type', data)]) = locate type ps
  | [] => by
    show locate type [(type', data)] = none
    rw [locate, if_neg hne]
    rfl
  | (t, d) :: ps => by
    rw [List.cons_append, locate, locate, locate_append_ne hne data ps]

theorem locate_withMsgAuthr (addMsgAuthr : Bool) (ps : List (Byte × List Byte)) :
    locate typeUserPassword (withMsgAuthr addMsgAuthr ps) = locate typeUserPassword ps := by
  cases addMsgAuthr with
  | false => rfl
  | true => exact locate_append_ne (by decide) zeros16 ps

theorem setFirst_withMsgAuthr (addMsgAuthr : Bool) (data : List Byte)
    (hloc : locate typeUserPassword ps ≠ none) :
    setFirst typeUserPassword data (withMsgAuthr addMsgAuthr ps) =
      withMsgAuthr addMsgAuthr (setFirst typeUserPassword data ps) := by
  cases addMsgAuthr with
  | false => rfl
  | true => exact setFirst_append data _ hloc

theorem toSign_msgAuthr {addMsgAuthr : Bool} (hfit : Signable pkt addMsgAuthr ps) :
    ∀ r ∈ locate typeMsgAuthentic (toSign h key auth addMsgAuthr ps), r.2.length = 16 := by
  have hne : typeMsgAuthentic ≠ typeUserPassword := by decide
  intro r hr
  rw [toSign] at hr
  cases addMsgAuthr with
  | false =>
    rw [withMsgAuthr, if_neg (by decide), locate_hidden h key hne hfit.1] at hr
    exact hfit.2 r hr
  | true =>
    have hno : locate typeMsgAuthentic (hidden h key auth ps) = none := by
      rw [locate_hidden h key hne hfit.1]
      exact hfit.2.1
    rw [withMsgAuthr, if_pos rfl, locate_append_self zeros16 hno] at hr
    rw [← Option.some.inj hr]
    rfl

/-- The last step of `radius_pkt_verify`. -/
def verifyPassword (pkt : List Byte) : EStateM.Result Errno (List Byte) Unit :=
  match attrFind pkt 0 typeUserPassword with
  | .error _ => .ok () pkt
  | .ok attr =>
    match passwordDecode h (pktAuthenticator pkt) (attrData pkt attr) key with
    | .error e => .error e pkt
    | .ok buf => .ok () (splice pkt (attr + 2) buf)

theorem verifyPassword_located {addMsgAuthr : Bool} (hfit : Signable pkt addMsgAuthr ps)
    (hs : Signed h key auth (toSign h key auth addMsgAuthr ps) pkt') {off : Nat} {data : List Byte}
    (hloc : locate typeUserPassword ps = some (off, data)) :
    ∃ pkt'' m, verifyPassword h key pkt' = .ok () pkt'' ∧
      Has pkt'' (setFirst typeMsgAuthentic m (withMsgAuthr addMsgAuthr (setFirst typeUserPassword
        (decodeBlocks h key (data.length / 16) (pktAuthenticator pkt')
          (encodeBlocks h key (data.length / 16) auth data)) ps))) := by
  have hmac : ∀ r ∈ locate typeMsgAuthentic (toSign h key auth addMsgAuthr ps),
      r.2.length = (mac h key pkt' auth (toSign h key auth addMsgAuthr ps)).length := by
    intro r hr
    rw [toSign_msgAuthr h key hfit r hr, mac, h.length_hmacMd5]
  have hfind := locate_setFirst_ne (show typeMsgAuthentic ≠ typeUserPassword by decide) _ _ hmac
  have hhas := hs.has
  generalize mac h key pkt' auth (toSign h key auth addMsgAuthr ps) = m at hfind hhas
  have hdata : data.length ≠ 0 ∧ data.length ≤ userPasswordMaxLen ∧ data.length % 16 = 0 :=
    hfit.1 (off, data) hloc
  have hsize : data.length = 16 * (data.length / 16) := by omega
  have hhid : hidden h key auth ps =
      setFirst typeUserPassword (encodeBlocks h key (data.length / 16) auth data) ps := by
    rw [hidden, hloc]
  have henc : (encodeBlocks h key (data.length / 16) auth data).length = data.length := by
    rw [length_encodeBlocks h key _ _ _ hsize]
    omega
  rw [toSign, locate_withMsgAuthr, hhid, locate_setFirst_self, hloc, Option.map_some] at hfind
  rw [toSign, hhid] at hhas
  generalize encodeBlocks h key (data.length / 16) auth data = enc at *
  -- what is shown is as long as what was hidden, so it goes into the same attribute
  have hdec : (decodeBlocks h key (data.length / 16) (pktAuthenticator pkt') enc).length =
      enc.length := by
    rw [length_decodeBlocks h key _ _ _ (by omega)]
    omega
  rcases hhas.located hfind with ⟨-, -, -, hbytes, -⟩
  unfold verifyPassword
  rw [hhas.find_some hfind]
  simp only [hbytes, passwordDecode, henc]
  rw [if_neg (by omega)]
  refine ⟨_, m, rfl, ?_⟩
  have hset := (hhas.set_first hfind hdec).1
  rw [setFirst_comm (by decide), setFirst_withMsgAuthr, setFirst_setFirst_self] at hset
  · exact hset
  · rw [locate_setFirst_self, hloc]
    exact Option.some_ne_none _

theorem verifyPassword_ok {addMsgAuthr : Bool} (hfit : Signable pkt addMsgAuthr ps)
    (hs : Signed h key auth (toSign h key auth addMsgAuthr ps) pkt')
    (hauth : locate typeUserPassword ps ≠ none → pktAuthenticator pkt' = auth) :
    ∃ pkt'' m, verifyPassword h key pkt' = .ok () pkt'' ∧
      Has pkt'' (setFirst typeMsgAuthentic m (withMsgAuthr addMsgAuthr ps)) := by
  cases hloc : locate typeUserPassword ps with
  | none =>
    have hmac : ∀ r ∈ locate typeMsgAuthentic (toSign h key auth addMsgAuthr ps),
        r.2.length = (mac h key pkt' auth (toSign h key auth addMsgAuthr ps)).length := by
      intro r hr
      rw [toSign_msgAuthr h key hfit r hr, mac, h.length_hmacMd5]
    have hfind := locate_setFirst_ne (show typeMsgAuthentic ≠ typeUserPassword by decide) _ _ hmac
    have hhas := hs.has
    have hhid : hidden h key auth ps = ps := by
      rw [hidden, hloc]
    rw [toSign, hhid] at hhas hfind
    rw [locate_withMsgAuthr, hloc] at hfind
    unfold verifyPassword
    rw [hhas.find_none hfind]
    exact ⟨pkt', _, rfl, hhas⟩
  | some r =>
    rcases r with ⟨off, data⟩
    have hdata : data.length ≠ 0 ∧ data.length ≤ userPasswordMaxLen ∧ data.length % 16 = 0 :=
      hfit.1 (off, data) hloc
    rcases verifyPassword_located h key hfit hs hloc with ⟨pkt'', m, hok, hhas⟩
    rw [hauth (by rw [hloc]; exact Option.some_ne_none _),
      decode_encodeBlocks h key _ auth data (by omega),
      show setFirst typeUserPassword data ps = ps from setFirst_located hloc] at hhas
    exact ⟨pkt'', m, hok, hhas⟩

theorem pktVerify_eq (req : Option (List Byte)) :
    pktVerify h key req pkt =
      match verifyMac h key req pkt, authenticatorChk h pkt key false req with
      | .error e, _ => .error e pkt
      | .ok (), .error e => .error e pkt
      | .ok (), .ok () => verifyPassword h key pkt := rfl

/-! ## Signing and verifying -/

/-- A packet that `radius_pkt_init` has started and that was given the attributes `ps`. -/
structure Built (code : Byte) (authenticator : Option (List Byte)) (pkt : List Byte)
    (ps : List (Byte × List Byte)) : Prop where
  started : ∃ id buf pkt0, pktInit code id authenticator buf = .ok () pkt0 ∧
    pktCode pkt = pktCode pkt0 ∧ pktAuthenticator pkt = pktAuthenticator pkt0
  has : Has pkt ps

/-- What `radius_pkt_sign` makes is accepted, and the attributes are those that were signed. -/
def Agree (addMsgAuthr : Bool) (req : Option (List Byte)) (pkt : List Byte)
    (ps : List (Byte × List Byte)) : Prop :=
  ∀ n pkt', pktSign h key addMsgAuthr pkt = .ok n pkt' →
    ∃ pkt'' m, pktVerify h key req pkt' = .ok () pkt'' ∧
      walk pkt'' = .ok (setFirst typeMsgAuthentic m (withMsgAuthr addMsgAuthr ps))

theorem Built.head {code : Byte} {authenticator : Option (List Byte)}
    (hb : Built code authenticator pkt ps) :
    pktCode pkt = code ∧ ∃ auth, initAuthenticator code authenticator = .ok auth ∧
      (auth.length = 16 → pktAuthenticator pkt = auth) := by
  rcases hb.started with ⟨id, buf, pkt0, hinit, hcode, hsame⟩
  rw [hcode, hsame]
  rw [pktInit] at hinit
  split at hinit
  · cases hinit
  next hbuf =>
  split at hinit
  · cases hinit
  next auth hauth =>
  have hpkt := (EStateM.Result.ok.inj hinit).2
  unfold hdrSize at hbuf
  have hle : (auth.take 16).length ≤ 16 := List.length_take_le 16 auth
  have hlen1 : (splice buf 4 (auth.take 16)).length = buf.length := length_splice (by omega)
  have hfit2 : 0 + ([code, id] : List Byte).length ≤ (splice buf 4 (auth.take 16)).length := by
    rw [hlen1]
    show 0 + 2 ≤ buf.length
    omega
  have hlen2 : (splice (splice buf 4 (auth.take 16)) 0 [code, id]).length = buf.length := by
    rw [length_splice hfit2, hlen1]
  have hset := setPktLen_head (show hdrSize ≤ _ by rw [hlen2]; unfold hdrSize; omega)
    (show hdrSize < 2 ^ 16 by decide)
  rw [← hpkt, hset.1.code, hset.1.authenticator]
  refine ⟨(At.splice hfit2).byteAt_eq, auth, hauth, ?_⟩
  intro h16
  rw [pktAuthenticator, take_drop_splice_of_disjoint hfit2 (.inr (by show 0 + 2 ≤ 4; omega))]
  rw [List.take_of_length_le (Nat.le_of_eq h16)]
  have hfit : 4 + auth.length ≤ buf.length := by omega
  have h := take_drop_splice hfit
  rw [h16] at h
  exact h

/-- Digests that show the authenticator: the sixteen bytes behind the first four. -/
def headHashes : Hashes where
  md5 m := (m.drop 4 ++ zeros16).take 16
  hmacMd5 _ m := (m.drop 4 ++ zeros16).take 16
  length_md5 m := by
    rw [List.length_take, List.length_append, show zeros16.length = 16 from rfl]
    omega
  length_hmacMd5 _ m := by
    rw [List.length_take, List.length_append, show zeros16.length = 16 from rfl]
    omega

theorem head_bytes {four auth rest : List Byte} (hfour : four.length = 4) (hauth : auth.length = 16) :
    ((four ++ auth ++ rest).drop 4 ++ zeros16).take 16 = auth := by
  rw [List.append_assoc, List.drop_left' hfour, List.append_assoc, List.take_left' hauth]

theorem zero_code : ∀ c ∈ zeroCodes, c ∉ randomCodes ∧ c ≠ accountingResponse := by decide

/-- A reply is started with the authenticator of its request; an Accounting-Response may also be
started with none. -/
def RepliesTo (code : Byte) (authenticator req : Option (List Byte)) : Prop :=
  code ∈ replyCodes ∨ code = accountingResponse →
    ∃ r ∈ req, hdrSize ≤ r.length ∧ ∀ a ∈ authenticator, a = pktAuthenticator r

/-- The one code for which signer and verifier can count different authenticators.  The verifier
counts the authenticator of the request, but for the Message-Authenticator it counts zeros, unless
the request is a Status-Server. -/
def CountsSame (req : Option (List Byte)) (pkt : List Byte) (hasMac : Prop) : Prop :=
  pktCode pkt = accountingResponse → ∀ r ∈ req,
    pktAuthenticator pkt = pktAuthenticator r ∧
      (hasMac → pktCode r = statusServer ∨ pktAuthenticator pkt = zeros16)

/-- What the verifier counts of a signed packet. -/
theorem counts {code : Byte} {authenticator req : Option (List Byte)} {hasMac : Prop}
    (hb : Built code authenticator pkt ps) (hreq : RepliesTo code authenticator req)
    (hmatch : CountsSame req pkt hasMac) (hcode : pktCode pkt' = code)
    (hauth : code ∈ randomCodes → pktAuthenticator pkt' = pktAuthenticator pkt) :
    (hasMac → countedAuthenticator pkt' false req = .bytes (pktAuthenticator pkt)) ∧
      (code ∉ randomCodes → checkedAuthenticator code req = some (pktAuthenticator pkt)) := by
  rcases hb.head with ⟨hcode0, auth, hinit, hset⟩
  unfold countedAuthenticator checkedAuthenticator
  rw [hcode]
  unfold initAuthenticator at hinit
  by_cases hacct : code = accountingResponse
  -- the one code where the two are asked to be the same
  · rcases hreq (.inr hacct) with ⟨r, hr, hrlen, -⟩
    rcases hmatch (hcode0.trans hacct) r hr with ⟨hsame, hmac⟩
    rw [Option.mem_def.mp hr, hsame, hacct]
    refine ⟨fun hm => ?_, fun _ => rfl⟩
    rw [if_neg (by decide), if_pos rfl]
    by_cases hstatus : pktCode r = statusServer
    · simp only [if_pos hstatus]
    · simp only [if_neg hstatus]
      rw [← hsame, (hmac hm).resolve_left hstatus]
  · rw [if_neg hacct] at hinit
    by_cases hzero : code ∈ zeroCodes
    · rw [if_pos hzero] at hinit
      -- a request that is signed over zeros has been stored with them
      have hzeros : pktAuthenticator pkt = zeros16 := by
        rw [← Except.ok.inj hinit] at hset
        exact hset rfl
      rcases zero_code code hzero with ⟨hrnd, -⟩
      rw [hzeros]
      refine ⟨fun _ => ?_, fun _ => if_pos hzero⟩
      simp only [hrnd, Bool.false_eq_true, or_self, if_false, if_neg hacct, if_pos hzero]
    · rw [if_neg hzero] at hinit
      -- a random authenticator stays in the packet, that of a reply is the one of its request
      by_cases hrnd : code ∈ randomCodes
      · refine ⟨fun _ => ?_, fun hno => absurd hrnd hno⟩
        simp only [hrnd, or_true, if_true, hauth hrnd]
      · by_cases hreply : code ∈ replyCodes
        · rcases hreq (.inl hreply) with ⟨r, hr, hrlen, hra⟩
          rw [if_pos (.inr hreply)] at hinit
          have hsame : pktAuthenticator pkt = pktAuthenticator r := by
            cases authenticator with
            | none => cases hinit
            | some a =>
              rw [← Except.ok.inj hinit, hra a rfl] at hset
              exact hset (length_pktAuthenticator hrlen)
          rw [hsame, Option.mem_def.mp hr]
          refine ⟨fun _ => ?_, fun _ => ?_⟩
          · simp only [hrnd, Bool.false_eq_true, or_self, if_false, if_neg hacct, if_neg hzero,
              if_pos hreply]
          · rw [if_neg hzero, if_pos (.inl hreply)]
            rfl
        · rw [if_neg (by tauto)] at hinit
          cases hinit

theorem locate_toSign {addMsgAuthr : Bool} (hfit : PasswordFits ps) :
    locate typeMsgAuthentic (toSign h key auth addMsgAuthr ps) = none ↔
      locate typeMsgAuthentic (withMsgAuthr addMsgAuthr ps) = none := by
  have hhid := locate_hidden h key (show typeMsgAuthentic ≠ typeUserPassword by decide) hfit auth
  cases addMsgAuthr with
  | false =>
    show locate _ (hidden h key auth ps) = none ↔ _
    rw [hhid]
    rfl
  | true =>
    have hne : ∀ qs : List (Byte × List Byte),
        locate typeMsgAuthentic (withMsgAuthr true qs) ≠ none := by
      intro qs hno
      exact locate_eq_none_iff.mp hno _ (List.mem_append_right qs List.mem_cons_self) rfl
    exact ⟨fun hno => absurd hno (hne _), fun hno => absurd hno (hne _)⟩

theorem verify_ok {code : Byte} {authenticator req : Option (List Byte)} {addMsgAuthr : Bool}
    (hb : Built code authenticator pkt ps) (hreq : RepliesTo code authenticator req)
    (hpw : locate typeUserPassword ps ≠ none → code ∈ randomCodes)
    (hmatch : CountsSame req pkt (locate typeMsgAuthentic (withMsgAuthr addMsgAuthr ps) ≠ none))
    (hfit : Signable pkt addMsgAuthr ps) (hcode : pktCode pkt' = code)
    (hs : Signed h key (pktAuthenticator pkt) (toSign h key (pktAuthenticator pkt) addMsgAuthr ps)
      pkt') :
    ∃ pkt'' m, pktVerify h key req pkt' = .ok () pkt'' ∧
      walk pkt'' = .ok (setFirst typeMsgAuthentic m (withMsgAuthr addMsgAuthr ps)) := by
  have hauth : code ∈ randomCodes → pktAuthenticator pkt' = pktAuthenticator pkt := by
    intro hrnd
    rw [hs.authenticator, signedAuthenticator, hcode, if_pos hrnd]
  rcases counts hb hreq hmatch hcode hauth with ⟨hcounted, hchecked⟩
  have hmac : verifyMac h key req pkt' = .ok () := by
    rw [verifyMac_eq h key hs]
    by_cases hloc : locate typeMsgAuthentic (toSign h key (pktAuthenticator pkt) addMsgAuthr ps) = none
    · rw [if_pos hloc]
    · rw [if_neg hloc, hcounted (fun hno => hloc ((locate_toSign h key hfit.1).mpr hno))]
      simp only [ne_eq, not_true, if_false]
  have hchk : authenticatorChk h pkt' key false req = .ok () := by
    rw [authenticatorChk_eq h key hs, hcode]
    by_cases hrnd : code ∈ randomCodes
    · rw [if_pos hrnd]
    · rw [if_neg hrnd, hchecked hrnd]
      simp only [ne_eq, not_true, if_false]
  rcases verifyPassword_ok h key hfit hs (fun hloc => hauth (hpw hloc)) with ⟨pkt'', m, hok, hhas⟩
  refine ⟨pkt'', m, ?_, hhas.walk_eq⟩
  rw [pktVerify_eq, hmac, hchk]
  exact hok

/-- Digests that show the authenticator tell the two apart. -/
theorem counts_of_agree {code : Byte} {authenticator req : Option (List Byte)} {addMsgAuthr : Bool}
    (hb : Built code authenticator pkt ps) (hreq : RepliesTo code authenticator req)
    (hagree : Agree headHashes key addMsgAuthr req pkt ps) (hfit : Signable pkt addMsgAuthr ps) :
    CountsSame req pkt (locate typeMsgAuthentic (withMsgAuthr addMsgAuthr ps) ≠ none) := by
  intro hacct r hr
  rcases sign_ok headHashes key hb.has hfit with ⟨pkt', hsign, hcode, hs⟩
  rcases hagree _ pkt' hsign with ⟨pkt'', m, hverify, -⟩
  have hcode' : pktCode pkt' = accountingResponse := hcode.trans hacct
  rcases hreq (.inr (hb.head.1.symm.trans hacct)) with ⟨r', hr', hrlen, -⟩
  rw [hr, Option.mem_def, Option.some.injEq] at hr'
  subst hr'
  have hfour : (pkt'.take 4).length = 4 := by
    have hle := hs.has.hdr_le
    unfold hdrSize at hle
    rw [List.length_take]
    omega
  have hauth := hb.has.length_authenticator
  have hrauth := length_pktAuthenticator hrlen
  rw [pktVerify_eq] at hverify
  cases hmac : verifyMac headHashes key req pkt' with
  | error e =>
    rw [hmac] at hverify
    cases hverify
  | ok u =>
    cases hchk : authenticatorChk headHashes pkt' key false req with
    | error e =>
      rw [hmac, hchk] at hverify
      cases hverify
    | ok u =>
      rw [Option.mem_def.mp hr] at hmac hchk
      refine ⟨?_, fun hloc => ?_⟩
      -- the digests show what was counted: first that of the packet, then that of the attribute
      · rw [authenticatorChk_eq headHashes key hs, hcode', if_neg (by decide)] at hchk
        have hsame : pktAuthenticator pkt = pktAuthenticator r := by
          by_contra hne
          refine absurd hchk (ne_of_eq_of_ne (if_pos ?_) (by simp))
          simp only [headHashes, List.append_assoc (_ ++ _), head_bytes hfour hauth,
            head_bytes hfour hrauth]
          exact hne
        exact hsame
      · rw [verifyMac_eq headHashes key hs,
          if_neg (fun hno => hloc ((locate_toSign _ key hfit.1).mp hno)), countedAuthenticator, hcode',
          if_neg (by decide), if_pos rfl] at hmac
        by_cases hstatus : pktCode r = statusServer
        · exact .inl hstatus
        · right
          by_contra hne
          simp only [if_neg hstatus] at hmac
          refine absurd hmac (ne_of_eq_of_ne (if_pos ?_) (by simp))
          simp only [mac, headHashes, head_bytes hfour hauth, head_bytes hfour (show zeros16.length = 16 from rfl)]
          exact hne

/-- Signing and verifying agree, whatever the digests are, exactly when the verifier counts the
authenticator that was signed. -/
theorem sign_verify_iff {code : Byte} {authenticator req : Option (List Byte)} {pkt : List Byte}
    {ps : List (Byte × List Byte)} (hb : Built code authenticator pkt ps)
    (hreq : RepliesTo code authenticator req)
    (hpw : ∀ p ∈ ps, p.1 = typeUserPassword → code = accessRequest) (key : List Byte)
    (addMsgAuthr : Bool) :
    (∀ h : Hashes, Agree h key addMsgAuthr req pkt ps) ↔
      (Signable pkt addMsgAuthr ps →
        CountsSame req pkt (locate typeMsgAuthentic (withMsgAuthr addMsgAuthr ps) ≠ none)) := by
  constructor
  · intro hagree hfit
    exact counts_of_agree key hb hreq (hagree headHashes) hfit
  · intro hmatch h n pkt' hsign
    rcases sign_cases h key hb.has hsign with ⟨hfit, hcode, hs⟩
    refine verify_ok h key hb hreq ?_ (hmatch hfit) hfit (hcode.trans hb.head.1) hs
    intro hloc
    rw [ne_eq, locate_eq_none_iff] at hloc
    push Not at hloc
    rcases hloc with ⟨p, hp, htype⟩
    rw [hpw p hp htype]
    decide

/-- An Access-Request with a padded password, in a buffer of 64 bytes. -/
def passwordPkt : List Byte :=
  [1#8, 7#8, 0#8, 38#8] ++ zeros16 ++ [2#8, 18#8] ++ List.replicate 16 97#8 ++ List.replicate 26 0#8

theorem sign_verify_password :
    (∀ h : Hashes, Agree h [115#8] true none passwordPkt [(typeUserPassword, List.replicate 16 97#8)]) ∧
      Signable passwordPkt true [(typeUserPassword, List.replicate 16 97#8)] := by
  have hb : Built accessRequest (some zeros16) passwordPkt
      [(typeUserPassword, List.replicate 16 97#8)] := by
    refine ⟨⟨7#8, List.replicate 64 0#8, _, rfl, rfl, rfl⟩,
      [⟨typeUserPassword, List.replicate 16 97#8, by decide, by decide⟩], ⟨rfl, by decide, rfl⟩, rfl⟩
  have hfit : Signable passwordPkt true [(typeUserPassword, List.replicate 16 97#8)] := by
    refine ⟨?_, rfl, by decide, by decide⟩
    intro r hr
    rw [← Option.some.inj hr]
    decide
  refine ⟨(sign_verify_iff hb ?_ ?_ [115#8] true).mpr ?_, hfit⟩
  · intro hreply
    exact absurd hreply (by decide)
  · intro p _ _
    rfl
  · intro _ hacct
    exact absurd hacct (by decide)

/-- An Accounting-Request that was signed. -/
def acctRequest : List Byte := [4#8, 9#8, 0#8, 20#8] ++ List.replicate 16 1#8

/-- The reply `radius_pkt_reply_init` starts. -/
def acctReply : List Byte := [5#8, 9#8, 0#8, 20#8] ++ List.replicate 16 1#8 ++ List.replicate 44 0#8

/-- The reply is signed with a Message-Authenticator and refused. -/
theorem sign_verify_accounting :
    pktReplyInit accountingResponse acctRequest (List.replicate 64 0#8) = .ok () acctReply ∧
    ∃ pkt', pktSign headHashes [] true acctReply = .ok 38 pkt' ∧
      pktVerify headHashes [] (some acctRequest) pkt' = .error .ebadmsg pkt' :=
  ⟨rfl, _, rfl, rfl⟩

end Radius
