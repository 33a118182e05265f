import Liblcb.Proto.RadiusClient
import Liblcb.Proto.RadiusVerify

/-!
# Failover of the RADIUS client

When a query may be reported as failed, and what may have been sent by then.
-/

namespace Radius.Client

open Mem Wire Buffer

/-- The server with this index is enabled. -/
def IsEnabled (srvs : List Server) (i : Nat) : Prop := ∃ srv, srvs[i]? = some srv ∧ srv.enabled

/-- The server accepts the bytes as the request with the attributes `ps` and a Message-Authenticator. -/
def Accepts (h : Hashes) (srvs : List Server) (ps : List (Byte × List Byte)) (i : Nat)
    (pkt : List Byte) : Prop :=
  ∃ srv, srvs[i]? = some srv ∧ ∃ pkt' m, pktVerify h srv.sharedSecret none pkt = .ok () pkt' ∧
    walk pkt' = .ok (setFirst typeMsgAuthentic m (withMsgAuthr true ps))

/-- What is promised of a query with the attributes `ps`. -/
structure Good (h : Hashes) (srvs : List Server) (ps : List (Byte × List Byte)) (s : State) :
    Prop where
  tried : s.done ≠ none → ∀ i, IsEnabled srvs i → ∃ e ∈ s.query.log, e.server = i
  accepted : ∀ i pkt, .sent i pkt ∈ s.query.log → Accepts h srvs ps i pkt

/-- The queries that never need a second server.  A query is reported after the first server that
could not be sent to or did not answer, and the packet cannot be signed twice. -/
structure Single (srvs : List Server) (code : Byte) (pkt : List Byte)
    (ps : List (Byte × List Byte)) : Prop where
  one : ∀ i j, IsEnabled srvs i → IsEnabled srvs j → i = j
  request : (∃ i, IsEnabled srvs i) → Signable pkt true ps ∧
    (code ∈ randomCodes ∨ code ∈ zeroCodes ∧ locate typeUserPassword ps = none)

/-! ## The servers -/

theorem findEnabled_some : ∀ {srvs : List Server} {n i : Nat}, findEnabled srvs n = some i →
    n ≤ i ∧ IsEnabled srvs i ∧ ∀ j, n ≤ j → j < i → ¬ IsEnabled srvs j
  | [], n, i, hf => by cases hf
  | srv :: srvs, 0, i, hf => by
    rw [findEnabled] at hf
    by_cases hen : srv.enabled
    · rw [if_pos hen] at hf
      cases hf
      exact ⟨Nat.le_refl 0, ⟨srv, rfl, hen⟩, fun j _ hj => absurd hj (Nat.not_lt_zero j)⟩
    · rw [if_neg hen, Option.map_eq_some_iff] at hf
      rcases hf with ⟨k, hk, rfl⟩
      rcases findEnabled_some hk with ⟨-, hken, hbefore⟩
      refine ⟨Nat.zero_le _, hken, ?_⟩
      rintro (_ | j) _ hj
      · rintro ⟨srv', hget, hen'⟩
        cases hget
        exact hen hen'
      · exact hbefore j (Nat.zero_le j) (Nat.lt_of_succ_lt_succ hj)
  | srv :: srvs, n + 1, i, hf => by
    rw [findEnabled, Option.map_eq_some_iff] at hf
    rcases hf with ⟨k, hk, rfl⟩
    rcases findEnabled_some hk with ⟨hle, hken, hbefore⟩
    refine ⟨Nat.succ_le_succ hle, hken, ?_⟩
    rintro (_ | j) hj hlt
    · cases hj
    · exact hbefore j (Nat.le_of_succ_le_succ hj) (Nat.lt_of_succ_lt_succ hlt)

theorem findEnabled_none : ∀ {srvs : List Server} {n : Nat}, findEnabled srvs n = none →
    ∀ j, n ≤ j → ¬ IsEnabled srvs j
  | [], n, _, j, _, hen => by
    rcases hen with ⟨srv, hget, -⟩
    cases hget
  | srv :: srvs, 0, hf, j, _, hen => by
    rw [findEnabled] at hf
    by_cases hsrv : srv.enabled
    · rw [if_pos hsrv] at hf
      cases hf
    · rw [if_neg hsrv, Option.map_eq_none_iff] at hf
      cases j with
      | zero =>
        rcases hen with ⟨srv', hget, hen'⟩
        cases hget
        exact hsrv hen'
      | succ j => exact findEnabled_none hf j (Nat.zero_le j) hen
  | srv :: srvs, n + 1, hf, j, hj, hen => by
    rw [findEnabled, Option.map_eq_none_iff] at hf
    cases j with
    | zero => cases hj
    | succ j => exact findEnabled_none hf j (Nat.le_of_succ_le_succ hj) hen

/-! ## The packet -/

variable {h : Hashes} {key pkt pkt' auth : List Byte} {ps qs : List (Byte × List Byte)}

theorem byteAt_take {buf : List Byte} {n i : Nat} (hi : i < n) :
    byteAt (buf.take n) i = byteAt buf i := by
  rw [byteAt, byteAt, List.getD_eq_getElem?_getD, List.getD_eq_getElem?_getD, List.getElem?_take,
    if_pos hi]

theorem drop_take_take {buf : List Byte} {n i m : Nat} (hi : i + m ≤ n) :
    ((buf.take n).drop i).take m = (buf.drop i).take m := by
  rw [List.drop_take, List.take_take, Nat.min_eq_left (by omega)]

theorem has_take (hp : Has pkt ps) : Has (pkt.take (pktLen pkt)) ps := by
  have hlen := hp.len
  have hroom := hp.room
  have hplen : pktLen (pkt.take (pktLen pkt)) = pktLen pkt := by
    unfold hdrSize at hlen
    rw [pktLen, getBe16, byteAt_take (by omega), byteAt_take (by omega), pktLen, getBe16]
  rcases hp with ⟨as, hold, rfl⟩
  have holdlen := hold.len
  refine ⟨as, ⟨by rw [hplen]; exact hold.len, ?_, ?_⟩, rfl⟩
  · rw [hplen, List.length_take]
    omega
  · show ((pkt.take (pktLen pkt)).drop hdrSize).take _ = _
    rw [drop_take_take (by omega)]
    exact hold.attrs

theorem pktCode_take (hp : Has pkt ps) : pktCode (pkt.take (pktLen pkt)) = pktCode pkt := by
  have hlen := hp.len
  unfold hdrSize at hlen
  rw [pktCode, byteAt_take (by omega), pktCode]

theorem signed_take (hs : Signed h key auth qs pkt) :
    Signed h key auth qs (pkt.take (pktLen pkt)) := by
  have hlen := hs.has.len
  unfold hdrSize at hlen
  have hfour : (pkt.take (pktLen pkt)).take 4 = pkt.take 4 := by
    rw [List.take_take, Nat.min_eq_left (by omega)]
  have hmac : mac h key (pkt.take (pktLen pkt)) auth qs = mac h key pkt auth qs := by
    rw [mac, mac, hfour]
  have hauth : pktAuthenticator (pkt.take (pktLen pkt)) = pktAuthenticator pkt :=
    drop_take_take (by omega)
  constructor
  · rw [hmac]
    exact has_take hs.has
  · rw [hauth, hmac, signedAuthenticator, pktCode_take hs.has, hfour]
    exact hs.authenticator

theorem built_set_id {code : Byte} {authenticator : Option (List Byte)} (id : Byte)
    (hb : Built code authenticator pkt ps) :
    Built code authenticator (splice pkt 1 [id]) ps ∧ (splice pkt 1 [id]).length = pkt.length := by
  have hle := hb.has.hdr_le
  unfold hdrSize at hle
  have hfit : 1 + [id].length ≤ pkt.length := by
    show 1 + 1 ≤ pkt.length
    omega
  have hend : 1 + [id].length ≤ 2 := Nat.le_refl 2
  rcases hb with ⟨⟨id0, buf, pkt0, hinit, hcode, hauth⟩, as, hold, rfl⟩
  have hplen : pktLen (splice pkt 1 [id]) = pktLen pkt := by
    rw [pktLen, getBe16_splice hfit (.inr hend), pktLen]
  refine ⟨⟨⟨id0, buf, pkt0, hinit, ?_, ?_⟩, as, ⟨?_, ?_, ?_⟩, rfl⟩, length_splice hfit⟩
  · rw [← hcode, pktCode, byteAt_splice hfit (.inl (by omega)), pktCode]
  · rw [← hauth, pktAuthenticator, take_drop_splice_of_disjoint hfit (.inr (by omega)),
      pktAuthenticator]
  · rw [hplen]
    exact hold.len
  · rw [hplen, length_splice hfit]
    exact hold.room
  · exact hold.attrs.frame hfit (.inr (by unfold hdrSize; omega))

theorem sign_request (h : Hashes) (key : List Byte) {code : Byte} {authenticator : Option (List Byte)}
    (hb : Built code authenticator pkt ps) (hfit : Signable pkt true ps)
    (hcode : code ∈ randomCodes ∨ code ∈ zeroCodes ∧ locate typeUserPassword ps = none) :
    ∃ pkt', pktSign h key true pkt = .ok (pktLen pkt') pkt' ∧
      ∃ pkt'' m, pktVerify h key none (pkt'.take (pktLen pkt')) = .ok () pkt'' ∧
        walk pkt'' = .ok (setFirst typeMsgAuthentic m (withMsgAuthr true ps)) := by
  rcases sign_ok h key hb.has hfit with ⟨pkt', hsign, hcode', hs⟩
  have hno : ¬ (code ∈ replyCodes ∨ code = accountingResponse) := by
    have hrnd : ∀ c ∈ randomCodes, ¬ (c ∈ replyCodes ∨ c = accountingResponse) := by decide
    have hzero : ∀ c ∈ zeroCodes, ¬ (c ∈ replyCodes ∨ c = accountingResponse) := by decide
    exact hcode.elim (hrnd code) (fun hz => hzero code hz.1)
  refine ⟨pkt', hsign, verify_ok h key hb (fun hr => absurd hr hno) ?_ ?_ hfit ?_ (signed_take hs)⟩
  · intro hloc
    exact hcode.resolve_right (fun hz => hloc hz.2)
  · intro hacct
    exact absurd (.inr (hb.head.1.symm.trans hacct)) hno
  · rw [pktCode_take hs.has, hcode']
    exact hb.head.1

/-! ## One call -/

def noted (q : Query) (e : Event) : Query := { q with log := q.log ++ [e] }

theorem send_cases (o : Outcome) (q : Query) :
    ∃ e, (e = .refused q.curSrvIdx ∨ e = .sent q.curSrvIdx (q.buf.take q.used)) ∧
      (send o q = .ok () (noted q e) ∨ ∃ err, send o q = .error err (noted q e)) := by
  unfold send
  cases o.timerEnable with
  | some err => exact ⟨.refused q.curSrvIdx, .inl rfl, .inr ⟨err, rfl⟩⟩
  | none =>
    refine ⟨.sent q.curSrvIdx (q.buf.take q.used), .inr rfl, ?_⟩
    cases o.sendto with
    | some err => exact .inr ⟨err, rfl⟩
    | none => exact .inl rfl

/-- The query of an only server `i` that was tried: it may be sent again as it is. -/
structure Ready (h : Hashes) (srvs : List Server) (ps : List (Byte × List Byte)) (i : Nat)
    (q : Query) : Prop where
  current : q.curSrvIdx = i
  packet : Accepts h srvs ps i (q.buf.take q.used)
  accepted : ∀ j pkt, .sent j pkt ∈ q.log → Accepts h srvs ps j pkt

/-- What holds after every event. -/
structure Inv (h : Hashes) (srvs : List Server) (ps : List (Byte × List Byte)) (i : Nat) (s : State) :
    Prop where
  tried : ∃ e ∈ s.query.log, e.server = i
  accepted : ∀ j pkt, .sent j pkt ∈ s.query.log → Accepts h srvs ps j pkt
  ready : s.done = none → Ready h srvs ps i s.query

variable {srvs : List Server} {i : Nat} {q : Query}

theorem Ready.noted (hq : Ready h srvs ps i q) {e : Event}
    (he : e = .refused q.curSrvIdx ∨ e = .sent q.curSrvIdx (q.buf.take q.used)) :
    Ready h srvs ps i (noted q e) ∧ ∃ e' ∈ (Client.noted q e).log, e'.server = i := by
  have hserver : e.server = i := by
    rcases he with rfl | rfl <;> exact hq.current
  refine ⟨⟨hq.current, hq.packet, ?_⟩, e, List.mem_append_right _ List.mem_cons_self, hserver⟩
  intro j pkt hmem
  rcases List.mem_append.mp hmem with hold | hnew
  · exact hq.accepted j pkt hold
  · rw [List.mem_singleton] at hnew
    rcases he with rfl | rfl
    · cases hnew
    · cases hnew
      rw [hq.current]
      exact hq.packet

theorem report_send (hq : Ready h srvs ps i q) (o : Outcome)
    (next : Errno → Query → EStateM.Result Errno Query Unit)
    (hnext : ∀ e q', Ready h srvs ps i q' → ∃ e' q'', next e q' = .error e' q'' ∧ q''.log = q'.log) :
    Inv h srvs ps i (report (StateErr.fold (send o q) .ok next)) := by
  rcases send_cases o q with ⟨e, he, hok | ⟨err, herr⟩⟩
  · rcases hq.noted he with ⟨hready, htried⟩
    rw [hok]
    exact ⟨htried, hready.accepted, fun _ => hready⟩
  · rcases hq.noted he with ⟨hready, htried⟩
    rcases hnext err _ hready with ⟨e', q'', hn, hlog⟩
    rw [herr, StateErr.fold_error, hn]
    refine ⟨?_, ?_, fun hd => by cases hd⟩
    · show ∃ e ∈ q''.log, _
      rw [hlog]
      exact htried
    · show ∀ j pkt, _ ∈ q''.log → _
      rw [hlog]
      exact hready.accepted

theorem sendNew_none (h : Hashes) (q : Query) (env : Nat → Outcome) (hf : findEnabled srvs q.curSrvIdx = none) :
    ∃ e n, sendNew h srvs env q = .error e (q.onServer n) ∧ q.curSrvIdx ≤ n := by
  unfold sendNew
  simp only [StateErr.bind_apply, StateErr.ite_apply, StateErr.throw_apply, StateErr.get_apply,
    StateErr.fold_ok]
  by_cases hempty : srvs.length = 0
  · rw [if_pos hempty]
    exact ⟨.edestaddrreq, q.curSrvIdx, rfl, Nat.le_refl _⟩
  · rw [if_neg hempty, hf]
    exact ⟨.econnrefused, max q.curSrvIdx srvs.length, rfl, Nat.le_max_left _ _⟩

theorem tryNext_error (hone : ∀ j, IsEnabled srvs j → j = i) (env : Nat → Outcome) :
    ∀ (fuel : Nat) (e : Errno) (q : Query), i ≤ q.curSrvIdx →
    ∃ e' q', tryNext h srvs env fuel e q = .error e' q' ∧ q'.log = q.log
  | 0, e, q, _ => ⟨e, q, rfl, rfl⟩
  | fuel + 1, e, q, hcur => by
    by_cases hlast : q.curSrvIdx + 1 < srvs.length
    · have hf : findEnabled srvs (q.curSrvIdx + 1) = none := by
        cases hf : findEnabled srvs (q.curSrvIdx + 1) with
        | none => rfl
        | some k =>
          rcases findEnabled_some hf with ⟨hle, hen, -⟩
          have := hone k hen
          omega
      rcases sendNew_none h (q.onServer (q.curSrvIdx + 1)) env hf with ⟨e', n, hsend, hn⟩
      have hn' : q.curSrvIdx + 1 ≤ n := hn
      rcases tryNext_error hone env fuel e' ((q.onServer (q.curSrvIdx + 1)).onServer n)
        (show i ≤ n by omega) with ⟨e'', q', hnext, hlog⟩
      refine ⟨e'', q', ?_, hlog⟩
      rw [tryNext, StateErr.bind_of_ok (StateErr.get_apply q), if_pos hlast]
      show StateErr.fold (sendNew h srvs env (q.onServer (q.curSrvIdx + 1))) _ _ = _
      rw [hsend]
      exact hnext
    · refine ⟨e, q, ?_, rfl⟩
      rw [tryNext, StateErr.bind_of_ok (StateErr.get_apply q), if_neg hlast]
      rfl

/-- The query is as it was but for its timer. -/
structure SameQuery (q q' : Query) : Prop where
  curSrvIdx : q'.curSrvIdx = q.curSrvIdx
  buf : q'.buf = q.buf
  used : q'.used = q.used
  log : q'.log = q.log

theorem Ready.same (hq : Ready h srvs ps i q) {q' : Query} (hsame : SameQuery q q') :
    Ready h srvs ps i q' := by
  refine ⟨hsame.curSrvIdx.trans hq.current, ?_, ?_⟩
  · rw [hsame.buf, hsame.used]
    exact hq.packet
  · rw [hsame.log]
    exact hq.accepted

theorem nextTimer_same (srv : Server) (o : Outcome) (q : Query) :
    SameQuery q (nextTimer srv o q).1 := by
  simp only [nextTimer]
  split
  · exact ⟨rfl, rfl, rfl, rfl⟩
  · split
    · exact ⟨rfl, rfl, rfl, rfl⟩
    · split <;> exact ⟨rfl, rfl, rfl, rfl⟩

theorem timeout_inv (hone : ∀ j, IsEnabled srvs j → j = i) {s : State} (hs : Inv h srvs ps i s)
    (env : Nat → Outcome) : Inv h srvs ps i (timeout h srvs s env) := by
  unfold timeout
  cases hd : s.done with
  | some e => exact hs
  | none =>
    have hready := hs.ready hd
    rcases hready.packet with ⟨srv, hsrv, -⟩
    rw [← hready.current] at hsrv
    have hsame := nextTimer_same srv (env s.query.curSrvIdx) s.query
    simp only [queryTimeout, hsrv]
    generalize nextTimer srv (env s.query.curSrvIdx) s.query = next at hsame
    rcases next with ⟨q', again⟩
    cases again with
    | true =>
      refine report_send (hready.same hsame) _ _ ?_
      intro e q'' hq''
      exact tryNext_error hone env _ e q'' (Nat.le_of_eq hq''.current.symm)
    | false =>
      refine ⟨?_, (hready.same hsame).accepted, fun hnone => by cases hnone⟩
      show ∃ e ∈ q'.log, _
      rw [hsame.log]
      exact hs.tried

theorem sendNew_some {srv : Server} (h : Hashes) (env : Nat → Outcome)
    (hf : findEnabled srvs q.curSrvIdx = some i) (hsrv : srvs[i]? = some srv) :
    sendNew h srvs env q = turn h srv (env i) (q.onServer i) := by
  have hne : srvs.length ≠ 0 := by
    intro hzero
    rw [List.length_eq_zero_iff.mp hzero] at hsrv
    cases hsrv
  unfold sendNew
  rw [if_neg hne]
  beta_reduce
  rw [StateErr.bind_of_ok (StateErr.get_apply q), hf]
  simp only [hsrv]
  rfl

theorem link_cases (srv : Server) (o : Outcome) (hskt : q.skt = none) :
    (∃ e q', link srv o q = .error e q' ∧ q'.log = q.log ++ [.refused q.curSrvIdx]) ∨
    (∃ q', link srv o q = .ok () q' ∧ q'.curSrvIdx = q.curSrvIdx ∧ q'.log = q.log ∧
      (q'.buf = q.buf ∨ ∃ id, q'.buf = splice q.buf 1 [id])) := by
  unfold link
  rw [StateErr.bind_of_ok (StateErr.get_apply q), if_neg (by rw [hskt]; exact nofun)]
  cases o.slot with
  | error e => exact .inl ⟨e, _, rfl, rfl⟩
  | ok queryId =>
    cases o.timerAdd with
    | some e => exact .inl ⟨e, _, rfl, rfl⟩
    | none =>
      refine .inr ⟨_, rfl, rfl, rfl, ?_⟩
      cases q.queryIdAny with
      | false => exact .inl rfl
      | true => exact .inr ⟨queryId, rfl⟩

theorem signBuf_ok {srv : Server} {n : Nat} {buf : List Byte}
    (hsign : pktSign h srv.sharedSecret true q.buf = .ok n buf) :
    signBuf h srv q = .ok () { q with buf := buf, used := n } := by
  unfold signBuf
  rw [StateErr.bind_apply, StateErr.zoom_apply, hsign]
  rfl

/-- The first send of a query whose only server is `i`. -/
theorem start_inv {code : Byte} {authenticator : Option (List Byte)}
    (hb : Built code authenticator pkt ps) (hfit : Signable pkt true ps)
    (hcode : code ∈ randomCodes ∨ code ∈ zeroCodes ∧ locate typeUserPassword ps = none)
    (hone : ∀ j, IsEnabled srvs j → j = i) (hen : IsEnabled srvs i) (queryIdAny : Bool)
    (env : Nat → Outcome) : Inv h srvs ps i (start h srvs env (queryAlloc queryIdAny pkt)) := by
  have hf : findEnabled srvs 0 = some i := by
    cases hf : findEnabled srvs 0 with
    | none => exact absurd hen (findEnabled_none hf i (Nat.zero_le i))
    | some k => rw [hone k (findEnabled_some hf).2.1]
  rcases hen with ⟨srv, hsrv, -⟩
  rw [start, sendNew_some h env hf hsrv, turn]
  rcases link_cases (q := (queryAlloc queryIdAny pkt).onServer i) srv (env i) rfl with
    ⟨e, q1, hlink, hlog⟩ | ⟨q1, hlink, hcur, hlog, hbuf⟩
  · rw [StateErr.bind_of_error hlink]
    have hlog' : q1.log = [.refused i] := hlog
    refine ⟨?_, ?_, fun hnone => by cases hnone⟩
    · exact ⟨.refused i, by show _ ∈ q1.log; rw [hlog']; exact List.mem_cons_self, rfl⟩
    · intro j p hmem
      have hmem' : .sent j p ∈ q1.log := hmem
      rw [hlog', List.mem_singleton] at hmem'
      cases hmem'
  · have hcur' : q1.curSrvIdx = i := hcur
    have hlog' : q1.log = [] := hlog
    -- the buffer is the request, with its identifier
    have hreq : Built code authenticator q1.buf ps ∧ q1.buf.length = pkt.length := by
      rcases hbuf with hsame | ⟨id, hid⟩
      · rw [hsame]
        exact ⟨hb, rfl⟩
      · rw [hid]
        exact built_set_id id hb
    have hfit1 : Signable q1.buf true ps := by
      refine ⟨hfit.1, ?_⟩
      rw [MsgAuthrFits, if_pos rfl, hreq.2, hreq.1.has.len, ← hb.has.len]
      exact hfit.2
    rcases sign_request h srv.sharedSecret hreq.1 hfit1 hcode with ⟨buf, hsign, hverify⟩
    rw [StateErr.bind_of_ok hlink, StateErr.bind_of_ok (signBuf_ok hsign)]
    have hready : Ready h srvs ps i { q1 with
        buf := buf
        used := pktLen buf
        retransTime := limitTime srv (env i) (srv.retransTimeInit -
          rndFactor (env i).rnd srv.retransTimeInit)
        retransCount := 0
        retransDuration := 0 } := by
      refine ⟨hcur', ⟨srv, hsrv, hverify⟩, ?_⟩
      intro j p hmem
      have hmem' : .sent j p ∈ q1.log := hmem
      rw [hlog'] at hmem'
      cases hmem'
    have hsend := report_send hready (env i) .error (fun e q' _ => ⟨e, q', rfl, rfl⟩)
    rw [StateErr.fold_eta] at hsend
    exact hsend

/-! ## A query that needs more than one server -/

/-- Everything the system is asked for is there. -/
def granted : Outcome where
  slot := .ok 0
  timerAdd := none
  timerEnable := none
  sendto := none
  rnd := 1
  rndMax := 1

def refusal : Outcome := { granted with slot := .error .eagain }

theorem start_refusal {srv : Server} (hf : findEnabled srvs 0 = some i) (hsrv : srvs[i]? = some srv)
    (queryIdAny : Bool) (pkt : List Byte) :
    (start h srvs (fun _ => refusal) (queryAlloc queryIdAny pkt)).done = some .eagain ∧
      (start h srvs (fun _ => refusal) (queryAlloc queryIdAny pkt)).query.log = [.refused i] := by
  rw [start, sendNew_some h _ hf hsrv]
  exact ⟨rfl, rfl⟩

def linkedBuf (queryIdAny : Bool) (pkt : List Byte) : List Byte :=
  if queryIdAny then splice pkt 1 [0#8] else pkt

theorem linkedBuf_built {code : Byte} {authenticator : Option (List Byte)} (queryIdAny : Bool)
    (hb : Built code authenticator pkt ps) :
    Built code authenticator (linkedBuf queryIdAny pkt) ps ∧
      (Signable (linkedBuf queryIdAny pkt) true ps ↔ Signable pkt true ps) := by
  have hreq : Built code authenticator (linkedBuf queryIdAny pkt) ps ∧
      (linkedBuf queryIdAny pkt).length = pkt.length := by
    cases queryIdAny with
    | false => exact ⟨hb, rfl⟩
    | true => exact built_set_id 0#8 hb
  refine ⟨hreq.1, ?_⟩
  rw [Signable, Signable, MsgAuthrFits, MsgAuthrFits, if_pos rfl, if_pos rfl, hreq.2, hreq.1.has.len,
    ← hb.has.len]

theorem link_granted (srv : Server) (queryIdAny : Bool) (pkt : List Byte) :
    link srv granted ((queryAlloc queryIdAny pkt).onServer i) =
      .ok () { (queryAlloc queryIdAny pkt).onServer i with
        skt := some srv.family
        buf := linkedBuf queryIdAny pkt } := rfl

theorem start_unsigned {srv : Server} (hf : findEnabled srvs 0 = some i) (hsrv : srvs[i]? = some srv)
    (queryIdAny : Bool) {e : Errno} {buf : List Byte}
    (hsign : pktSign h srv.sharedSecret true (linkedBuf queryIdAny pkt) = .error e buf) :
    (start h srvs (fun _ => granted) (queryAlloc queryIdAny pkt)).done = some e ∧
      (start h srvs (fun _ => granted) (queryAlloc queryIdAny pkt)).query.log = [] := by
  have hbuf : ∀ q : Query, q.buf = linkedBuf queryIdAny pkt →
      signBuf h srv q = .error e { q with buf := buf } := by
    intro q hq
    unfold signBuf
    apply StateErr.bind_of_error
    rw [StateErr.zoom_apply, hq, hsign]
    rfl
  rw [start, sendNew_some h _ hf hsrv, turn, StateErr.bind_of_ok (link_granted srv queryIdAny pkt),
    StateErr.bind_of_error (hbuf _ rfl)]
  exact ⟨rfl, rfl⟩

theorem start_signed {srv : Server} (hf : findEnabled srvs 0 = some i) (hsrv : srvs[i]? = some srv)
    (queryIdAny : Bool) {n : Nat} {buf : List Byte}
    (hsign : pktSign h srv.sharedSecret true (linkedBuf queryIdAny pkt) = .ok n buf) :
    (start h srvs (fun _ => granted) (queryAlloc queryIdAny pkt)).query.log =
      [.sent i (buf.take n)] := by
  have hbuf : ∀ q : Query, q.buf = linkedBuf queryIdAny pkt →
      signBuf h srv q = .ok () { q with buf := buf, used := n } := by
    intro q hq
    rw [← hq] at hsign
    exact signBuf_ok hsign
  rw [start, sendNew_some h _ hf hsrv, turn, StateErr.bind_of_ok (link_granted srv queryIdAny pkt),
    StateErr.bind_of_ok (hbuf _ rfl)]
  rfl

/-! ## Requests that a server does not accept -/

theorem verify_reply (hs : Signed h key auth qs pkt)
    (hcode : pktCode pkt ∈ replyCodes ∨ pktCode pkt = accountingResponse) (pkt' : List Byte) :
    pktVerify h key none pkt ≠ .ok () pkt' := by
  have hno : pktCode pkt ∉ randomCodes ∧ pktCode pkt ∉ zeroCodes := by
    have hreply : ∀ c ∈ replyCodes, c ∉ randomCodes ∧ c ∉ zeroCodes := by decide
    rcases hcode with hr | ha
    · exact hreply _ hr
    · rw [ha]
      decide
  have hchk : authenticatorChk h pkt key false none = .error .einval := by
    rw [authenticatorChk_eq h key hs, if_neg hno.1, checkedAuthenticator, if_neg hno.2, if_pos hcode]
    rfl
  rw [pktVerify_eq, hchk]
  intro hrun
  cases hmac : verifyMac h key none pkt with
  | ok a =>
    rw [hmac] at hrun
    cases hrun
  | error e =>
    rw [hmac] at hrun
    cases hrun

def ones16 : List Byte := List.replicate 16 255#8

theorem length_zeros_or_ones (key m : List Byte) :
    (if m = key ++ zeros16 then zeros16 else ones16).length = 16 := by
  split <;> rfl

theorem length_hmac_zeros (_ _ : List Byte) : zeros16.length = 16 := rfl

def zerosHashes (key : List Byte) : Hashes where
  md5 m := if m = key ++ zeros16 then zeros16 else ones16
  hmacMd5 _ _ := zeros16
  length_md5 := length_zeros_or_ones key
  length_hmacMd5 := length_hmac_zeros

theorem decode_other (key : List Byte) {n : Nat} {data : List Byte} (hdata : data ≠ []) (hn : 0 < n) :
    decodeBlocks (zerosHashes key) key n ones16 (encodeBlocks (zerosHashes key) key n zeros16 data) ≠
      data := by
  rcases Nat.exists_eq_add_of_lt hn with ⟨k, rfl⟩
  rcases List.exists_cons_of_ne_nil hdata with ⟨x, xs, rfl⟩
  have hzero : (zerosHashes key).md5 (key ++ zeros16) = 0#8 :: List.replicate 15 0#8 := if_pos rfl
  have hones : (zerosHashes key).md5 (key ++ ones16) = 255#8 :: List.replicate 15 255#8 :=
    if_neg (fun heq => absurd (List.append_cancel_left heq) (by decide))
  intro hsame
  rw [Nat.zero_add, encodeBlocks, decodeBlocks, hones, hzero] at hsame
  have hhead : (x ^^^ 0#8) ^^^ 255#8 = x := (List.cons.inj hsame).1
  rw [BitVec.xor_zero] at hhead
  have hcancel := congrArg (x ^^^ ·) hhead
  simp only [← BitVec.xor_assoc, BitVec.xor_self, BitVec.zero_xor] at hcancel
  exact absurd hcancel (by decide)

theorem locate_setFirst_data {type type' : Byte} (hne : type' ≠ type) (data : List Byte) :
    ∀ (ps : List (Byte × List Byte)),
    (locate type (setFirst type' data ps)).map Prod.snd = (locate type ps).map Prod.snd
  | [] => rfl
  | (t, d) :: ps => by
    by_cases ht : t = type'
    · have ht' : t ≠ type := ht ▸ hne
      rw [setFirst, if_pos ht, locate, if_neg ht', locate, if_neg ht', Option.map_map,
        Option.map_map]
      rfl
    · have ih := locate_setFirst_data hne data ps
      rw [setFirst, if_neg ht, locate, locate]
      by_cases ht' : t = type
      · rw [if_pos ht', if_pos ht']
      · rw [if_neg ht', if_neg ht', Option.map_map, Option.map_map]
        exact ih

/-- Behind an authenticator that signing changes, the password is lost. -/
theorem verify_lost {code : Byte} {authenticator : Option (List Byte)} (key : List Byte)
    (hb : Built code authenticator pkt ps) (hfit : Signable pkt true ps) (hzero : code ∈ zeroCodes)
    (hpw : locate typeUserPassword ps ≠ none)
    (hs : Signed (zerosHashes key) key (pktAuthenticator pkt)
      (toSign (zerosHashes key) key (pktAuthenticator pkt) true ps) pkt')
    (hcode : pktCode pkt' = code) {pkt'' : List Byte} (m : List Byte)
    (hverify : pktVerify (zerosHashes key) key none pkt' = .ok () pkt'') :
    walk pkt'' ≠ .ok (setFirst typeMsgAuthentic m (withMsgAuthr true ps)) := by
  intro hwalk
  rcases zero_code code hzero with ⟨hrnd, hacct⟩
  have hauth : pktAuthenticator pkt = zeros16 := by
    rcases hb.head with ⟨-, auth, hinit, hset⟩
    unfold initAuthenticator at hinit
    rw [if_neg hacct, if_pos hzero] at hinit
    rw [← Except.ok.inj hinit] at hset
    exact hset rfl
  -- the digest of all ones has gone over the zeros that were signed
  have hother : pktAuthenticator pkt' = ones16 := by
    rw [hs.authenticator, signedAuthenticator, hcode, if_neg hrnd]
    refine if_neg (fun heq => ?_)
    have hle := hs.has.hdr_le
    have hlen := congrArg List.length heq
    unfold hdrSize at hle
    simp only [List.length_append, List.length_take, hb.has.length_authenticator] at hlen
    have hzeros : zeros16.length = 16 := rfl
    omega
  have hshow : verifyPassword (zerosHashes key) key pkt' = .ok () pkt'' := by
    rw [pktVerify_eq] at hverify
    cases hmac : verifyMac (zerosHashes key) key none pkt' with
    | error e =>
      rw [hmac] at hverify
      cases hverify
    | ok u =>
      cases hchk : authenticatorChk (zerosHashes key) pkt' key false none with
      | error e =>
        rw [hmac, hchk] at hverify
        cases hverify
      | ok u =>
        rw [hmac, hchk] at hverify
        exact hverify
  cases hloc : locate typeUserPassword ps with
  | none => exact hpw hloc
  | some r =>
    rcases r with ⟨off, data⟩
    have hdata : data.length ≠ 0 ∧ data.length ≤ userPasswordMaxLen ∧ data.length % 16 = 0 :=
      hfit.1 (off, data) hloc
    rcases verifyPassword_located (zerosHashes key) key hfit hs hloc with ⟨p, m', hok, hhas⟩
    rw [hshow] at hok
    cases hok
    rw [hother, hauth] at hhas
    -- what is shown was hidden with the other authenticator
    have hsame := Except.ok.inj (hhas.walk_eq.symm.trans hwalk)
    have hpass := congrArg (fun qs => (locate typeUserPassword qs).map Prod.snd) hsame
    simp only [locate_setFirst_data (show typeMsgAuthentic ≠ typeUserPassword by decide),
      locate_withMsgAuthr, locate_setFirst_self, hloc, Option.map_some, Option.some.injEq] at hpass
    exact decode_other key (fun hnil => hdata.1 (by rw [hnil]; rfl)) (by omega) hpass

/-! ## A query -/

theorem run_inv (hone : ∀ j, IsEnabled srvs j → j = i) (envs : List (Nat → Outcome)) :
    ∀ {s : State}, Inv h srvs ps i s → Inv h srvs ps i (envs.foldl (timeout h srvs) s) := by
  induction envs with
  | nil => exact fun hs => hs
  | cons env envs ih => exact fun hs => ih (timeout_inv hone hs env)

theorem run_done (envs : List (Nat → Outcome)) {s : State} (hs : s.done ≠ none) :
    envs.foldl (timeout h srvs) s = s := by
  induction envs with
  | nil => rfl
  | cons env envs ih =>
    rw [List.foldl_cons, timeout]
    cases hd : s.done with
    | none => exact absurd hd hs
    | some e => exact ih

theorem signed_of_good {code : Byte} {authenticator : Option (List Byte)} {srv : Server}
    (hb : Built code authenticator pkt ps) {queryIdAny : Bool}
    (hgood : Good h srvs ps (start h srvs (fun _ => granted) (queryAlloc queryIdAny pkt)))
    (hf : findEnabled srvs 0 = some i) (hsrv : srvs[i]? = some srv)
    (hfit : Signable (linkedBuf queryIdAny pkt) true ps) :
    ∃ p p' m, Signed h srv.sharedSecret (pktAuthenticator (linkedBuf queryIdAny pkt))
        (toSign h srv.sharedSecret (pktAuthenticator (linkedBuf queryIdAny pkt)) true ps) p ∧
      pktCode p = code ∧ pktVerify h srv.sharedSecret none p = .ok () p' ∧
      walk p' = .ok (setFirst typeMsgAuthentic m (withMsgAuthr true ps)) := by
  have hbl := (linkedBuf_built queryIdAny hb).1
  rcases sign_ok h srv.sharedSecret hbl.has hfit with ⟨buf, hsign, hcode, hs⟩
  have hlog := start_signed hf hsrv queryIdAny hsign
  have haccept := hgood.accepted i (buf.take (pktLen buf)) (by rw [hlog]; exact List.mem_cons_self)
  rcases haccept with ⟨srv', hsrv', p', m, hverify, hwalk⟩
  rw [hsrv] at hsrv'
  cases hsrv'
  refine ⟨_, p', m, signed_take hs, ?_, hverify, hwalk⟩
  rw [pktCode_take hs.has, hcode]
  exact hbl.head.1

theorem request_of_good {code : Byte} {authenticator : Option (List Byte)}
    (hb : Built code authenticator pkt ps) {queryIdAny : Bool}
    (hgood : ∀ h env, Good h srvs ps (start h srvs env (queryAlloc queryIdAny pkt)))
    (hen : ∃ i, IsEnabled srvs i) : Signable pkt true ps ∧
      (code ∈ randomCodes ∨ code ∈ zeroCodes ∧ locate typeUserPassword ps = none) := by
  rcases hen with ⟨j, hj⟩
  cases hf : findEnabled srvs 0 with
  | none => exact absurd hj (findEnabled_none hf j (Nat.zero_le j))
  | some k =>
    have hk := (findEnabled_some hf).2.1
    rcases hk with ⟨srv, hsrv, henabled⟩
    rcases linkedBuf_built queryIdAny hb with ⟨hbl, hiff⟩
    have hfit : Signable (linkedBuf queryIdAny pkt) true ps := by
      by_contra hno
      rcases sign_error headHashes srv.sharedSecret hbl.has hno with ⟨e, buf, hsign⟩
      rcases start_unsigned hf hsrv queryIdAny hsign with ⟨hdone, hlog⟩
      have htried := (hgood headHashes fun _ => granted).tried
      rw [hdone, hlog] at htried
      rcases htried (Option.some_ne_none e) k ⟨srv, hsrv, henabled⟩ with ⟨e', he', -⟩
      cases he'
    refine ⟨hiff.mp hfit, ?_⟩
    rcases hbl.head with ⟨-, auth, hinit, -⟩
    unfold initAuthenticator at hinit
    -- a reply is not accepted without its request
    have hnot : ¬ (code ∈ replyCodes ∨ code = accountingResponse) := by
      intro hreply
      rcases signed_of_good hb (hgood headHashes fun _ => granted) hf hsrv hfit with
        ⟨p, p', m, hs, hcode, hverify, -⟩
      rw [← hcode] at hreply
      exact verify_reply hs hreply p' hverify
    by_cases hrnd : code ∈ randomCodes
    · exact .inl hrnd
    · by_cases hzero : code ∈ zeroCodes
      · refine .inr ⟨hzero, ?_⟩
        by_contra hpw
        rcases signed_of_good hb (hgood (zerosHashes srv.sharedSecret) fun _ => granted) hf hsrv hfit with
          ⟨p, p', m, hs, hcode, hverify, hwalk⟩
        exact verify_lost srv.sharedSecret hbl hfit hzero hpw hs hcode m hverify hwalk
      · rw [if_neg (fun ha => hnot (.inr ha)), if_neg hzero,
          if_neg (fun hr => hr.elim hrnd (fun hr => hnot (.inl hr)))] at hinit
        cases hinit

/-- Every query, whatever timeouts and send errors it meets, is reported only after every enabled
server was tried and sends only what the server accepts, exactly when it needs no second server. -/
theorem failover_iff {code : Byte} {authenticator : Option (List Byte)} {pkt : List Byte}
    {ps : List (Byte × List Byte)} (hb : Built code authenticator pkt ps) (srvs : List Server)
    (queryIdAny : Bool) :
    (∀ h env envs, Good h srvs ps (run h srvs (queryAlloc queryIdAny pkt) env envs)) ↔
      Single srvs code pkt ps := by
  constructor
  · intro hgood
    refine ⟨?_, request_of_good hb fun h env => hgood h env []⟩
    -- the first server has no slot, and the query is reported
    have hfirst : ∀ j, IsEnabled srvs j → findEnabled srvs 0 = some j := by
      intro j hj
      cases hf : findEnabled srvs 0 with
      | none => exact absurd hj (findEnabled_none hf j (Nat.zero_le j))
      | some k =>
        rcases (findEnabled_some hf).2.1 with ⟨srv, hsrv, -⟩
        rcases start_refusal (h := headHashes) hf hsrv queryIdAny pkt with ⟨hdone, hlog⟩
        have htried := (hgood headHashes (fun _ => refusal) []).tried
        rw [run, List.foldl_nil, hdone, hlog] at htried
        rcases htried (Option.some_ne_none _) j hj with ⟨e, he, hserver⟩
        rw [List.mem_singleton.mp he] at hserver
        rw [← hserver]
        rfl
    intro i j hi hj
    have hsame := (hfirst i hi).symm.trans (hfirst j hj)
    exact Option.some.inj hsame
  · intro hsingle h env envs
    by_cases hen : ∃ i, IsEnabled srvs i
    · rcases hen with ⟨i, hi⟩
      have hone : ∀ j, IsEnabled srvs j → j = i := fun j hj => hsingle.one j i hj hi
      rcases hsingle.request ⟨i, hi⟩ with ⟨hfit, hcode⟩
      have hinv := run_inv hone envs (start_inv hb hfit hcode hone hi queryIdAny env (h := h))
      refine ⟨fun _ j hj => ?_, hinv.accepted⟩
      rw [hone j hj]
      exact hinv.tried
    · -- nothing is enabled and nothing is sent
      have hf : findEnabled srvs 0 = none := by
        cases hf : findEnabled srvs 0 with
        | none => rfl
        | some k => exact absurd ⟨k, (findEnabled_some hf).2.1⟩ hen
      rcases sendNew_none h (queryAlloc queryIdAny pkt) env hf with ⟨e, n, hsend, -⟩
      have hstart : start h srvs env (queryAlloc queryIdAny pkt) =
          ⟨(queryAlloc queryIdAny pkt).onServer n, some e⟩ := by
        rw [start, hsend]
        rfl
      rw [run, hstart, run_done envs (Option.some_ne_none e)]
      exact ⟨fun _ j hj => absurd ⟨j, hj⟩ hen, fun j p hmem => by cases hmem⟩

/-- A server that is waited for once. -/
def plainServer (secret : List Byte) : Server where
  enabled := true
  family := .inet
  sharedSecret := secret
  retransTimeInit := 1000
  retransTimeMax := 0
  retransDurationMax := 0
  retransCountMax := 1

/-- One server is enough for any run. -/
theorem failover_one :
    IsEnabled [plainServer [115#8]] 0 ∧ ∀ h env envs, Good h [plainServer [115#8]] [(typeUserPassword, List.replicate 16 97#8)]
      (run h [plainServer [115#8]] (queryAlloc true passwordPkt) env envs) := by
  have hb : Built accessRequest (some zeros16) passwordPkt
      [(typeUserPassword, List.replicate 16 97#8)] := by
    refine ⟨⟨7#8, List.replicate 64 0#8, _, rfl, rfl, rfl⟩,
      [⟨typeUserPassword, List.replicate 16 97#8, by decide, by decide⟩], ⟨rfl, by decide, rfl⟩, rfl⟩
  have hzero : ∀ i, IsEnabled [plainServer [115#8]] i → i = 0 := by
    rintro (_ | i) ⟨srv, hsrv, -⟩
    · rfl
    · cases hsrv
  refine ⟨⟨_, rfl, rfl⟩, (failover_iff hb [plainServer [115#8]] true).mpr ⟨?_, ?_⟩⟩
  · intro i j hi hj
    rw [hzero i hi, hzero j hj]
  · intro _
    refine ⟨⟨?_, rfl, by decide, by decide⟩, .inl (by decide)⟩
    intro r hr
    rw [← Option.some.inj hr]
    decide

theorem not_good {s : State} (hen : IsEnabled srvs i) (hdone : s.done ≠ none)
    (hlog : i ∉ s.query.log.map Event.server) : ¬ Good h srvs ps s := by
  intro hg
  rcases hg.tried hdone i hen with ⟨e, he, hserver⟩
  exact hlog (List.mem_map.mpr ⟨e, he, hserver⟩)

/-- Two servers.  The request is sent to the first, does not get through again, and is reported: the
second gets nothing, whether the error comes at once, when the time is over or when it is sent again. -/
theorem failover_two :
    Built accessRequest (some zeros16) startedPkt [] ∧
    ¬ Good headHashes [plainServer [115#8], plainServer [116#8]] []
      (run headHashes [plainServer [115#8], plainServer [116#8]] (queryAlloc true startedPkt)
        (fun _ => { granted with sendto := some .ehostdown }) []) ∧
    ¬ Good headHashes [plainServer [115#8], plainServer [116#8]] []
      (run headHashes [plainServer [115#8], plainServer [116#8]] (queryAlloc true startedPkt)
        (fun _ => granted) [fun _ => granted]) ∧
    ¬ Good headHashes [{ plainServer [115#8] with retransCountMax := 9 }, plainServer [116#8]] []
      (run headHashes [{ plainServer [115#8] with retransCountMax := 9 }, plainServer [116#8]]
        (queryAlloc true startedPkt) (fun _ => granted)
        [fun _ => { granted with sendto := some .ehostdown }]) := by
  have hb : Built accessRequest (some zeros16) startedPkt [] :=
    ⟨⟨7#8, List.replicate 64 0#8, _, rfl, rfl, rfl⟩, [], ⟨rfl, by decide, rfl⟩, rfl⟩
  refine ⟨hb, not_good (i := 1) ⟨_, rfl, rfl⟩ (by decide) (by decide), ?_, ?_⟩
  · exact not_good (i := 1) ⟨_, rfl, rfl⟩ (by decide) (by decide)
  · exact not_good (i := 1) ⟨_, rfl, rfl⟩ (by decide) (by decide)

end Radius.Client
