import Liblcb.Proto.Radius

/-!
# The RADIUS client

One query of `proto/radius_client.c`, from `radius_client_query_tpt_msg_cb` to
`radius_client_query_done`, while no reply arrives.  What the sockets, the timers and the clock answer
is an input of each event.  The sockets of a thread are shared with other queries, so the search for a
free slot is such an answer too.
-/

namespace Radius.Client

open Mem Buffer

/-- `radius_cli_srv_t`. -/
structure Server where
  enabled : Bool
  family : Family
  sharedSecret : List Byte
  retransTimeInit : BitVec 64
  retransTimeMax : BitVec 64
  retransDurationMax : BitVec 64
  retransCountMax : Nat

/-- What a server's turn meets. -/
structure Outcome where
  /-- the index of a free slot of a socket -/
  slot : Except Errno Byte
  /-- `tpt_ev_add_args` -/
  timerAdd : Option Errno
  /-- `tpt_ev_enable_args` -/
  timerEnable : Option Errno
  sendto : Option Errno
  /-- `tm` of `radius_client_rnd_factor`, at its two calls -/
  rnd : Byte
  rndMax : Byte

/-- What was done for the server with this index: the system refused a slot or a timer, or the bytes
were handed to `sendto`. -/
inductive Event where
  | refused (srv : Nat)
  | sent (srv : Nat) (pkt : List Byte)

def Event.server : Event → Nat
  | .refused srv => srv
  | .sent srv _ => srv

/-- `radius_cli_query_t`, with the trace of what was done for it. -/
structure Query where
  curSrvIdx : Nat
  retransCount : Nat
  retransTime : BitVec 64
  retransDuration : BitVec 64
  queryIdAny : Bool
  /-- the sockets the query is linked to -/
  skt : Option Family
  buf : List Byte
  /-- `buf->used` -/
  used : Nat
  log : List Event

def queryAlloc (queryIdAny : Bool) (buf : List Byte) : Query where
  curSrvIdx := 0
  retransCount := 0
  retransTime := 0
  retransDuration := 0
  queryIdAny := queryIdAny
  skt := none
  buf := buf
  used := pktLen buf
  log := []

/-- The query with another `cur_srv_idx`. -/
def Query.onServer (q : Query) (i : Nat) : Query := { q with curSrvIdx := i }

def rndFactor (tm : Byte) (data : BitVec 64) : BitVec 64 :=
  let tm := if tm &&& 0x7f#8 = 0 then tm + 1 else tm
  let ret := data / (tm &&& 0x7f#8).setWidth 64
  if tm &&& 0x80#8 ≠ 0 then -ret else ret

def limitTime (srv : Server) (o : Outcome) (time : BitVec 64) : BitVec 64 :=
  if srv.retransTimeMax ≠ 0 ∧ srv.retransTimeMax < time then
    srv.retransTimeMax - rndFactor o.rndMax srv.retransTimeMax
  else time

def findEnabled : List Server → Nat → Option Nat
  | [], _ => none
  | srv :: srvs, 0 => if srv.enabled then some 0 else (findEnabled srvs 0).map (· + 1)
  | _ :: srvs, n + 1 => (findEnabled srvs n).map (· + 1)

def note (e : Event) : EStateM Errno Query Unit :=
  modify fun q => { q with log := q.log ++ [e] }

/-- `radius_client_send`. -/
def send (o : Outcome) : EStateM Errno Query Unit := do
  let q ← get
  match o.timerEnable with
  | some e =>
    note (.refused q.curSrvIdx)
    throw e
  | none =>
    note (.sent q.curSrvIdx (q.buf.take q.used))
    match o.sendto with
    | some e => throw e
    | none => pure ()

/-- The part of `radius_client_send_new` that links the query to a socket. -/
def link (srv : Server) (o : Outcome) : EStateM Errno Query Unit := do
  let q ← get
  if q.skt = some srv.family then pure ()
  else
    set { q with skt := none }
    match o.slot with
    | .error e =>
      note (.refused q.curSrvIdx)
      throw e
    | .ok queryId =>
      let buf := if q.queryIdAny then splice q.buf 1 [queryId] else q.buf
      set { q with skt := some srv.family, buf := buf }
      match o.timerAdd with
      | some e =>
        note (.refused q.curSrvIdx)
        throw e
      | none => pure ()

/-- The packet is signed for the server.  `buf->used` of a call that fails is not read again. -/
def signBuf (h : Hashes) (srv : Server) : EStateM Errno Query Unit := do
  let used ← StateErr.zoom Query.buf (fun buf q => { q with buf := buf })
    (pktSign h srv.sharedSecret true)
  modify fun q => { q with used := used }

/-- `radius_client_send_new`, once the server is found. -/
def turn (h : Hashes) (srv : Server) (o : Outcome) : EStateM Errno Query Unit := do
  link srv o
  signBuf h srv
  modify fun q => { q with
    retransTime := limitTime srv o (srv.retransTimeInit - rndFactor o.rnd srv.retransTimeInit)
    retransCount := 0
    retransDuration := 0 }
  send o

def sendNew (h : Hashes) (srvs : List Server) (env : Nat → Outcome) : EStateM Errno Query Unit := do
  if srvs.length = 0 then throw .edestaddrreq
  let q ← get
  match findEnabled srvs q.curSrvIdx with
  | none =>
    set (q.onServer (max q.curSrvIdx srvs.length))
    throw .econnrefused
  | some i =>
    set (q.onServer i)
    match srvs[i]? with
    | none => throw .econnrefused
    | some srv => turn h srv (env i)

/-- The loop of `radius_client_query_timeout_cb`: an error leads to the next server. -/
def tryNext (h : Hashes) (srvs : List Server) (env : Nat → Outcome) :
    Nat → Errno → EStateM Errno Query Unit
  | 0, e => throw e
  | fuel + 1, e => do
    let q ← get
    if q.curSrvIdx + 1 < srvs.length then
      set (q.onServer (q.curSrvIdx + 1))
      fun q => StateErr.fold (sendNew h srvs env q) .ok (fun e q => tryNext h srvs env fuel e q)
    else throw e

def nextTimer (srv : Server) (o : Outcome) (q : Query) : Query × Bool :=
  let count := q.retransCount + 1
  let duration := q.retransDuration + q.retransTime
  let q := { q with retransCount := count, retransDuration := duration }
  if srv.retransCountMax ≠ 0 ∧ srv.retransCountMax ≤ count then (q, false)
  else if srv.retransDurationMax ≠ 0 ∧ srv.retransDurationMax ≤ duration then (q, false)
  else
    let time := limitTime srv o (2 * q.retransTime - rndFactor o.rnd q.retransTime)
    if srv.retransDurationMax ≠ 0 ∧ srv.retransDurationMax ≤ duration + time then
      let time := srv.retransDurationMax - duration
      ({ q with retransTime := time }, srv.retransTimeInit ≤ time)
    else ({ q with retransTime := time }, true)

/-- `radius_client_query_timeout_cb` up to `err_out`. -/
def queryTimeout (h : Hashes) (srvs : List Server) (env : Nat → Outcome) :
    EStateM Errno Query Unit := fun q =>
  match srvs[q.curSrvIdx]? with
  | none => .error .econnrefused q
  | some srv =>
    let (q', again) := nextTimer srv (env q.curSrvIdx) q
    if again then
      StateErr.fold (send (env q.curSrvIdx) q') .ok
        (fun e q => tryNext h srvs env srvs.length e q)
    else .error .etimedout q'

/-- A query, and the error that was reported when it was done. -/
structure State where
  query : Query
  done : Option Errno

/-- Report about error and destroy query. -/
def report (r : EStateM.Result Errno Query Unit) : State :=
  StateErr.fold r (fun _ q => ⟨q, none⟩) (fun e q => ⟨q, some e⟩)

/-- `radius_client_query_tpt_msg_cb`. -/
def start (h : Hashes) (srvs : List Server) (env : Nat → Outcome) (q : Query) : State :=
  report (sendNew h srvs env q)

/-- A timeout; the timer of a query that is done is gone. -/
def timeout (h : Hashes) (srvs : List Server) (s : State) (env : Nat → Outcome) : State :=
  match s.done with
  | some _ => s
  | none => report (queryTimeout h srvs env s.query)

/-- A query and the timeouts it meets. -/
def run (h : Hashes) (srvs : List Server) (q : Query) (env : Nat → Outcome)
    (envs : List (Nat → Outcome)) : State :=
  envs.foldl (timeout h srvs) (start h srvs env q)

end Radius.Client
