import Liblcb.Threadpool.Msg

/-!
# Broadcast with a completion callback

`tpt_msg_cbsend` of `threadpool/threadpool_msg_sys.c` without `TP_CBMSG_F_ONE_BY_ONE`, as a transition
system: the loop of the sender, `tpt_msg_sync_proxy_cb` on each thread, and the processes that end the
broadcast.  Each step uses the record once at most.
-/

namespace Threadpool

namespace Broadcast

variable {α : Type} [DecidableEq α]

/-- `tpt_msg_sync_proxy_cb` on a thread.  Whether its message is in the queue or the sender calls it,
it starts with the call of `msg_cb`. -/
inductive Proxy where
  | idle
  | pending
  | inCb
  | dec
  | left
deriving DecidableEq

/-- The sender: `todo` are the threads that the loop of `tpt_msg_broadcast_send__int` has not come to,
`err` is `err_cnt`, `cnt` the copy of `send_msg_cnt`. -/
inductive Sender (α : Type) where
  | loop (todo : List α) (err : Nat)
  | send (t : α) (todo : List α) (err : Nat)
  | wait (t : α) (todo : List α) (err : Nat)
  | failed (t : α) (todo : List α) (err : Nat)
  | joined (err : Nat)
  | dec (err cnt : Nat)
  | counted (cnt : Nat)
  | returned (error : Option Errno)
deriving DecidableEq

structure St (α : Type) where
  core : Core α
  sender : Sender α
  proxy : α → Proxy

def isTarget (call : Call α) (t : α) : Bool := ¬ (t = call.src ∧ has call.flags selfSkip)

def targets (call : Call α) : List α := call.threads.filter (isTarget call)

/-- The state in front of the loop. -/
def init (call : Call α) : St α where
  core := {
    activeThrCount := BitVec.ofNat 64 call.threads.length - if has call.flags selfSkip then 1 else 0
    curThrIdx := 0
    sendMsgCnt := 0
    errorCnt := 0
    freed := false
    doneQueue := 0
    ending := fun _ => .over
    log := []
  }
  sender := .loop call.threads 0
  proxy := fun _ => .idle

/-- `tpt_msg_cbsend` up to the loop. -/
def start (call : Call α) (allocated : Bool) : Option (St α) :=
  if entry call allocated = .broadcast then some (init call) else none

/-- The result of `tpt_msg_send` to `t`. -/
def sendStep (call : Call α) (written : Bool) (s : St α) (t : α) (todo : List α) (err : Nat) : St α :=
  match tptMsgSend call.running call.flags t call.src written with
  | .direct => ⟨s.core.emit (.sent t), .wait t todo err, Function.update s.proxy t .pending⟩
  | .queued => ⟨s.core.emit (.sent t), .loop todo err, Function.update s.proxy t .pending⟩
  | .failed => ⟨s.core.emit (.failed t), .failed t todo err, s.proxy⟩

def senderStep (call : Call α) (written : Bool) (s : St α) : Option (St α) :=
  match s.sender with
  | .loop [] err => some { s with sender := .joined err }
  | .loop (t :: todo) err =>
    if isTarget call t then
      let core := { s.core.touch with sendMsgCnt := s.core.sendMsgCnt + 1 }
      some { s with core := core, sender := .send t todo err }
    else some { s with sender := .loop todo err }
  | .send t todo err => some (sendStep call written s t todo err)
  | .wait t todo err =>
    -- the direct call returns
    if s.proxy t = .left ∧ s.core.ending (.proxy t) = .over then
      some { s with sender := .loop todo err }
    else none
  | .failed _ todo err =>
    let core := { s.core.touch with
      sendMsgCnt := s.core.sendMsgCnt - 1, errorCnt := s.core.errorCnt + 1 }
    some { s with core := core, sender := .loop todo (err + 1) }
  | .joined err =>
    if err = 0 then some { s with sender := .returned none }
    else some { s with core := s.core.touch, sender := .dec err s.core.sendMsgCnt }
  | .dec err cnt => some { s with core := s.core.activeThrCountDec .sender err, sender := .counted cnt }
  | .counted cnt =>
    if s.core.ending .sender = .over then
      some { s with sender := .returned (if cnt = 0 then some .espipe else none) }
    else none
  | .returned _ => none

def proxyStep (t : α) (s : St α) : Option (St α) :=
  match s.proxy t with
  | .idle => none
  | .pending => some ⟨s.core.touch.emit (.call t), s.sender, Function.update s.proxy t .inCb⟩
  | .inCb => some ⟨s.core.emit (.ret t), s.sender, Function.update s.proxy t .dec⟩
  | .dec => some ⟨s.core.activeThrCountDec (.proxy t) 1, s.sender, Function.update s.proxy t .left⟩
  | .left => none

/-- Who moves, and whether a write to a queue in that step succeeds. -/
inductive Action (α : Type) where
  | sender (written : Bool)
  | proxy (t : α)
  | ending (who : Who α) (written : Bool)
  | receive

def step (call : Call α) : Action α → St α → Option (St α)
  | .sender written, s => senderStep call written s
  | .proxy t, s => proxyStep t s
  | .ending who written, s => (s.core.endStep call who written).map fun core => { s with core := core }
  | .receive, s => s.core.receive.map fun core => { s with core := core }

end Broadcast

end Threadpool
