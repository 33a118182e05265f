import Liblcb.Threadpool.BroadcastInv

/-!
# Synchronous broadcast

`tpt_msg_bsend_ex` of `threadpool/threadpool_msg_sys.c` with `TP_BMSG_F_SYNC`, as a transition system.
The record is a local variable of the call: it is gone when the call returns.  Locking, unlocking and
each access to the record are steps of their own.
-/

namespace Threadpool

namespace Bsend

variable {α : Type} [DecidableEq α]

/-- A call of `tpt_msg_bsend_ex`: the threads of `tp`, the argument `src`, `tpt_get_current()` of the
calling thread, which is not a thread of a pool where it is `none`, the flags, and which threads run. -/
structure Call (α : Type) where
  threads : List α
  arg : Option α
  current : Option α
  flags : BitVec 32
  running : α → Bool
  nodup : threads.Nodup
  length_lt : threads.length < 2 ^ 64
  is_sync : has flags sync

/-- `src` after `NULL` was replaced. -/
def Call.src (call : Call α) : Option α := call.arg.or call.current

/-- `tpt_msg_active_thr_count_dec`: in front of the lock, of the read and of the write of `-=`, of the
read into `tm`, of the unlock, of the read of `done_cb`, which comes only with `tm = 0`, and returned. -/
inductive Dec where
  | lock
  | load
  | store (v : BitVec 64)
  | reload
  | unlock (tm : BitVec 64)
  | look
  | over (tm : BitVec 64)
deriving DecidableEq

/-- `tpt_msg_sync_proxy_cb` on a thread: its message is in the queue, or it is called, and in front of
the reads of `msg_cb` and `udata`. -/
inductive Proxy where
  | idle
  | queued
  | readCb
  | readUdata
  | inCb
  | dec (d : Dec)
deriving DecidableEq

/-- The loop that waits for the others. -/
inductive Poll where
  | lock
  | reload
  | unlock (tm : BitVec 64)
deriving DecidableEq

/-- The caller.  `single` and `singleCb` are the branch for a pool of one thread; `finish` is in front
of `MTX_DESTROY` and of the return. -/
inductive Sender (α : Type) where
  | single
  | singleCb
  | loop (todo : List α) (err : Nat)
  | send (t : α) (todo : List α) (err : Nat)
  | wait (t : α) (todo : List α) (err : Nat)
  | failed (t : α) (todo : List α) (err : Nat)
  | dec (err : Nat) (d : Dec)
  | poll (p : Poll)
  | finish
  | returned (error : Option Errno) (sendMsgCnt errorCnt : Nat)
deriving DecidableEq

/-- The record, who holds its lock, the processes, and what happened so far, newest first. -/
structure St (α : Type) where
  activeThrCount : BitVec 64
  holder : Option (Who α)
  sendMsgCnt : Nat
  errorCnt : Nat
  sender : Sender α
  proxy : α → Proxy
  log : List (Event α)

def isTarget (call : Call α) (t : α) : Bool := ¬ (call.src = some t ∧ has call.flags selfSkip)

def targets (call : Call α) : List α := call.threads.filter (isTarget call)

/-- The state in front of the loop, or in the branch for one thread. -/
def init (call : Call α) : St α where
  activeThrCount := BitVec.ofNat 64 call.threads.length -
    -- `active_thr_count --` of `tpt_msg_broadcast_send__int`
    if call.src ≠ none ∧ has call.flags selfSkip then 1 else 0
  holder := none
  sendMsgCnt := 0
  errorCnt := 0
  sender :=
    if call.threads.length = 1 ∧ call.src ≠ none then
      if has call.flags selfSkip then .returned none 0 0 else .single
    else .loop call.threads 0
  proxy := fun _ => .idle
  log := []

namespace St

def emit (s : St α) (e : Event α) : St α := { s with log := e :: s.log }

def hasReturned (s : St α) : Bool :=
  match s.sender with
  | .returned _ _ _ => true
  | _ => false

/-- A step that uses the record. -/
def touch (s : St α) : St α := if s.hasReturned then s.emit .fault else s

end St

/-- One step of `tpt_msg_active_thr_count_dec(msg_data, src, dec)`. -/
def decStep (who : Who α) (dec : Nat) (s : St α) : Dec → Option (Dec × St α)
  | .lock => if s.holder = none then some (.load, { s.touch with holder := some who }) else none
  | .load => some (.store s.activeThrCount, s.touch)
  | .store v => some (.reload, { s.touch with activeThrCount := v - BitVec.ofNat 64 dec })
  | .reload => some (.unlock s.activeThrCount, s.touch)
  | .unlock tm => some (if tm = 0 then .look else .over tm, { s.touch with holder := none })
  -- done_cb is NULL
  | .look => some (.over 0, s.touch)
  | .over _ => none

/-- The result of `tpt_msg_send` to `t`. -/
def sendStep (call : Call α) (written : Bool) (s : St α) (t : α) (todo : List α) (err : Nat) : St α :=
  let running (t : Option α) : Bool := t.elim false call.running
  match tptMsgSend running call.flags (some t) call.src written with
  | .direct => { s.emit (.sent t) with
      sender := .wait t todo err, proxy := Function.update s.proxy t .readCb }
  | .queued => { s.emit (.sent t) with
      sender := .loop todo err, proxy := Function.update s.proxy t .queued }
  | .failed => { s.emit (.failed t) with sender := .failed t todo err }

/-- The caller's own callback in a pool of one thread, whose `send_msg_cnt` stays 0. -/
def singleStep (call : Call α) (s : St α) : Option (St α) :=
  match call.src, s.sender with
  | some t, .single => some { s.emit (.call t) with sender := .singleCb }
  | some t, .singleCb => some { s.emit (.ret t) with sender := .returned none s.sendMsgCnt s.errorCnt }
  | _, _ => none

def pollStep (s : St α) : Poll → Option (St α)
  | .lock =>
    if s.holder = none then some { s with holder := some .sender, sender := .poll .reload } else none
  | .reload => some { s with sender := .poll (.unlock s.activeThrCount) }
  | .unlock tm =>
    -- sched_yield() or nanosleep() before the next turn
    some { s with holder := none, sender := if tm = 0 then .finish else .poll .lock }

def senderStep (call : Call α) (written : Bool) (s : St α) : Option (St α) :=
  match s.sender with
  | .single => singleStep call s
  | .singleCb => singleStep call s
  | .loop [] err => some { s with sender := .dec err .lock }
  | .loop (t :: todo) err =>
    if isTarget call t then
      some { s with sendMsgCnt := s.sendMsgCnt + 1, sender := .send t todo err }
    else some { s with sender := .loop todo err }
  | .send t todo err => some (sendStep call written s t todo err)
  | .wait t todo err =>
    -- the direct call returns
    match s.proxy t with
    | .dec (.over _) => some { s with sender := .loop todo err }
    | _ => none
  | .failed _ todo err =>
    some { s with
      sendMsgCnt := s.sendMsgCnt - 1, errorCnt := s.errorCnt + 1, sender := .loop todo (err + 1) }
  | .dec _ (.over tm) => some { s with sender := if tm = 0 then .finish else .poll .lock }
  | .dec err d => (decStep .sender err s d).map fun r => { r.2 with sender := .dec err r.1 }
  | .poll p => pollStep s p
  | .finish => some { s with
      sender := .returned (if s.sendMsgCnt = 0 then some .espipe else none) s.sendMsgCnt s.errorCnt }
  | .returned _ _ _ => none

def proxyStep (call : Call α) (t : α) (s : St α) : Option (St α) :=
  match s.proxy t with
  | .idle => none
  | .queued =>
    -- the calling thread does not serve its queue while it is in the call
    if call.current = some t ∧ ¬ s.hasReturned then none
    else some { s with proxy := Function.update s.proxy t .readCb }
  | .readCb => some { s.touch with proxy := Function.update s.proxy t .readUdata }
  | .readUdata => some { s.touch.emit (.call t) with proxy := Function.update s.proxy t .inCb }
  | .inCb => some { s.emit (.ret t) with proxy := Function.update s.proxy t (.dec .lock) }
  | .dec d => (decStep (.proxy t) 1 s d).map fun r =>
    { r.2 with proxy := Function.update s.proxy t (.dec r.1) }

/-- Who moves, and whether a write to a queue in that step succeeds. -/
inductive Action (α : Type) where
  | sender (written : Bool)
  | proxy (t : α)

def step (call : Call α) : Action α → St α → Option (St α)
  | .sender written, s => senderStep call written s
  | .proxy t, s => proxyStep call t s

/-- Does the caller return while a thread that took the count to zero is still to read `done_cb`? -/
def Action.early (call : Call α) (s : St α) : Action α → Bool
  | .sender _ => s.sender = .finish ∧ ∃ t ∈ call.threads, s.proxy t = .dec .look
  | .proxy _ => false

/-- The steps of a run in which the caller does not return early. -/
def stepLate (call : Call α) (a : Action α) (s : St α) : Option (St α) :=
  if a.early call s then none else step call a s

end Bsend

end Threadpool
