import Liblcb.Utils.Wire
import Liblcb.Lib.Transition

/-!
# Messages between threads

The flags of `threadpool/threadpool_msg_sys.h` and `tpt_msg_send`.  Threads are a type with decidable
equality; whether a write to a queue succeeds is an argument.  Every thread of a pool, its virtual one
included, has a message queue from `tp_create` on.
-/

namespace Threadpool

/-- `TP_MSG_F_*`, `TP_BMSG_F_*` and `TP_CBMSG_F_*`. -/
def selfDirect : BitVec 32 := 1#32
def force : BitVec 32 := 2#32
def failDirect : BitVec 32 := 4#32
def selfSkip : BitVec 32 := 0x100#32
def sync : BitVec 32 := 0x200#32
def syncUsleep : BitVec 32 := 0x400#32
def oneByOne : BitVec 32 := 0x10000#32

def has (flags flag : BitVec 32) : Bool := flags &&& flag ≠ 0

/-- What becomes of a message: its callback is called at once, it is in the queue of the receiver, or
`tpt_msg_send` returns an error. -/
inductive Delivery where
  | direct
  | queued
  | failed
deriving DecidableEq

section Send

variable {α : Type} [DecidableEq α]

def tptMsgSend (running : α → Bool) (flags : BitVec 32) (dst src : α) (written : Bool) : Delivery :=
  if has flags selfDirect ∧ src = dst then .direct
  else if ¬ running dst then if has flags force then .direct else .failed
  else if written then .queued
  else if has flags failDirect then .direct
  else .failed

/-- The flags of the message that calls `done_cb`. -/
def doneFlags : BitVec 32 := failDirect ||| selfDirect

theorem tptMsgSend_done {running : α → Bool} {dst : α} (hrunning : running dst = true) (src : α)
    (written : Bool) : tptMsgSend running doneFlags dst src written ≠ .failed := by
  have hfail : has doneFlags failDirect = true := by decide
  unfold tptMsgSend
  rw [hfail, hrunning]
  split
  · decide
  · cases written <;> decide

end Send

/-- A call of `tpt_msg_cbsend`: the threads of the pool, the caller, the flags, and which threads run. -/
structure Call (α : Type) where
  threads : List α
  src : α
  flags : BitVec 32
  running : α → Bool
  nodup : threads.Nodup
  length_lt : threads.length < 2 ^ 64
  src_running : running src = true

/-- The branch that `tpt_msg_cbsend` takes. -/
inductive Entry where
  | refused (error : Errno)
  | single
  | oneByOne
  | broadcast
deriving DecidableEq

def entry {α : Type} (call : Call α) (allocated : Bool) : Entry :=
  if has call.flags (sync ||| syncUsleep) then .refused .einval
  else if call.threads.length = 1 then .single
  else if ¬ allocated then .refused .enomem
  else if has call.flags oneByOne then .oneByOne
  else .broadcast

/-- What is seen of a broadcast: a message went to a thread or it failed, `msg_cb` was called on a
thread and returned, `done_cb` was called, the record was freed, and it was used after that. -/
inductive Event (α : Type) where
  | sent (t : α)
  | failed (t : α)
  | call (t : α)
  | ret (t : α)
  | done (sendMsgCnt errorCnt : Nat)
  | free
  | fault
deriving DecidableEq

/-- The processes: `tpt_msg_cbsend` itself, a proxy callback on a thread, and the caller when it takes
a message for `done_cb` from its queue. -/
inductive Who (α : Type) where
  | sender
  | proxy (t : α)
  | caller
deriving DecidableEq

def Who.thread {α : Type} (call : Call α) : Who α → α
  | .proxy t => t
  | _ => call.src

/-- How far a process is that ends the broadcast: it sends the message for `done_cb`, or it runs
`tpt_msg_cb_done_proxy_cb`. -/
inductive Ending where
  | send
  | call
  | inDone
  | over
deriving DecidableEq

/-- The record of a broadcast, `tpt_msg_data_t`; whether it is freed; how many messages for `done_cb`
are in the queue of the caller; who ends the broadcast; and what happened so far, newest first. -/
structure Core (α : Type) where
  activeThrCount : BitVec 64
  curThrIdx : Nat
  sendMsgCnt : Nat
  errorCnt : Nat
  freed : Bool
  doneQueue : Nat
  ending : Who α → Ending
  log : List (Event α)

namespace Core

variable {α : Type}

def emit (c : Core α) (e : Event α) : Core α := { c with log := e :: c.log }

/-- A step that reads or writes the record. -/
def touch (c : Core α) : Core α := if c.freed then c.emit .fault else c

variable [DecidableEq α]

def setEnding (c : Core α) (who : Who α) (e : Ending) : Core α :=
  { c with ending := Function.update c.ending who e }

/-- `tpt_msg_active_thr_count_dec`, up to the message for `done_cb`. -/
def activeThrCountDec (c : Core α) (who : Who α) (n : Nat) : Core α :=
  let active := c.activeThrCount - BitVec.ofNat 64 n
  let c := { c.touch with activeThrCount := active }
  if active = 0 then c.setEnding who .send else c

/-- One step of a process that ends the broadcast. -/
def endStep (call : Call α) (who : Who α) (written : Bool) (c : Core α) : Option (Core α) :=
  match c.ending who with
  | .send =>
    match tptMsgSend call.running doneFlags call.src (who.thread call) written with
    | .direct => some (c.touch.setEnding who .call)
    | .queued => some ({ c.touch with doneQueue := c.doneQueue + 1 }.setEnding who .over)
    | .failed => some (c.touch.setEnding who .over)
  | .call => some ((c.touch.emit (.done c.sendMsgCnt c.errorCnt)).setEnding who .inDone)
  | .inDone => some ({ c.touch.emit .free with freed := true }.setEnding who .over)
  | .over => none

/-- The caller takes a message for `done_cb` from its queue. -/
def receive (c : Core α) : Option (Core α) :=
  if c.ending .caller = .over ∧ c.doneQueue ≠ 0 then
    some ({ c with doneQueue := c.doneQueue - 1 }.setEnding .caller .call)
  else none

end Core

end Threadpool
