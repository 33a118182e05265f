import Liblcb.Threadpool.Msg
import Liblcb.Threadpool.Ending

/-!
# One by one broadcast

`tpt_msg_cbsend` of `threadpool/threadpool_msg_sys.c` with `TP_CBMSG_F_ONE_BY_ONE`, as a transition
system.  The message carries the walk over the threads: each `tpt_msg_one_by_one_proxy_cb` sends it to
the next one, and the last of them to the caller.  Each step uses the record once at most.
-/

namespace Threadpool

namespace OneByOne

variable {α : Type} [DecidableEq α]

/-- A call, and the threads of the pool that a thread belongs to. -/
structure Walk (α : Type) extends Call α where
  pool : α → List α
  pool_threads : ∀ t ∈ threads, pool t = threads

/-- Where a process is: in `tpt_msg_one_by_one_proxy_cb`, in the loop of
`tpt_msg_one_by_one_send_next__int`, or in `tpt_msg_cbsend`. -/
inductive Pc (α : Type) where
  | idle
  -- `tpt_msg_one_by_one_proxy_cb`
  | pending
  | inCb
  | next
  -- `tpt_msg_one_by_one_send_next__int`
  | walk
  | send (u : α)
  | failed
  -- the caller itself
  | tail
  | tailSend
  | tailFailed
  -- a direct call, and the return with 0
  | wait (u : α)
  | left
  -- `tpt_msg_cbsend`
  | self
  | inSelf
  | exhausted
  | espipe
deriving DecidableEq

structure St (α : Type) where
  core : Core α
  pc : Who α → Pc α

/-- `TP_MSG_F_SELF_DIRECT` without `TP_BMSG_F_SELF_SKIP`: the caller is first. -/
def selfFirst (flags : BitVec 32) : Bool := flags &&& (selfSkip ||| selfDirect) = selfDirect

/-- Neither of the two flags: the caller is last. -/
def selfLast (flags : BitVec 32) : Bool := flags &&& (selfSkip ||| selfDirect) = 0

/-- The threads that a process walks over. -/
def poolOf (w : Walk α) : Who α → List α
  | .proxy t => w.pool t
  | _ => w.threads

def init (w : Walk α) : St α where
  core := {
    activeThrCount := BitVec.ofNat 64 w.threads.length
    curThrIdx := 0
    sendMsgCnt := 0
    errorCnt := 0
    freed := false
    doneQueue := 0
    ending := fun _ => .over
    log := []
  }
  pc := Function.update (fun _ => .idle) .sender (if selfFirst w.flags then .self else .walk)

/-- `tpt_msg_cbsend` up to the first message. -/
def start (w : Walk α) (allocated : Bool) : Option (St α) :=
  if entry w.toCall allocated = .oneByOne then some (init w) else none

namespace St

def goto (s : St α) (who : Who α) (pc : Pc α) : St α := { s with pc := Function.update s.pc who pc }

/-- `tpt_msg_send` of the proxy callback to `u`. -/
def deliver (w : Walk α) (s : St α) (who : Who α) (u : α) (written : Bool) (onError : Pc α) : St α :=
  match tptMsgSend w.running w.flags u (who.thread w.toCall) written with
  | .direct => ({ s with core := s.core.emit (.sent u) }.goto (.proxy u) .pending).goto who (.wait u)
  | .queued => ({ s with core := s.core.emit (.sent u) }.goto (.proxy u) .pending).goto who .left
  | .failed => { s with core := s.core.emit (.failed u) }.goto who onError

/-- The counts after an error of `tpt_msg_send`. -/
def countError (s : St α) : St α :=
  { s with
    core := { s.core.touch with
      sendMsgCnt := s.core.sendMsgCnt - 1
      errorCnt := s.core.errorCnt + 1 } }

/-- The message for `done_cb` is to be sent. -/
def finish (s : St α) (who : Who α) : St α := { s with core := s.core.setEnding who .send }.goto who .left

end St

/-- One turn of the loop of `tpt_msg_one_by_one_send_next__int`. -/
def walkStep (w : Walk α) (who : Who α) (s : St α) : St α :=
  let core := s.core.touch
  match (poolOf w who)[s.core.curThrIdx]? with
  | none => { s with core := core }.goto who (if who = Who.sender then .exhausted else .tail)
  | some u =>
    if u = w.src then { s with core := { core with curThrIdx := core.curThrIdx + 1 } }
    else { s with core := { core with sendMsgCnt := core.sendMsgCnt + 1 } }.goto who (.send u)

/-- The end of `tpt_msg_one_by_one_proxy_cb`: all threads but the caller are done. -/
def tailStep (w : Walk α) (who : Who α) (s : St α) : St α :=
  let core := s.core.touch
  if selfLast w.flags ∧ w.src ≠ who.thread w.toCall then
    { s with core := { core with
      curThrIdx := (poolOf w who).length
      sendMsgCnt := core.sendMsgCnt + 1 } }.goto who .tailSend
  else { s with core := core }.finish who

def procStep (w : Walk α) (who : Who α) (written : Bool) (s : St α) : Option (St α) :=
  match s.pc who with
  | .idle | .left | .espipe => none
  | .pending => some ({ s with core := s.core.touch.emit (.call (who.thread w.toCall)) }.goto who .inCb)
  | .inCb => some ({ s with core := s.core.emit (.ret (who.thread w.toCall)) }.goto who .next)
  | .next =>
    let core := s.core.touch
    some ({ s with core := { core with curThrIdx := core.curThrIdx + 1 } }.goto who .walk)
  | .walk => some (walkStep w who s)
  | .send u => some (s.deliver w who u written .failed)
  | .failed =>
    let s := s.countError
    some ({ s with core := { s.core with curThrIdx := s.core.curThrIdx + 1 } }.goto who .walk)
  | .tail => some (tailStep w who s)
  | .tailSend => some (s.deliver w who w.src written .tailFailed)
  | .tailFailed => some (s.countError.finish who)
  | .wait u =>
    if s.pc (.proxy u) = .left ∧ s.core.ending (.proxy u) = .over then some (s.goto who .left) else none
  | .self =>
    let core := { s.core.touch with sendMsgCnt := s.core.sendMsgCnt + 1 }
    some ({ s with core := core.emit (.call w.src) }.goto who .inSelf)
  | .inSelf => some ({ s with core := s.core.emit (.ret w.src) }.goto who .walk)
  | .exhausted =>
    -- no thread took the message; the record is not freed here
    if selfFirst w.flags then
      some ({ s with core := s.core.touch.emit (.done s.core.sendMsgCnt s.core.errorCnt) }.goto who .left)
    else some (s.goto who .espipe)

/-- Who moves, and whether a write to a queue in that step succeeds. -/
inductive Action (α : Type) where
  | proc (who : Who α) (written : Bool)
  | ending (who : Who α) (written : Bool)
  | receive

def step (w : Walk α) : Action α → St α → Option (St α)
  | .proc who written, s => procStep w who written s
  | .ending who written, s => (s.core.endStep w.toCall who written).map fun core => { s with core := core }
  | .receive, s => s.core.receive.map fun core => { s with core := core }

/-- `tpt_msg_cbsend` for a pool of one thread: what is seen of it, newest first. -/
def single (call : Call α) : List (Event α) :=
  if has call.flags selfSkip then [.done 0 0] else [.done 1 0, .ret call.src, .call call.src]

end OneByOne

end Threadpool

/-!
# The walk of a one by one broadcast

One process at a time has the record: it carries the walk on, or it ends the broadcast.  What it knows
of the threads that are still to come depends on where it is.
-/

namespace Threadpool

def Event.isCall {α : Type} : Event α → Bool
  | .call _ => true
  | _ => false

def Event.isRet {α : Type} : Event α → Bool
  | .ret _ => true
  | _ => false

def Event.isFailed {α : Type} : Event α → Bool
  | .failed _ => true
  | _ => false

namespace OneByOne

variable {α : Type} [DecidableEq α]

def participants (w : Walk α) : List α := w.src :: w.threads.filter (· ≠ w.src)

/-- What was seen before `msg_cb` is called on `t`: it is not running on another thread, and the caller
comes last, or first. -/
structure Turn (w : Walk α) (log : List (Event α)) (t : α) : Prop where
  returned : log.countP Event.isCall = log.countP Event.isRet
  last : selfFirst w.flags = false → Event.call w.src ∉ log
  first : selfFirst w.flags = true → t = w.src ∨ Event.call w.src ∈ log

def Turns (w : Walk α) : List (Event α) → Prop
  | [] => True
  | e :: log => Turns w log ∧ ∀ t, e = .call t → Turn w log t

/-- What is seen of the calls of `msg_cb`. -/
structure Trace (w : Walk α) (log : List (Event α)) : Prop where
  once : ∀ t, log.count (.call t) ≤ 1
  only : ∀ t, Event.call t ∈ log → t ∈ w.threads ∨ t = w.src
  turns : Turns w log
  skip : has w.flags selfSkip → Event.call w.src ∉ log

theorem Trace.cons {w : Walk α} {log : List (Event α)} {e : Event α} (h : Trace w log)
    (he : e.isCall = false) : Trace w (e :: log) := by
  have hne : ∀ t, e ≠ .call t := by
    rintro t rfl
    cases he
  constructor
  case once =>
    intro t
    rw [List.count_cons_of_ne (hne t)]
    exact h.once t
  case only =>
    intro t ht
    exact h.only t ((List.mem_cons.mp ht).resolve_left (Ne.symm (hne t)))
  case turns => exact ⟨h.turns, fun t heq => absurd heq (hne t)⟩
  case skip =>
    intro hskip hmem
    exact h.skip hskip ((List.mem_cons.mp hmem).resolve_left (Ne.symm (hne w.src)))

theorem Trace.call {w : Walk α} {log : List (Event α)} {t : α} (h : Trace w log)
    (hnot : Event.call t ∉ log) (honly : t ∈ w.threads ∨ t = w.src) (hturn : Turn w log t)
    (hskip : has w.flags selfSkip → t ≠ w.src) : Trace w (.call t :: log) := by
  constructor
  case once =>
    intro u
    by_cases hu : u = t
    · rw [hu, List.count_cons_self, List.count_eq_zero_of_not_mem hnot]
    · rw [List.count_cons_of_ne (by simp [Ne.symm hu])]
      exact h.once u
  case only =>
    intro u hmem
    rcases List.mem_cons.mp hmem with heq | hmem
    · cases heq
      exact honly
    · exact h.only u hmem
  case turns =>
    refine ⟨h.turns, ?_⟩
    intro u heq
    cases heq
    exact hturn
  case skip =>
    intro hs hmem
    rcases List.mem_cons.mp hmem with heq | hmem
    · cases heq
      exact hskip hs rfl
    · exact h.skip hs hmem

/-- The threads from `k` on were not called, and the caller was called already if it is to be first. -/
structure Before (w : Walk α) (log : List (Event α)) (k : Nat) : Prop where
  le : k ≤ w.threads.length
  fresh : ∀ j u, k ≤ j → w.threads[j]? = some u → u ≠ w.src → Event.call u ∉ log
  first : selfFirst w.flags = true → Event.call w.src ∈ log
  last : selfFirst w.flags = false → Event.call w.src ∉ log

/-- A process that walks over the threads of the pool: `tpt_msg_cbsend`, or a thread of the pool that
was called. -/
def Walking (w : Walk α) (log : List (Event α)) : Who α → Prop
  | .sender => True
  | .proxy t => t ∈ w.threads ∧ t ≠ w.src ∧ Event.call t ∈ log
  | .caller => False

omit [DecidableEq α] in
theorem Walking.cons {w : Walk α} {log : List (Event α)} {who : Who α} (h : Walking w log who)
    (e : Event α) : Walking w (e :: log) who := by
  cases who with
  | sender => trivial
  | proxy t => exact ⟨h.1, h.2.1, List.mem_cons_of_mem e h.2.2⟩
  | caller => exact h

/-- What a process knows where it is; `False` where it has not the record. -/
def Place (w : Walk α) (log : List (Event α)) (cur : Nat) (who : Who α) : Pc α → Prop
  | .self => who = .sender ∧ selfFirst w.flags ∧ cur ≤ w.threads.length ∧ ∀ t, Event.call t ∉ log
  | .inSelf => who = .sender ∧ Before w log cur
  | .walk => (Walking w log who ∧ Before w log cur) ∨
      (who = .proxy w.src ∧ selfLast w.flags ∧ w.threads.length < cur)
  | .send u => Walking w log who ∧ Before w log cur ∧ w.threads[cur]? = some u ∧ u ≠ w.src
  | .failed => Walking w log who ∧ Before w log (cur + 1)
  | .pending => (∃ t, who = .proxy t ∧ t ≠ w.src ∧ w.threads[cur]? = some t ∧ Before w log cur) ∨
      (who = .proxy w.src ∧ selfLast w.flags ∧ cur = w.threads.length ∧ Event.call w.src ∉ log)
  | .inCb | .next => (Walking w log who ∧ who ≠ .sender ∧ Before w log (cur + 1)) ∨
      (who = .proxy w.src ∧ selfLast w.flags ∧ cur = w.threads.length)
  | .tail => (Walking w log who ∧ who ≠ .sender ∧ Before w log cur) ∨ who = .proxy w.src
  | .tailSend | .tailFailed => Walking w log who ∧ who ≠ .sender ∧ selfLast w.flags ∧
      cur = w.threads.length ∧ Before w log cur
  | _ => False

namespace Pc

/-- A process that has not the record: it did not start, or it waits for a direct call, or it is over. -/
def Quiet (w : Walk α) (who : Who α) : Pc α → Prop
  | .idle => True
  | .wait _ | .left => who ∈ processes (participants w)
  | _ => False

/-- Was the next call of `msg_cb` counted already? -/
def ahead : Pc α → Nat
  | .pending | .send _ | .failed | .tailSend | .tailFailed => 1
  | _ => 0

/-- Is an error seen that is not counted yet? -/
def behind : Pc α → Nat
  | .failed | .tailFailed => 1
  | _ => 0

/-- Is `msg_cb` running? -/
def inside : Pc α → Nat
  | .inCb | .inSelf => 1
  | _ => 0

end Pc

/-- The process `who` has the record, and it does not end the broadcast yet. -/
structure Held (w : Walk α) (s : St α) (who : Who α) : Prop where
  mem : who ∈ processes (participants w)
  quiet : ∀ who', who' ≠ who → (s.pc who').Quiet w who'
  place : Place w s.core.log s.core.curThrIdx who (s.pc who)
  tokens : s.core.tokens (participants w) = 0
  sends : s.core.sendMsgCnt = s.core.log.countP Event.isCall + (s.pc who).ahead
  errors : s.core.log.countP Event.isFailed = s.core.errorCnt + (s.pc who).behind
  calls : s.core.log.countP Event.isCall = s.core.log.countP Event.isRet + (s.pc who).inside

/-- All threads are done, and the broadcast is ended. -/
structure Ended (w : Walk α) (s : St α) : Prop where
  quiet : ∀ who, (s.pc who).Quiet w who
  tokens : s.core.tokens (participants w) = 1
  sends : s.core.sendMsgCnt = s.core.log.countP Event.isCall
  errors : s.core.log.countP Event.isFailed = s.core.errorCnt
  calls : s.core.log.countP Event.isCall = s.core.log.countP Event.isRet

structure Inv (w : Walk α) (s : St α) : Prop where
  core : s.core.Inv (participants w)
  trace : Trace w s.core.log
  phase : (∃ who, Held w s who) ∨ Ended w s

theorem nodup_participants (w : Walk α) : (participants w).Nodup := by
  refine List.nodup_cons.mpr ⟨?_, w.nodup.filter _⟩
  intro hmem
  simpa using (List.mem_filter.mp hmem).2

theorem mem_participants {w : Walk α} {t : α} (ht : t ∈ w.threads ∨ t = w.src) : t ∈ participants w := by
  by_cases hsrc : t = w.src
  · exact hsrc ▸ List.mem_cons_self
  · exact List.mem_cons_of_mem _ (List.mem_filter.mpr ⟨ht.resolve_right hsrc, by simpa using hsrc⟩)

namespace Before

variable {w : Walk α} {log : List (Event α)} {k : Nat}

omit [DecidableEq α] in
theorem mono (h : Before w log k) {k' : Nat} (hk : k ≤ k') (hle : k' ≤ w.threads.length) :
    Before w log k' :=
  ⟨hle, fun j u hj => h.fresh j u (Nat.le_trans hk hj), h.first, h.last⟩

omit [DecidableEq α] in
theorem cons (h : Before w log k) {e : Event α} (he : e.isCall = false) : Before w (e :: log) k := by
  have hne : ∀ t, Event.call t ≠ e := by
    rintro t rfl
    cases he
  constructor
  case le => exact h.le
  case fresh =>
    intro j u hj hget hu hmem
    exact h.fresh j u hj hget hu ((List.mem_cons.mp hmem).resolve_left (hne u))
  case first => exact fun hfirst => List.mem_cons_of_mem e (h.first hfirst)
  case last =>
    intro hlast hmem
    exact h.last hlast ((List.mem_cons.mp hmem).resolve_left (hne w.src))

omit [DecidableEq α] in
theorem call (h : Before w log k) {t : α} (hget : w.threads[k]? = some t) (ht : t ≠ w.src) :
    Before w (.call t :: log) (k + 1) := by
  have hidx : k < w.threads.length := (List.getElem?_eq_some_iff.mp hget).1
  constructor
  case le => exact hidx
  case fresh =>
    intro j u hj hu hsrc hmem
    rcases List.mem_cons.mp hmem with heq | hmem
    · -- a thread has one place only
      cases heq
      have heq := (List.getElem?_inj hidx w.nodup).mp (hget.trans hu.symm)
      omega
    · exact h.fresh j u (by omega) hu hsrc hmem
  case first => exact fun hfirst => List.mem_cons_of_mem _ (h.first hfirst)
  case last =>
    intro hlast hmem
    rcases List.mem_cons.mp hmem with heq | hmem
    · cases heq
      exact ht rfl
    · exact h.last hlast hmem

omit [DecidableEq α] in
theorem turn (h : Before w log k) {t : α} (hcalls : log.countP Event.isCall = log.countP Event.isRet) :
    Turn w log t := ⟨hcalls, h.last, fun hfirst => .inr (h.first hfirst)⟩

end Before

theorem selfLast_iff (flags : BitVec 32) (h : selfLast flags = true) :
    has flags selfSkip = false ∧ selfFirst flags = false := by
  have hzero : flags &&& (selfSkip ||| selfDirect) = 0 := of_decide_eq_true h
  have hskip : flags &&& selfSkip = 0 := by
    have hand := congrArg (· &&& selfSkip) hzero
    simp only [BitVec.and_assoc] at hand
    exact hand
  refine ⟨?_, ?_⟩
  · simp [has, hskip]
  · simp only [selfFirst, hzero]
    decide

theorem selfFirst_iff (flags : BitVec 32) (h : selfFirst flags = true) : has flags selfSkip = false := by
  have hfirst : flags &&& (selfSkip ||| selfDirect) = selfDirect := of_decide_eq_true h
  have hskip : flags &&& selfSkip = 0 := by
    have hand := congrArg (· &&& selfSkip) hfirst
    simp only [BitVec.and_assoc] at hand
    exact hand
  simp [has, hskip]

namespace Held

variable {w : Walk α} {s : St α} {who : Who α}

theorem touch_eq (h : Held w s who) : s.core.touch = s.core :=
  Core.touch_of_not_freed (Core.not_freed h.tokens)

theorem move (h : Held w s who) {core : Core α} {pc : Pc α}
    (hplace : Place w core.log core.curThrIdx who pc) (htokens : core.tokens (participants w) = 0)
    (hsends : core.sendMsgCnt = core.log.countP Event.isCall + pc.ahead)
    (herrors : core.log.countP Event.isFailed = core.errorCnt + pc.behind)
    (hcalls : core.log.countP Event.isCall = core.log.countP Event.isRet + pc.inside) :
    Held w ({ s with core := core }.goto who pc) who := by
  have hself : ({ s with core := core }.goto who pc).pc who = pc := Function.update_self _ _ _
  constructor
  case mem => exact h.mem
  case quiet =>
    intro who' hne
    simp only [St.goto]
    rw [Function.update_of_ne hne]
    exact h.quiet who' hne
  case place =>
    rw [hself]
    exact hplace
  case tokens => exact htokens
  case sends =>
    rw [hself]
    exact hsends
  case errors =>
    rw [hself]
    exact herrors
  case calls =>
    rw [hself]
    exact hcalls

/-- The process hands the record to `u`. -/
theorem pass (h : Held w s who) {u : α} {pc : Pc α} (hpc : pc.Quiet w who) (hne : who ≠ .proxy u)
    (hplace : Place w s.core.log s.core.curThrIdx (.proxy u) .pending)
    (hahead : (s.pc who).ahead = 1) (hbehind : (s.pc who).behind = 0) (hinside : (s.pc who).inside = 0) :
    Held w (({ s with core := s.core.emit (.sent u) }.goto (.proxy u) .pending).goto who pc)
      (.proxy u) := by
  have hself : (({ s with core := s.core.emit (.sent u) }.goto (.proxy u) .pending).goto who pc).pc
      (.proxy u) = .pending := by
    simp only [St.goto]
    rw [Function.update_of_ne (Ne.symm hne), Function.update_self]
  constructor
  case mem =>
    have hmem : u ∈ participants w := by
      rcases hplace with ⟨t, ht, -, hget, -⟩ | ⟨ht, -⟩
      · cases ht
        exact mem_participants (.inl (List.mem_of_getElem? hget))
      · cases ht
        exact mem_participants (.inr rfl)
    simp [processes, hmem]
  case quiet =>
    intro who' hne'
    by_cases hwho : who' = who
    · simp only [St.goto]
      rw [hwho, Function.update_self]
      exact hpc
    · simp only [St.goto]
      rw [Function.update_of_ne hwho, Function.update_of_ne hne']
      exact h.quiet who' hwho
  case place =>
    rw [hself]
    -- the event is no call
    rcases hplace with ⟨t, ht, hsrc, hget, hbefore⟩ | ⟨ht, hlast, hcur, hnot⟩
    · exact .inl ⟨t, ht, hsrc, hget, hbefore.cons rfl⟩
    · refine .inr ⟨ht, hlast, hcur, ?_⟩
      intro hmem
      exact hnot ((List.mem_cons.mp hmem).resolve_left (by simp))
  case tokens => exact h.tokens
  case sends =>
    have hsends := h.sends
    rw [hahead] at hsends
    rw [hself]
    simpa [St.goto, Core.emit, Event.isCall, Pc.ahead] using hsends
  case errors =>
    have herrors := h.errors
    rw [hbehind] at herrors
    rw [hself]
    simpa [St.goto, Core.emit, Event.isFailed, Pc.behind] using herrors
  case calls =>
    have hcalls := h.calls
    rw [hinside] at hcalls
    rw [hself]
    simpa [St.goto, Core.emit, Event.isCall, Event.isRet, Pc.inside] using hcalls

theorem finish (h : Held w s who) {core : Core α} (hcore : core.Inv (participants w))
    (htokens : core.tokens (participants w) = 0)
    (hsends : core.sendMsgCnt = core.log.countP Event.isCall)
    (herrors : core.log.countP Event.isFailed = core.errorCnt)
    (hcalls : core.log.countP Event.isCall = core.log.countP Event.isRet) :
    ({ s with core := core }.finish who).core.Inv (participants w) ∧
      Ended w ({ s with core := core }.finish who) := by
  have hstart := hcore.start (nodup_participants w) htokens h.mem
  refine ⟨hstart.1, ?_, hstart.2, hsends, herrors, hcalls⟩
  intro who'
  by_cases hne : who' = who
  · simp only [St.finish, St.goto]
    rw [hne, Function.update_self]
    exact h.mem
  · simp only [St.finish, St.goto]
    rw [Function.update_of_ne hne]
    exact h.quiet who' hne

end Held

/-! ## The steps -/

namespace Inv

variable {w : Walk α} {s : St α}

theorem of_left (h : Inv w s) {who : Who α} (hquiet : (s.pc who).Quiet w who)
    (hmem : who ∈ processes (participants w)) : Inv w (s.goto who .left) := by
  have hpc : ∀ who', (s.pc who').Quiet w who' → ((s.goto who .left).pc who').Quiet w who' := by
    intro who' hq
    by_cases hne : who' = who
    · simp only [St.goto]
      rw [hne, Function.update_self]
      exact hmem
    · simp only [St.goto]
      rw [Function.update_of_ne hne]
      exact hq
  refine ⟨h.core, h.trace, ?_⟩
  rcases h.phase with ⟨who', hheld⟩ | hended
  · -- the process that has the record is another one
    have hne : who' ≠ who := by
      rintro rfl
      have hplace := hheld.place
      cases hcur : s.pc who' <;> rw [hcur] at hplace hquiet <;> first | exact hplace | exact hquiet
    have hsame : (s.goto who .left).pc who' = s.pc who' := Function.update_of_ne hne _ _
    refine .inl ⟨who', hheld.mem, ?_, ?_, hheld.tokens, ?_, ?_, ?_⟩
    · intro who'' hne'
      exact hpc who'' (hheld.quiet who'' hne')
    · rw [hsame]
      exact hheld.place
    · rw [hsame]
      exact hheld.sends
    · rw [hsame]
      exact hheld.errors
    · rw [hsame]
      exact hheld.calls
  · exact .inr ⟨fun who' => hpc who' (hended.quiet who'), hended.tokens, hended.sends, hended.errors,
      hended.calls⟩

end Inv

end OneByOne

end Threadpool
