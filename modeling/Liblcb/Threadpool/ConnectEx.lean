import Liblcb.Lib.Transition

/-!
# Connecting to one of several addresses

`tp_task_connect_ex_create` and its handler in `threadpool_task.c`, for parameters without a time
limit.  Events can be registered, and a callback about a failure returns `TP_TASK_CB_CONTINUE`.

A configuration is what the task holds between two passes of the loops of create and of the handler,
and between two events.  The environment says what `skt_connect` returns in a pass that calls it, and
which of the registered events comes.
-/

namespace ConnectEx

/-- `tp_task_conn_prms_t` with its flags; `time_limit` is 0. -/
structure ConnPrms where
  retryDelay : Nat
  maxTries : Nat
  initialDelay : Bool
  roundRobin : Bool
  addrsCount : Nat

/-- What the functions use of `tp_task_t`. -/
structure Task where
  /-- `tp_data.ident`: the socket, known by the index of the address it connects to, or -1 -/
  ident : Option Nat
  afterEveryRead : Bool
  /-- the number of the try -/
  offset : Nat
  /-- the index of the address -/
  totTransferedSize : Nat

/-- An error code that is not 0: -1, or an errno. -/
inductive Error
  | noMore
  | sys (errno : Nat)
  deriving DecidableEq

def ETIMEDOUT : Error := .sys 110

inductive Act
  /-- `skt_connect` of an address -/
  | attempt (addrIndex : Nat)
  /-- `cb_func`, with the socket the task has then -/
  | callback (error : Option Error) (ident : Option Nat) (addrIndex : Nat)
  /-- create returns -1 -/
  | createFails
  deriving DecidableEq

/-- `tp_task_start`: `tp_task_start_ex` that schedules the first I/O. -/
def tpTaskStart (tptask : Task) (offset : Nat) : Task :=
  { tptask with offset := offset, totTransferedSize := 0 }

/-- What `tp_task_connect_ex_start` returns. -/
inductive Start
  | scheduled
  | failed (error : Error)

/-- `try_connect`: the socket is asked for, and I/O starts on it. -/
def tryConnect (tptask : Task) (skt : Option Nat) : Start × Task × List Act :=
  let i := tptask.totTransferedSize
  match skt with
  | some errno => (.failed (.sys errno), tptask, [.attempt i])
  | none => (.scheduled, tpTaskStart { tptask with ident := some i } tptask.offset, [.attempt i])

/-- The next address is due for another round, or for the same one. -/
def ConnPrms.byRounds (prms : ConnPrms) : Bool := prms.maxTries = 0 || prms.roundRobin

def tpTaskConnectExStart (prms : ConnPrms) (tptask : Task) (doConnect : Bool) (skt : Option Nat) :
    Start × Task × List Act :=
  if doConnect then tryConnect tptask skt
  else if tptask.offset = 0 ∧ tptask.totTransferedSize = 0 then
    -- First connect attempt.
    if prms.initialDelay ∧ prms.retryDelay ≠ 0 then (.scheduled, tptask, [])
    else tryConnect tptask skt
  else if prms.byRounds then
    if tptask.totTransferedSize ≥ prms.addrsCount then
      let tptask := { tptask with totTransferedSize := 0, offset := tptask.offset + 1 }
      if prms.maxTries ≠ 0 ∧ tptask.offset ≥ prms.maxTries then (.failed .noMore, tptask, [])
      else if prms.retryDelay ≠ 0 then (.scheduled, tptask, [])
      else tryConnect tptask skt
    else tryConnect tptask skt
  else
    let next := if tptask.offset ≥ prms.maxTries then
        { tptask with totTransferedSize := tptask.totTransferedSize + 1, offset := 0 }
      else tptask
    if tptask.offset ≥ prms.maxTries ∧ next.totTransferedSize ≥ prms.addrsCount then
      (.failed .noMore, next, [])
    else if prms.retryDelay ≠ 0 then (.scheduled, next, [])
    else tryConnect next skt

/-- The step to the next try of both loops. -/
def advance (prms : ConnPrms) (tptask : Task) : Task :=
  if prms.byRounds then { tptask with totTransferedSize := tptask.totTransferedSize + 1 }
  else { tptask with offset := tptask.offset + 1 }

/-! ## Runs -/

inductive Stage
  /-- the loop of `tp_task_connect_ex_create`, before a pass -/
  | creating
  /-- the loop of the handler, before a pass, with the error to report -/
  | failing (error : Error)
  /-- the handler at `connect_ex_start`, after a delay -/
  | retrying
  /-- an event is registered: the delay timer, or I/O on the socket -/
  | waiting
  /-- the last callback has been called, or create has returned an error -/
  | ended
  deriving DecidableEq

structure Conf where
  stage : Stage
  task : Task
  /-- what has been done, the last first -/
  log : List Act

inductive Input
  /-- a pass; what `skt_connect` returns when the pass gets to it, `none` for 0 -/
  | pass (skt : Option Nat)
  /-- the delay timer, or the one of I/O on the socket -/
  | timer
  /-- `TP_EV_WRITE`, with the error of the socket -/
  | write (error : Option Nat)

/-- `tp_task_connect_ex_create`, up to its loop. -/
def tpTaskConnectExCreate (prms : ConnPrms) (afterEveryRead : Bool) : Option Conf :=
  if prms.initialDelay ∧ prms.retryDelay = 0 then none
  else some {
    stage := .creating
    task := { ident := none, afterEveryRead, offset := 0, totTransferedSize := 0 }
    log := [] }

/-- The configuration after `tp_task_connect_ex_start` returned to a loop. -/
def Conf.afterStart (c : Conf) (r : Start × Task × List Act) : Conf :=
  { stage := match r.1 with
      | .scheduled => .waiting
      | .failed error => .failing error
    task := r.2.1
    log := r.2.2 ++ c.log }

/-- A pass of the loop of create. -/
def createPass (prms : ConnPrms) (c : Conf) (skt : Option Nat) : Conf :=
  let r := tpTaskConnectExStart prms c.task false skt
  match r.1 with
  | .scheduled => c.afterStart r
  | .failed .noMore => { stage := .ended, task := r.2.1, log := .createFails :: (r.2.2 ++ c.log) }
  | .failed (.sys _) =>
    { stage := .creating, task := advance prms r.2.1, log := r.2.2 ++ c.log }

/-- A pass of the loop of `tp_task_connect_ex_handler`. -/
def handlerPass (prms : ConnPrms) (c : Conf) (error : Error) (skt : Option Nat) : Conf :=
  let log := if error = .noMore ∨ c.task.afterEveryRead then
      .callback (some error) c.task.ident c.task.totTransferedSize :: c.log
    else c.log
  if error = .noMore then { c with stage := .ended, log := log }
  else Conf.afterStart { c with log := log }
    (tpTaskConnectExStart prms (advance prms c.task) false skt)

/-- The events the handler gets: the socket is closed when it failed. -/
def eventFails (c : Conf) (error : Error) : Conf :=
  { c with stage := .failing error, task := { c.task with ident := none } }

def step (prms : ConnPrms) (input : Input) (c : Conf) : Option Conf :=
  match c.stage, input with
  | .creating, .pass skt => some (createPass prms c skt)
  | .failing error, .pass skt => some (handlerPass prms c error skt)
  | .retrying, .pass skt => some (c.afterStart (tpTaskConnectExStart prms c.task true skt))
  | .waiting, .timer =>
    match c.task.ident with
    | none => some { c with stage := .retrying }
    | some _ => some (eventFails c ETIMEDOUT)
  | .waiting, .write error =>
    match c.task.ident, error with
    | none, _ => none
    | some _, none =>
      some { c with
        stage := .ended
        log := .callback none c.task.ident c.task.totTransferedSize :: c.log }
    | some _, some errno => some (eventFails c (.sys errno))
  | _, _ => none

/-!
# The schedule of the addresses

What the parameters promise: attempt `k` is for one address, in rounds over all of them or try by try.
The task keeps its place in this schedule in two fields, and `tp_task_start` clears the one with the
address.  So the place is kept as long as no event comes for a socket of another address than the
first.
-/

/-- The address of attempt `k`; none is left after `maxTries` for each address. -/
def schedule (prms : ConnPrms) (k : Nat) : Option Nat :=
  if prms.byRounds then
    if prms.maxTries = 0 ∨ k < prms.maxTries * prms.addrsCount then some (k % prms.addrsCount)
    else none
  else if k < prms.maxTries * prms.addrsCount then some (k / prms.maxTries)
  else none

/-- The addresses that have been tried, the last first. -/
def attempts : List Act → List Nat
  | [] => []
  | .attempt i :: log => i :: attempts log
  | .callback _ _ _ :: log => attempts log
  | .createFails :: log => attempts log

/-- The attempts are those of the schedule, each in its place. -/
def Follows (prms : ConnPrms) : List Nat → Prop
  | [] => True
  | i :: is => schedule prms is.length = some i ∧ Follows prms is

/-- The caller is told that there are no more tries. -/
def Act.isEnd : Act → Bool
  | .callback (some .noMore) _ _ => true
  | .createFails => true
  | _ => false

/-- The caller is told that a socket is connected. -/
def Act.isConnected : Act → Bool
  | .callback none _ _ => true
  | _ => false

/-! ## Places -/

/-- The task is at attempt `k`. -/
def At (prms : ConnPrms) (k offset addr : Nat) : Prop :=
  addr < prms.addrsCount ∧
    if prms.byRounds then
      k = offset * prms.addrsCount + addr ∧ (prms.maxTries = 0 ∨ offset < prms.maxTries)
    else k = addr * prms.maxTries + offset ∧ offset < prms.maxTries

/-- The task has moved on to attempt `k`, and may have to begin another round or address for it. -/
def Due (prms : ConnPrms) (k offset addr : Nat) : Prop :=
  if prms.byRounds then
    addr ≤ prms.addrsCount ∧ k = offset * prms.addrsCount + addr ∧
      (prms.maxTries = 0 ∨ offset < prms.maxTries)
  else addr < prms.addrsCount ∧ k = addr * prms.maxTries + offset ∧ offset ≤ prms.maxTries

variable {prms : ConnPrms} {k offset addr : Nat}

theorem maxTries_pos (h : prms.byRounds = false) : 0 < prms.maxTries := by
  simp only [ConnPrms.byRounds, Bool.or_eq_false_iff, decide_eq_false_iff_not] at h
  omega

theorem At.schedule (h : At prms k offset addr) : schedule prms k = some addr := by
  obtain ⟨haddr, h⟩ := h
  unfold ConnectEx.schedule
  cases hr : prms.byRounds with
  | true =>
    rw [hr, if_pos rfl] at h
    obtain ⟨hk, htries⟩ := h
    have hbound : prms.maxTries = 0 ∨ k < prms.maxTries * prms.addrsCount := by
      cases htries with
      | inl hzero => exact .inl hzero
      | inr hlt =>
        -- The rounds before this one and this one are no more than all rounds.
        have hround : (offset + 1) * prms.addrsCount ≤ prms.maxTries * prms.addrsCount :=
          Nat.mul_le_mul_right _ hlt
        rw [Nat.succ_mul] at hround
        exact .inr (by omega)
    rw [if_pos rfl, if_pos hbound, hk, Nat.mul_comm, Nat.mul_add_mod, Nat.mod_eq_of_lt haddr]
  | false =>
    rw [hr, if_neg Bool.false_ne_true] at h
    obtain ⟨hk, hlt⟩ := h
    have hpos := maxTries_pos hr
    have hall : (addr + 1) * prms.maxTries ≤ prms.addrsCount * prms.maxTries :=
      Nat.mul_le_mul_right _ haddr
    rw [Nat.succ_mul, Nat.mul_comm prms.addrsCount] at hall
    rw [if_neg Bool.false_ne_true, if_pos (by omega), hk, Nat.mul_comm,
      Nat.mul_add_div hpos, Nat.div_eq_of_lt hlt, Nat.add_zero]

theorem At.first (hn : 0 < prms.addrsCount) : At prms 0 0 0 := by
  refine ⟨hn, ?_⟩
  cases hr : prms.byRounds with
  | true =>
    rw [if_pos rfl]
    exact ⟨by omega, by omega⟩
  | false =>
    rw [if_neg Bool.false_ne_true]
    exact ⟨by omega, maxTries_pos hr⟩

theorem Due.first : 0 < prms.addrsCount → Due prms 0 0 0 := by
  intro hn
  unfold Due
  cases hr : prms.byRounds with
  | true =>
    rw [if_pos rfl]
    exact ⟨by omega, by omega, by omega⟩
  | false =>
    rw [if_neg Bool.false_ne_true]
    exact ⟨hn, by omega, by omega⟩

theorem At.advance {t : Task} (h : At prms k t.offset t.totTransferedSize) :
    Due prms (k + 1) (advance prms t).offset (advance prms t).totTransferedSize := by
  obtain ⟨haddr, h⟩ := h
  unfold Due ConnectEx.advance
  cases hr : prms.byRounds with
  | true =>
    rw [hr, if_pos rfl] at h
    rw [if_pos rfl, if_pos rfl]
    exact ⟨haddr, by dsimp only; omega, h.2⟩
  | false =>
    rw [hr, if_neg Bool.false_ne_true] at h
    rw [if_neg Bool.false_ne_true, if_neg Bool.false_ne_true]
    exact ⟨haddr, by dsimp only; omega, h.2⟩

/-! ## `tp_task_connect_ex_start` -/

/-- What `tp_task_connect_ex_start` can do for a task that attempt `k` is due for. -/
inductive StartSpec (prms : ConnPrms) (k : Nat) (t : Task) (skt : Option Nat) :
    Start × Task × List Act → Prop
  /-- a delay before the attempt -/
  | delay (t' : Task) (hat : At prms k t'.offset t'.totTransferedSize) (hident : t'.ident = t.ident) :
      StartSpec prms k t skt (.scheduled, t', [])
  /-- the attempt -/
  | attempt (t' : Task) (hat : At prms k t'.offset t'.totTransferedSize) (hident : t'.ident = t.ident) :
      StartSpec prms k t skt (tryConnect t' skt)
  /-- the schedule has no attempt `k` -/
  | noMore (t' : Task) (hnone : schedule prms k = none) (hident : t'.ident = t.ident) :
      StartSpec prms k t skt (.failed .noMore, t', [])

theorem startSpec_of_at {t t' : Task} {skt : Option Nat} {delay : Prop} [Decidable delay]
    (hat : At prms k t'.offset t'.totTransferedSize) (hident : t'.ident = t.ident) :
    StartSpec prms k t skt (if delay then (.scheduled, t', []) else tryConnect t' skt) := by
  split
  · exact .delay t' hat hident
  · exact .attempt t' hat hident

theorem schedule_none_of_rounds (hr : prms.byRounds = true) (hm : prms.maxTries ≠ 0)
    (hk : prms.maxTries * prms.addrsCount ≤ k) : schedule prms k = none := by
  rw [schedule, hr, if_pos rfl, if_neg (by omega)]

theorem schedule_none_of_tries (hr : prms.byRounds = false)
    (hk : prms.maxTries * prms.addrsCount ≤ k) : schedule prms k = none := by
  rw [schedule, hr, if_neg Bool.false_ne_true, if_neg (by omega)]

theorem startSpec (hn : 0 < prms.addrsCount) {t : Task} (skt : Option Nat)
    (hdue : Due prms k t.offset t.totTransferedSize) :
    StartSpec prms k t skt (tpTaskConnectExStart prms t false skt) := by
  rw [tpTaskConnectExStart, if_neg Bool.false_ne_true]
  by_cases hfirst : t.offset = 0 ∧ t.totTransferedSize = 0
  · -- Both fields are 0 before the first attempt only.
    have hzero : k = 0 := by
      unfold Due at hdue
      rw [hfirst.1, hfirst.2] at hdue
      split at hdue
      · omega
      · omega
    have hat : At prms k t.offset t.totTransferedSize := by
      rw [hzero, hfirst.1, hfirst.2]
      exact At.first hn
    rw [if_pos hfirst]
    exact startSpec_of_at hat rfl
  rw [if_neg hfirst]
  unfold Due at hdue
  cases hr : prms.byRounds with
  | true =>
    rw [hr, if_pos rfl] at hdue
    obtain ⟨haddr, hk, htries⟩ := hdue
    rw [if_pos rfl]
    by_cases hround : t.totTransferedSize ≥ prms.addrsCount
    · -- The round is over.
      have hlast : t.totTransferedSize = prms.addrsCount := by omega
      have hnext : k = (t.offset + 1) * prms.addrsCount := by
        rw [Nat.succ_mul]
        omega
      rw [if_pos hround]
      dsimp only
      by_cases hmore : prms.maxTries ≠ 0 ∧ t.offset + 1 ≥ prms.maxTries
      · rw [if_pos hmore]
        apply StartSpec.noMore
        · apply schedule_none_of_rounds hr hmore.1
          rw [hnext]
          exact Nat.mul_le_mul_right _ hmore.2
        · rfl
      · rw [if_neg hmore]
        apply startSpec_of_at
        · refine ⟨hn, ?_⟩
          rw [hr, if_pos rfl]
          exact ⟨by dsimp only; omega, by dsimp only; omega⟩
        · rfl
    · rw [if_neg hround]
      apply StartSpec.attempt
      · refine ⟨by omega, ?_⟩
        rw [hr, if_pos rfl]
        exact ⟨hk, htries⟩
      · rfl
  | false =>
    rw [hr, if_neg Bool.false_ne_true] at hdue
    obtain ⟨haddr, hk, htries⟩ := hdue
    have hpos := maxTries_pos hr
    rw [if_neg Bool.false_ne_true]
    dsimp only
    by_cases hlast : t.offset ≥ prms.maxTries
    · -- All tries of this address have been made.
      have hnext : k = (t.totTransferedSize + 1) * prms.maxTries := by
        rw [Nat.succ_mul]
        omega
      rw [if_pos hlast]
      by_cases hmore : t.totTransferedSize + 1 ≥ prms.addrsCount
      · rw [if_pos ⟨hlast, hmore⟩]
        apply StartSpec.noMore
        · apply schedule_none_of_tries hr
          rw [hnext, Nat.mul_comm]
          exact Nat.mul_le_mul_right _ hmore
        · rfl
      · rw [if_neg (fun h => hmore h.2)]
        apply startSpec_of_at
        · refine ⟨by dsimp only; omega, ?_⟩
          rw [hr, if_neg Bool.false_ne_true]
          exact ⟨by dsimp only; omega, hpos⟩
        · rfl
    · rw [if_neg hlast, if_neg (fun h => hlast h.1)]
      apply startSpec_of_at
      · refine ⟨haddr, ?_⟩
        rw [hr, if_neg Bool.false_ne_true]
        exact ⟨hk, by omega⟩
      · rfl

end ConnectEx
