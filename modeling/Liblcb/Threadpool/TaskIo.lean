import Liblcb.Lib.Transition
import Liblcb.Lib.Buffer

/-!
# I/O tasks

`tp_task_handler` of `threadpool_task.c` with `tp_task_start_ex` and the macros of `io_buf.h`, for
tasks that receive or send, and for callbacks that leave the buffer alone and return
`TP_TASK_CB_CONTINUE`.

An attempt begins with an event, or with a direct call from `tp_task_start_ex`, and goes from one
system call to the next.  The environment says which event comes and what a system call returns.  Which
events are enabled is not part of the model: any event can come at any time between two attempts.
-/

namespace TaskIo

/-! ## `io_buf_t` -/

/-- `io_buf_t`; its size is the one of its data. -/
structure IoBuf where
  data : List UInt8
  used : Nat
  offset : Nat
  transferSize : Nat

def IoBuf.size (buf : IoBuf) : Nat := buf.data.length

def valueInRangeInc (val max size : Nat) : Nat :=
  if max > val ∧ max - val > size then val + size else max

def valueInRangeDec (val size : Nat) : Nat := if val > size then val - size else 0

def IoBuf.usedInc (buf : IoBuf) (size : Nat) : IoBuf :=
  { buf with used := valueInRangeInc buf.used buf.size size }

def IoBuf.offsetInc (buf : IoBuf) (size : Nat) : IoBuf :=
  { buf with offset := valueInRangeInc buf.offset buf.size size }

def IoBuf.trSizeDec (buf : IoBuf) (size : Nat) : IoBuf :=
  { buf with transferSize := valueInRangeDec buf.transferSize size }

/-! ## Errors -/

def EINTR : Nat := 4
def EAGAIN : Nat := 11
def EWOULDBLOCK : Nat := 11
def EBUSY : Nat := 16
def EINVAL : Nat := 22
def ETIMEDOUT : Nat := 110

def sktErrFilter (error : Nat) : Nat :=
  if error = EAGAIN ∨ error = EWOULDBLOCK ∨ error = EBUSY ∨ error = EINTR then 0 else error

/-! ## Tasks -/

/-- The handler of the task: `tp_task_rw_handler` or `tp_task_sr_handler`. -/
inductive HType
  /-- `pread`, `pwrite` -/
  | rw
  /-- `recv`, `send` -/
  | sr
  deriving DecidableEq

inductive Event
  | read
  | write
  deriving DecidableEq

structure Task where
  type : HType
  event : Event
  afterEveryRead : Bool
  /-- the position in the file -/
  offset : Nat
  buf : IoBuf
  totTransferedSize : Nat

/-- The flags `TP_TASK_IOF_F_SYS` and `TP_TASK_IOF_F_BUF`. -/
structure Eof where
  sys : Bool
  buf : Bool
  deriving DecidableEq

inductive Act
  /-- A system call for `data[offset..offset + size)`, at a position in the file where it takes one, and
  the bytes it moved -/
  | call (offset size : Nat) (position : Option Nat) (bytes : List UInt8)
  /-- `cb_func` -/
  | callback (error : Nat) (eof : Eof) (transferedSize : Nat)

/-- The local variables of `tp_task_handler`. -/
structure Transfer where
  data2transferSize : Nat
  transferedSize : Nat
  error : Nat
  eof : Eof

inductive Stage
  /-- between two attempts -/
  | idle
  /-- before a system call of the transfer loop -/
  | transfer (io : Transfer)

structure Conf where
  stage : Stage
  task : Task
  /-- what has been done, the last first -/
  log : List Act

/-- `tp_event_t` -/
structure TpEvent where
  /-- `TP_EV_TIMER`; otherwise it is the event of the task -/
  timer : Bool
  /-- `TP_F_EOF` -/
  eof : Bool
  /-- `fflags` when `TP_F_ERROR` is set -/
  error : Option Nat
  data : Nat

/-- What a system call returns. -/
inductive Ios
  /-- -1, with `errno` -/
  | error (errno : Nat)
  /-- `pread`, `recv`: the bytes that are in the buffer now -/
  | read (bytes : List UInt8)
  /-- `pwrite`, `send` -/
  | write (size : Nat)

/-! ## `tp_task_handler` -/

/-- `tp_task_handler_pre_int`: the error, the flags and the size. -/
def tpTaskHandlerPreInt (ev : TpEvent) : Nat × Eof × Nat :=
  let eof := { sys := ev.eof, buf := false }
  -- Timeout!
  if ev.timer then (ETIMEDOUT, eof, 0)
  else (ev.error.getD 0, eof, ev.data)

def callCb (c : Conf) (io : Transfer) : Conf where
  stage := .idle
  task := { c.task with totTransferedSize := 0 }
  log := .callback io.error io.eof (io.transferedSize + c.task.totTransferedSize) :: c.log

/-- The exits of `tp_task_handler` that save the size for a later callback. -/
def saveTransfered (c : Conf) (io : Transfer) : Conf :=
  { c with
    stage := .idle
    task := { c.task with totTransferedSize := c.task.totTransferedSize + io.transferedSize } }

/-- The condition of the transfer loop. -/
def transferLoop (c : Conf) (io : Transfer) : Conf :=
  if io.transferedSize < io.data2transferSize then { c with stage := .transfer io }
  else saveTransfered c io

/-- `tp_task_handler` for an event, up to its loop. -/
def tpTaskHandler (c : Conf) (ev : TpEvent) : Conf :=
  let (error, eof, data2transferSize) := tpTaskHandlerPreInt ev
  -- Ignore the error if data can be transferred.
  if data2transferSize = 0 ∨ c.task.buf.transferSize = 0 then
    callCb c { data2transferSize, transferedSize := 0, error, eof }
  else
    transferLoop c {
      data2transferSize := min data2transferSize c.task.buf.transferSize
      transferedSize := 0
      error
      eof }

/-- `pread` and `pwrite` take the position in the file. -/
def HType.position : HType → Nat → Option Nat
  | .rw, offset => some offset
  | .sr, _ => none

/-- The system call of the loop has moved the bytes. -/
def Conf.called (c : Conf) (bytes : List UInt8) : Conf :=
  let position := c.task.type.position c.task.offset
  { c with log := .call c.task.buf.offset c.task.buf.transferSize position bytes :: c.log }

def errOut (c : Conf) (io : Transfer) (errno : Nat) : Conf :=
  let error := sktErrFilter (if errno = 0 then EINVAL else errno)
  if error = 0 then saveTransfered c io else callCb c { io with error }

/-- The loop of `TP_EV_READ` after `pread` or `recv`. -/
def readPass (c : Conf) (io : Transfer) (bytes : List UInt8) : Conf :=
  let ios := bytes.length
  let task := c.task
  let c := c.called bytes
  -- All data read.
  if ios = 0 then
    if task.buf.transferSize ≠ 0 then callCb c { io with eof := { io.eof with buf := true } }
    else callCb c io
  else
    let io := { io with transferedSize := io.transferedSize + ios }
    let filled : IoBuf := { task.buf with data := Buffer.splice task.buf.data task.buf.offset bytes }
    let buf : IoBuf := ((filled.usedInc ios).offsetInc ios).trSizeDec ios
    let c := { c with task := { task with offset := task.offset + ios, buf } }
    if buf.transferSize = 0 ∨ task.afterEveryRead then callCb c io
    else transferLoop c io

/-- The loop of `TP_EV_WRITE` after `pwrite` or `send`. -/
def writePass (c : Conf) (io : Transfer) (ios : Nat) : Conf :=
  let task := c.task
  let c := c.called ((task.buf.data.drop task.buf.offset).take ios)
  -- All data written.
  if ios = 0 then callCb c io
  else
    let io := { io with transferedSize := io.transferedSize + ios }
    let buf := (task.buf.offsetInc ios).trSizeDec ios
    let c := { c with task := { task with offset := task.offset + ios, buf } }
    if buf.transferSize = 0 then callCb c io
    else transferLoop c io

/-! ## Runs -/

inductive Input
  | event (ev : TpEvent)
  | ios (ios : Ios)

/-- A system call returns at most the size it was asked for. -/
def step (input : Input) (c : Conf) : Option Conf :=
  match c.stage, input with
  | .idle, .event ev => some (tpTaskHandler c ev)
  | .transfer io, .ios (.error errno) => some (errOut (c.called []) io errno)
  | .transfer io, .ios (.read bytes) =>
    if c.task.event = .read ∧ bytes.length ≤ c.task.buf.transferSize then some (readPass c io bytes)
    else none
  | .transfer io, .ios (.write size) =>
    if c.task.event = .write ∧ size ≤ c.task.buf.transferSize then some (writePass c io size)
    else none
  | _, _ => none

/-- `tp_task_start_ex` for a task of one of the two handlers, with no bytes counted yet; `none` for
`EINVAL`. -/
def tpTaskStartEx (sheduleFirstIo : Bool) (task : Task) : Option Conf :=
  let task := { task with totTransferedSize := 0 }
  if sheduleFirstIo ∨ task.buf.transferSize = 0 then some { stage := .idle, task, log := [] }
  else if task.buf.offset + task.buf.transferSize > task.buf.size then none
  else some (transferLoop { stage := .idle, task, log := [] } {
    data2transferSize := task.buf.transferSize
    transferedSize := 0
    error := 0
    eof := { sys := false, buf := false } })

end TaskIo
