import Mathlib.Logic.Function.Basic
import Liblcb.Proto.Dns

/-!
# The DNS resolver

The cache, the tasks and the events of `proto/dns_resolv.c`.  Events are complete: a callback of the
user does not enter the resolver again.  A cache entry is named by its index, since the resolver never
removes one; a task is named by its slot, which is its id on the wire.  What the clock, the allocator,
the timers and the socket answer is a function of the number of questions asked so far.  The trace
keeps what the users see, and the places where the code leaves its own path.
-/

namespace Dns.Resolv

open Mem Wire

abbrev TaskId := BitVec 16

def maxAddrs : Nat := 64
def cacheAlloc : Nat := 8
def ttlMin : Nat := 4
def ttlMax : Nat := 604800

def rcodeNoerror : Byte := 0x00#8
def rcodeNxdomain : Byte := 0x03#8

inductive Family where
  | inet
  | inet6
  | other
deriving DecidableEq

/-- `sockaddr_storage_t`. -/
inductive SockAddr where
  | unix (path : List Byte)
  | inet (addr : BitVec 32) (port : BitVec 16)
  | inet6 (addr : BitVec 128) (port : BitVec 16)
  | other
deriving DecidableEq

def addrPortIsEq : SockAddr → SockAddr → Bool
  | .other, _ => false
  | a, b => a = b

/-- `dns_rslvr_cache_addr_t`. -/
structure CacheAddr where
  validUntil : Int
  family : Family
  addr : List Byte
deriving DecidableEq

/-- `dns_rslvr_cache_addr_cmp` finds no difference. -/
def cacheAddrCmp (a1 a2 : CacheAddr) : Bool :=
  a1.family = a2.family ∧ a1.family ≠ .other ∧ a1.addr = a2.addr

/-- What `pdata` points to: the name of an alias, or addresses. -/
inductive Data where
  | alias (name : List Byte)
  | addrs (addrs : List CacheAddr)

def Data.count : Data → Nat
  | .alias name => name.length
  | .addrs l => l.length

def Data.isAlias : Data → Bool
  | .alias _ => true
  | .addrs _ => false

/-- `dns_rslvr_cache_entry_t`. -/
structure Entry where
  name : List Byte
  updating : Bool
  cname : Bool
  data : Data
  dataAllocated : Nat
  validUntil : Int
  /-- the tasks that wait for the entry, the newest first -/
  task : List TaskId

/-- `dns_rslvr_task_t`. -/
structure Task where
  cacheEntry : Option Nat
  queued : Bool
  timeouts : BitVec 16
  curSrvIdx : Nat
  loopCount : Nat
  /-- the callback is set: the task has not been cancelled -/
  cbFunc : Bool
  /-- the request -/
  udata : Nat
  /-- the timer of the slot is enabled -/
  timer : Bool

inductive Trace where
  | accept (req : Nat)
  | cancel (req : Nat)
  | callback (req : Nat) (error : Option Errno) (addrs : List (Family × List Byte))
  /-- the task of the request is freed -/
  | release (req : Nat)
  | query (srv : Nat) (name : List Byte)
  /-- `dns_resolv_hostaddr_int` has flagged the entry and fails -/
  | abandon (cacheEntry : Nat)
  /-- it fails for a reply, and does not call back -/
  | silent (req : Nat)
  /-- it returns for a cancelled task, which stays -/
  | forget (req : Nat)
  /-- a task is used that has no cache entry, or is no more -/
  | stray (id : TaskId)
  /-- the loop over an answer did not end within the fuel -/
  | spin
deriving DecidableEq

def Trace.about : Trace → Option Nat
  | .accept req | .cancel req | .callback req _ _ | .release req => some req
  | _ => none

/-- What the resolver was created with, and what the system answers. -/
structure Env where
  dnsAddrs : List SockAddr
  retryCount : BitVec 16
  negCache : Nat
  time : Nat → Int
  /-- `calloc` of an entry -/
  entryAlloc : Nat → Bool
  /-- `calloc` of a task -/
  taskAlloc : Nat → Bool
  /-- `tpt_ev_add_args` -/
  timerAdd : Nat → Option Errno
  sendto : Nat → Option Errno
  /-- `realloc` of the data of an entry -/
  realloc : Nat → Bool
  /-- the bytes of addresses, where an entry says that they are a name -/
  addrsAsName : List CacheAddr → List Byte
  /-- what is behind a name, where an entry says that there are addresses -/
  nameAsAddrs : List Byte → List CacheAddr

/-- `dns_rslvr_t`. -/
structure Resolver where
  entries : List Entry
  tasks : TaskId → Option Task
  tasksCount : BitVec 16
  tasksIndex : TaskId
  /-- requests so far -/
  requests : Nat
  /-- questions to the system so far -/
  tick : Nat
  /-- the newest item first -/
  log : List Trace

def init : Resolver where
  entries := []
  tasks := fun _ => none
  tasksCount := 0
  tasksIndex := 0
  requests := 0
  tick := 0
  log := []

namespace Resolver

def emit (s : Resolver) (item : Trace) : Resolver := { s with log := item :: s.log }

def tock (s : Resolver) : Resolver := { s with tick := s.tick + 1 }

def setTask (s : Resolver) (id : TaskId) (task : Task) : Resolver :=
  { s with tasks := Function.update s.tasks id (some task) }

def setEntry (s : Resolver) (i : Nat) (e : Entry) : Resolver :=
  { s with entries := s.entries.set i e }

end Resolver

/-! ## The cache -/

/-- `hbucket_entry_get`. -/
def lookup (entries : List Entry) (name : List Byte) : Option (Entry × Nat) :=
  entries.zipIdx.find? fun p => memCmpin name p.1.name

section

variable (env : Env)

/-- The addresses an entry is read as. -/
def Entry.cacheAddrs (e : Entry) : List CacheAddr :=
  match e.data with
  | .addrs l => l
  | .alias name => (env.nameAsAddrs name).take name.length

def Entry.aliasName (e : Entry) : List Byte :=
  match e.data with
  | .alias name => name
  | .addrs l => (env.addrsAsName l).take l.length

inductive Found where
  | hit (addrs : List CacheAddr)
  | busy (e : Entry) (i : Nat)
  | stale (e : Entry) (i : Nat)
  | miss (name : List Byte)
  | looped

/-- The search of `dns_resolv_hostaddr_int`, and how many of the cycles are left. -/
def search (entries : List Entry) (now : Int) : Nat → List Byte → Found × Nat
  | 0, _ => (.looped, 0)
  | left + 1, name =>
    match lookup entries name with
    | none => (.miss name, left + 1)
    | some (e, i) =>
      if e.updating then (.busy e i, left + 1)
      else if e.validUntil < now then (.stale e i, left + 1)
      else if e.cname then search entries now left (e.aliasName env)
      else (.hit ((e.cacheAddrs env).take maxAddrs), left + 1)

def cacheEntryAlloc (name : List Byte) (s : Resolver) : Except Errno Entry × Resolver :=
  if name.length = 0 ∨ maxNameLength < name.length then (.error .einval, s)
  else if ¬ env.entryAlloc s.tick then (.error .enomem, s.tock)
  else
    let e := {
      name
      updating := false
      cname := false
      data := .addrs []
      dataAllocated := 0
      validUntil := env.time s.tick
      task := [] }
    (.ok e, s.tock)

/-- `realloc_items` for one more address: the room there is then. -/
def reallocItems (tick allocated count : Nat) : Except Errno Nat :=
  if count < allocated ∧ allocated ≤ count + cacheAlloc then .ok allocated
  else if env.realloc tick then .ok ((count / cacheAlloc + 1) * cacheAlloc)
  else .error .enomem

/-- The merge of `dns_rslvr_cache_entry_data_add`, with the number of questions asked. -/
def mergeAddrs : List CacheAddr → Entry → Nat → Option Errno × Entry × Nat
  | [], e, tick => (none, e, tick)
  | a :: as, e, tick =>
    let old := e.cacheAddrs env
    match old.findIdx? (cacheAddrCmp · a) with
    | some j =>
      let addrs := old.modify j fun c => { c with validUntil := a.validUntil }
      mergeAddrs as { e with data := .addrs addrs } tick
    | none =>
      match reallocItems env tick e.dataAllocated old.length with
      | .error error => (some error, e, tick + 1)
      | .ok allocated =>
        mergeAddrs as { e with
          data := .addrs (old ++ [a])
          dataAllocated := allocated } (tick + 1)

/-- The data of `dns_rslvr_cache_entry_data_add`: an error leaves what has been merged by then.  An
address that has outlived its time still bounds the time of the entry when it is the first. -/
def cacheEntryUpdate (now : Int) (new : Data) (validUntil : Int) (e : Entry) (tick : Nat) :
    Option Errno × Entry × Nat :=
  if new.count = 0 then (none, { e with validUntil }, tick)
  else
    let e := if e.cname = new.isAlias then e else { e with data := .addrs [], dataAllocated := 0 }
    match new with
    | .alias name =>
      if memCmpin e.name name then (some .eloop, e, tick)
      else if e.dataAllocated = name.length then
        (none, { e with data := .alias (name.take e.data.count), validUntil }, tick)
      else if env.realloc tick then
        (none, { e with data := .alias name, dataAllocated := name.length, validUntil }, tick + 1)
      else (some .enomem, e, tick + 1)
    | .addrs addrs =>
      match mergeAddrs env addrs e tick with
      | (some error, e, tick) => (some error, e, tick)
      | (none, e, tick) =>
        let all := e.cacheAddrs env
        let kept := all.filter fun c => now ≤ c.validUntil
        let first := all.head?.elim validUntil (·.validUntil)
        let validUntil := (kept.map (·.validUntil)).foldl min first
        (none, { e with data := .addrs kept, validUntil }, tick)

/-! ## Tasks -/

/-- The search of `dns_rslvr_task_alloc`: it stops at a free slot, or one before `tasks_index`. -/
def slotScan (s : Resolver) : Nat → TaskId → TaskId
  | 0, id => id
  | fuel + 1, id =>
    if s.tasksIndex ≠ 0 ∧ id = s.tasksIndex - 1 then id
    else if id ≠ 0 ∧ (s.tasks id).isNone then id
    else slotScan s fuel (id + 1)

/-- `dns_rslvr_task_alloc`.  Where the timer cannot be added, the slot is given back. -/
def taskAlloc (req : Nat) (s : Resolver) : Except Errno TaskId × Resolver :=
  if s.tasksCount = 0xffff#16 then (.error .eagain, s)
  else
    let id := slotScan s (2 ^ 16) s.tasksIndex
    if (s.tasks id).isSome then (.error .eagain, s)
    else if ¬ env.taskAlloc s.tick then (.error .enomem, s.tock)
    else
      let s := { s.tock with tasksIndex := id }
      match env.timerAdd s.tick with
      | some error => (.error error, s.tock)
      | none =>
        let task := {
          cacheEntry := none
          queued := false
          timeouts := 0
          curSrvIdx := 0
          loopCount := 0
          cbFunc := true
          udata := req
          timer := false }
        (.ok id, { s.tock with tasksCount := s.tasksCount + 1 }.setTask id task)

def taskFree (id : Option TaskId) (s : Resolver) : Resolver :=
  match id with
  | none => s
  | some id =>
    match s.tasks id with
    | none => s
    | some t =>
      { s with
        tasks := Function.update s.tasks id none
        tasksCount := s.tasksCount - 1 }.emit (.release t.udata)

/-- `dns_resolver_send`. -/
def send (id : TaskId) (s : Resolver) : Option Errno × Resolver :=
  match s.tasks id with
  | none => (some .einval, s)
  | some t =>
    if env.dnsAddrs.length ≤ t.curSrvIdx then (some .einval, s)
    else
      match t.cacheEntry.bind (s.entries[·]?) with
      | none => (some .einval, s.emit (.stray id))
      | some e =>
        match env.sendto s.tick with
        | some error => (some error, s.tock)
        | none => (none, (s.tock.emit (.query t.curSrvIdx e.name)).setTask id { t with timer := true })

def taskNAdd (i : Nat) (e : Entry) (id : TaskId) (t : Task) (s : Resolver) : Resolver :=
  (s.setTask id { t with cacheEntry := none, queued := true }).setEntry i { e with task := id :: e.task }

/-! ## Resolving -/

/-- The callback and the request of `dns_resolv_hostaddr_int`, and its task when it has one. -/
structure Caller where
  task : Option TaskId
  cbFunc : Bool
  udata : Nat
  loopCount : Nat

def Caller.ofTask (id : TaskId) (t : Task) : Caller := ⟨some id, t.cbFunc, t.udata, t.loopCount⟩

inductive Ret where
  | ok
  | restart
  | error (error : Errno)
deriving DecidableEq

def errOut (sendRequest : Bool) (error : Errno) (c : Caller) (s : Resolver) : Ret × Resolver :=
  let item := if sendRequest then .callback c.udata (some error) [] else .silent c.udata
  (.error error, taskFree c.task (s.emit item))

/-- The task of the caller, or a new one. -/
def callerTask (c : Caller) (s : Resolver) : Except Errno TaskId × Resolver :=
  match c.task with
  | some id => (.ok id, s)
  | none => taskAlloc env c.udata s

/-- `task_alloc` for an entry that another task updates. -/
def enqueue (sendRequest : Bool) (c : Caller) (e : Entry) (i loopCount : Nat) (s : Resolver) :
    Ret × Resolver :=
  match callerTask env c s with
  | (.error error, s) => errOut sendRequest error c s
  | (.ok id, s) =>
    match s.tasks id with
    | none => (.ok, s.emit (.stray id))
    | some t =>
      let t := { t with timeouts := 0, curSrvIdx := 0, loopCount }
      (.ok, taskNAdd i e id t s)

/-- `task_alloc` for an entry that was flagged just before. -/
def start (sendRequest : Bool) (c : Caller) (i loopCount : Nat) (s : Resolver) : Ret × Resolver :=
  match callerTask env c s with
  | (.error error, s) =>
    let (ret, s) := errOut sendRequest error c s
    (ret, s.emit (.abandon i))
  | (.ok id, s) =>
    match s.tasks id with
    | none => (.ok, s.emit (.stray id))
    | some t =>
      let t := { t with cacheEntry := some i, timeouts := 0, curSrvIdx := 0, loopCount }
      let s := s.setTask id t
      if ¬ sendRequest then (.restart, s)
      else
        match send env id s with
        | (none, s) => (.ok, s)
        | (some error, s) =>
          let (ret, s) := errOut sendRequest error { c with task := some id } s
          (ret, s.emit (.abandon i))

def hostaddrInt (sendRequest : Bool) (name : List Byte) (c : Caller) (s : Resolver) :
    Ret × Resolver :=
  if ¬ c.cbFunc then (.error .einval, s.emit (.forget c.udata))
  else if name.length = 0 ∨ maxNameLength < name.length then errOut sendRequest .einval c s
  else
    let now := env.time s.tick
    let s := s.tock
    let (found, left) := search env s.entries now (maxNameCycles - c.loopCount) name
    let loopCount := maxNameCycles - left
    match found with
    | .hit addrs =>
      let addrs := addrs.map fun a => (a.family, a.addr)
      (.ok, taskFree c.task (s.emit (.callback c.udata none addrs)))
    | .looped => errOut sendRequest .eloop c s
    | .busy e i => enqueue env sendRequest c e i loopCount s
    | .stale e i => start env sendRequest c i loopCount (s.setEntry i { e with updating := true })
    | .miss name =>
      match cacheEntryAlloc env name s with
      | (.error error, s) => errOut sendRequest error c s
      | (.ok e, s) =>
        let i := s.entries.length
        let s := { s with entries := s.entries ++ [{ e with updating := true }] }
        start env sendRequest c i loopCount s

/-- One step of `dns_rslvr_task_notify_chain`. -/
def notify (name : List Byte) (id : TaskId) (s : Resolver) : Resolver :=
  match s.tasks id with
  | none => s.emit (.stray id)
  | some t =>
    let s := s.setTask id { t with queued := false }
    (hostaddrInt env true name (.ofTask id t) s).2

def taskNotifyChain (name : List Byte) : List TaskId → Resolver → Resolver
  | [], s => s
  | id :: ids, s => taskNotifyChain name ids (notify env name id s)

def cacheEntryDataAdd (cacheEntry : Option Nat) (new : Data) (validUntil : Int) (s : Resolver) :
    Option Errno × Resolver :=
  match cacheEntry.bind fun i => s.entries[i]?.map (i, ·) with
  | none => (some .einval, s)
  | some (i, e) =>
    let now := env.time s.tick
    let (error, e', tick) := cacheEntryUpdate env now new validUntil e (s.tick + 1)
    let e' := { e' with updating := false, cname := new.isAlias, task := [] }
    (error, taskNotifyChain env e.name e.task { s.setEntry i e' with tick })

def taskDone (id : TaskId) (t : Task) (error : Option Errno) (addrs : List CacheAddr)
    (validUntil : Int) (s : Resolver) : Resolver :=
  let s := (cacheEntryDataAdd env t.cacheEntry (.addrs addrs) validUntil s).2
  let s :=
    if t.cbFunc then
      let addrs := (addrs.take maxAddrs).map fun a => (a.family, a.addr)
      s.emit (.callback t.udata error addrs)
    else s
  taskFree (some id) s

end

/-! ## Timers -/

section

variable (env : Env)

/-- The loop of `dns_resolver_task_timeout_cb`: the next servers, as long as there is an error. -/
def nextServers (id : TaskId) : Nat → Option Errno → Resolver → Option Errno × Resolver
  | 0, error, s => (error, s)
  | fuel + 1, error, s =>
    match s.tasks id with
    | none => (error, s)
    | some t =>
      if t.curSrvIdx + 1 < env.dnsAddrs.length ∧ error.isSome then
        let t := { t with timeouts := 0, curSrvIdx := t.curSrvIdx + 1 }
        let (error, s) := send env id (s.setTask id t)
        nextServers id fuel error s
      else (error, s)

/-- `dns_resolver_task_timeout_cb`.  The timer of a task fires once for each time it is enabled. -/
def taskTimeoutCb (id : TaskId) (s : Resolver) : Resolver :=
  match s.tasks id with
  | none => s
  | some t =>
    if ¬ t.timer then s
    else
      let t := { t with timer := false, timeouts := t.timeouts + 1 }
      let s := s.setTask id t
      let (error, s) :=
        if t.timeouts ≤ env.retryCount then send env id s else (some .etimedout, s)
      let (error, s) := nextServers env id env.dnsAddrs.length error s
      match error, s.tasks id with
      | some error, some t =>
        taskDone env id t (some error) [] (env.time s.tick + env.negCache) s.tock
      | _, _ => s

end

/-! ## Replies -/

/-- A datagram: what the receive buffer holds, with the message in its first `size` bytes, and what
was there before behind them. -/
structure Datagram where
  sender : SockAddr
  buf : List Byte
  size : Nat
  fits : size ≤ buf.length

/-- `dns_hdr_flags_t.bits.rcode`. -/
def hdrRcode (buf : List Byte) : Byte := byteAt buf 3 &&& 0x0f#8

def rrDataOffset (rr : RrData) (offset : Nat) : Nat := offset + rr.size - rr.data.length

/-- `dns_msg_rr_find`: the record, its offset, and how many records are left behind it. -/
def rrFindLoop (buf : List Byte) (msgSize : Nat) (name : List Byte) :
    Nat → Nat → Except Errno (RrData × Nat × Nat)
  | 0, _ => .error .espipe
  | count + 1, offset =>
    match rrGetData buf msgSize offset (some (2 * maxNameLength)) with
    | .error error => .error error
    | .ok rr =>
      if memCmpin name (rr.name.getD []) then .ok (rr, offset, count)
      else rrFindLoop buf msgSize name count (offset + rr.size)

def rrFind (buf : List Byte) (msgSize offset count : Nat) (name : List Byte) :
    Except Errno (RrData × Nat × Nat) :=
  if 2 * maxNameLength < name.length then .error .einval
  else if msgSize < hdrSize ∨ msgSize < offset then .error .ebadmsg
  else rrFindLoop buf msgSize name count offset

def soaDecode (buf : List Byte) (offset : Nat) (size : BitVec 16) (ttl : BitVec 32) :
    Except Errno Nat := do
  let mname ← sequenceOfLabelsGetSize buf offset size.toNat
  let offset := offset + mname
  let size := size - BitVec.ofNat 16 mname
  let rname ← sequenceOfLabelsGetSize buf offset size.toNat
  let offset := offset + rname
  let size := size - BitVec.ofNat 16 rname
  if size.toNat < 20 then .error .ebadmsg
  else return min ttl.toNat (getBe32 buf (offset + 16)).toNat

/-- The loop of `dns_resolver_recv_cb` for the TTL of a negative answer. -/
def soaTtl (buf : List Byte) (msgSize : Nat) : Nat → Nat → Option Nat
  | 0, _ => none
  | fuel + 1, offset =>
    match rrGetData buf msgSize offset none with
    | .error _ => none
    | .ok rr =>
      if rr.type ≠ typeSoa then soaTtl buf msgSize fuel (offset + rr.size)
      else
        let size := BitVec.ofNat 16 rr.data.length
        (soaDecode buf (rrDataOffset rr offset) size rr.ttl).toOption

/-- The variables of the loop over the answer. -/
structure Scan where
  offset : Nat
  count : Nat
  addrs : List CacheAddr
  restarted : Bool

/-- Where the loop over the answer goes. -/
inductive Answer where
  /-- out of the loop -/
  | left (error : Option Errno) (scan : Scan)
  | callCb (error : Errno)
  | rcvNext

section

variable (env : Env) (buf : List Byte) (transferedSize : Nat) (info : MsgInfo) (now : Int)

/-- What a record for the name does. -/
inductive Record where
  | addr (a : CacheAddr)
  /-- skipped -/
  | skip
  | cname (name : List Byte) (ttl : Nat)

def rrTtl (ttl : BitVec 32) : Nat := max ttlMin (min ttlMax ttl.toNat)

/-- The `switch` over the type of a record. -/
def record (rr : RrData) (offset addrsCount : Nat) : Record :=
  let ttl := rrTtl rr.ttl
  if rr.type = typeA then
    if rr.data.length = 4 then .addr ⟨now + ttl, .inet, rr.data⟩ else .skip
  else if rr.type = typeAaaa then
    if rr.data.length = 16 then .addr ⟨now + ttl, .inet6, rr.data⟩ else .skip
  else if rr.type = typeCname then
    if addrsCount ≠ 0 then .skip
    else
      -- `sizeof(addrs)`
      match sequenceOfLabels2name buf transferedSize (rrDataOffset rr offset) (maxAddrs * 28) with
      | .error _ => .skip
      | .ok name => if maxNameLength < name.length then .skip else .cname name ttl
  else .skip

/-- The loop of `dns_resolver_recv_cb` over the answer, for the task `id`. -/
def answerLoop (id : TaskId) : Nat → Scan → Resolver → Answer × Resolver
  | 0, _, s => (.callCb .noReturn, s.emit .spin)
  | fuel + 1, scan, s =>
    if maxAddrs ≤ scan.addrs.length then (.left none scan, s)
    else
      match s.tasks id with
      | none => (.rcvNext, s.emit (.stray id))
      | some t =>
        match t.cacheEntry.bind (s.entries[·]?) with
        | none => (.rcvNext, s.emit (.stray id))
        | some e =>
          match rrFind buf info.msgSize scan.offset scan.count e.name with
          | .error error => (.left (if error = .espipe then none else some error) scan, s)
          | .ok (rr, offset, count) =>
            let scan := { scan with offset := offset + rr.size, count }
            match record buf transferedSize now rr offset scan.addrs.length with
            | .skip => answerLoop id fuel scan s
            | .addr a => answerLoop id fuel { scan with addrs := scan.addrs ++ [a] } s
            | .cname name ttl =>
              if memCmpin name e.name then (.callCb .eloop, s)
              else
                let s := (cacheEntryDataAdd env t.cacheEntry (.alias name) (now + ttl) s).2
                let t := { t with cacheEntry := none, loopCount := t.loopCount + 1 }
                let s := s.setTask id t
                match hostaddrInt env false name (.ofTask id t) s with
                | (.restart, s) =>
                  let scan := {
                    offset := info.anOff
                    count := info.rrCount
                    addrs := []
                    restarted := true }
                  answerLoop id fuel scan s
                | (_, s) => (.rcvNext, s)

def answerFuel : Nat := (maxNameCycles + 2) * (info.rrCount + 2)

/-- `goto call_cb`. -/
def callCb (id : TaskId) (error : Option Errno) (addrs : List CacheAddr) (validUntil : Int)
    (s : Resolver) : Resolver :=
  match s.tasks id with
  | none => s.emit (.stray id)
  | some t => taskDone env id t error addrs validUntil s

/-- The next server, when `next` says so, or an end. -/
def resend (id : TaskId) (next : Bool) (validUntil : Int) (s : Resolver) : Resolver :=
  match s.tasks id with
  | none => s.emit (.stray id)
  | some t =>
    let curSrvIdx := if next then t.curSrvIdx + 1 else t.curSrvIdx
    match send env id (s.setTask id { t with curSrvIdx }) with
    | (none, s) => s
    | (some error, s) => callCb env id (some error) [] validUntil s

/-- `dns_resolver_recv_cb` for a message with answers. -/
def recvAnswer (id : TaskId) (s : Resolver) : Resolver :=
  let validUntil := now + env.negCache
  let scan := { offset := info.anOff, count := info.rrCount, addrs := [], restarted := false }
  match answerLoop env buf transferedSize info now id (answerFuel info) scan s with
  | (.rcvNext, s) => s
  | (.callCb error, s) => callCb env id (some error) [] validUntil s
  | (.left error scan, s) =>
    if (scan.restarted ∨ error.isSome) ∧ scan.addrs = [] then
      resend env id error.isSome validUntil s
    else callCb env id error scan.addrs validUntil s

/-- `dns_resolver_recv_cb` for a message with an error, or with no record. -/
def recvError (id : TaskId) (s : Resolver) : Resolver :=
  let validUntil := now + env.negCache
  if hdrRcode buf ≠ rcodeNxdomain then resend env id true validUntil s
  else
    let validUntil := (soaTtl buf info.msgSize (info.msgSize + 1) info.anOff).elim validUntil
      fun ttl => now + ttl
    callCb env id (some .efault) [] validUntil s

end

section

variable (env : Env)

/-- `dns_resolver_recv_cb`.  A task without a cache entry is not followed any further than the end of
the task: the loop over the answer reads through the entry. -/
def recvCb (pkt : Datagram) (s : Resolver) : Resolver :=
  match msgInfoGet pkt.buf pkt.size with
  | .error _ => s
  | .ok info =>
    let id := hdrIdGet pkt.buf
    match s.tasks id with
    | none => s
    | some t =>
      if ¬ (env.dnsAddrs[t.curSrvIdx]?).any (addrPortIsEq pkt.sender) then s
      else
        let s := s.setTask id { t with timer := false }
        let s := if t.cacheEntry.isNone then s.emit (.stray id) else s
        let now := env.time s.tick
        if info.rrCount = 0 ∨ hdrRcode pkt.buf ≠ rcodeNoerror then
          recvError env pkt.buf info now id s.tock
        else recvAnswer env pkt.buf pkt.size info now id s.tock

/-! ## Events -/

inductive Event where
  /-- `dns_resolv_hostaddr` -/
  | resolve (name : List Byte)
  /-- `dns_resolv_cancel` of a task that is still there -/
  | cancel (id : TaskId)
  | timeout (id : TaskId)
  | reply (pkt : Datagram)
  /-- `dns_resolver_recv_cb` with an error of the socket -/
  | recvFailed

def resolve (name : List Byte) (s : Resolver) : Resolver :=
  let req := s.requests
  let s := { s with requests := req + 1 }.emit (.accept req)
  (hostaddrInt env true name ⟨none, true, req, 0⟩ s).2

def cancel (id : TaskId) (s : Resolver) : Resolver :=
  match s.tasks id with
  | none => s
  | some t =>
    if t.cbFunc then (s.setTask id { t with cbFunc := false }).emit (.cancel t.udata) else s

def step : Event → Resolver → Resolver
  | .resolve name, s => resolve env name s
  | .cancel id, s => cancel id s
  | .timeout id, s => taskTimeoutCb env id s
  | .reply pkt, s => recvCb env pkt s
  | .recvFailed, s => s

def run (events : List Event) : Resolver := events.foldl (fun s event => step env event s) init

end

end Dns.Resolv
