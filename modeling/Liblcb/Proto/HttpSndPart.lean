import Liblcb.Proto.HttpSndSpec
import Liblcb.Utils.IoBufQueue

/-!
# Responses that are sent in parts

`http_srv_snd` with the buffer it leaves behind.  A write outside the buffer has no outcome.  What
the socket did not take of a response stands in the buffer for the next call.
-/

namespace Http

open Mem Buffer

/-- What the call returns where nothing failed. -/
inductive SndRc where
  | done
  | inProgress
  deriving DecidableEq

/-- The headers, the size of the data, and the buffer with the data, as they are handed to
`sendmsg`. -/
structure Composed where
  iovs : List (List Byte)
  dataSize : Nat
  buf : IoBuf

/-- The call up to `sendmsg`. -/
def compose (cli : Cli) : Except Errno Composed := do
  if cli.buf.used < cli.buf.offset ∨ respHdsMax < cli.resp.hdrs.length then throw .einval
  let serverSize := if cli.has respServer then cli.httpServer.length else 0
  if hdrsBufSize < 256 + cli.reason.length + serverSize then throw .enomem
  let hdrs ← stdHdrs cli (← respLine cli)
  if cli.genPage then
    let buf ← putPage (pageBuf cli (hdrs.length + errPageHdrs.length)) (errPage cli)
    return ⟨[hdrs, errPageHdrs, crlf], (errPage cli).length, buf⟩
  else
    return ⟨[hdrs] ++ customHdrs cli.resp.hdrs ++ [crlf], cli.buf.used - cli.buf.offset, cli.buf⟩

/-- The loop that copies what was not sent of the headers to `wrPos`. -/
def copyLoop (data : List Byte) (wrPos : Nat) : List (List Byte) → Nat → Option (List Byte)
  | [], _ => some data
  | iov :: iovs, ios =>
    if iov.length < ios then copyLoop data wrPos iovs (ios - iov.length)
    else do
      let data ← putAll data wrPos (iov.drop ios)
      copyLoop data (wrPos + (iov.length - ios)) iovs 0

def hdrsLeftMem (buf : IoBuf) (iovs : List (List Byte)) (hdrsSize dataSize ios : Nat) :
    Option (Except Errno Unit × IoBuf) :=
  let left := hdrsSize - ios
  let buf := { buf with transferSize := left + dataSize }
  if buf.offset < left then
    if IoBuf.sub64 buf.data.length buf.used < left - buf.offset then some (.error .enomem, buf)
    else if buf.data.length < buf.offset + dataSize then none
    else do
      let data ← putAll buf.data left ((buf.data.drop buf.offset).take dataSize)
      let data ← copyLoop data 0 iovs ios
      return (.ok (), { buf with data := data, used := left + dataSize, offset := 0 })
  else do
    let offset := IoBuf.valueInRangeDec buf.offset left
    let data ← copyLoop buf.data offset iovs ios
    return (.ok (), { buf with data := data, offset := offset })

def bodyLeft (buf : IoBuf) (sent : Nat) : IoBuf :=
  let offset := IoBuf.valueInRangeInc buf.offset buf.data.length sent
  { buf with offset := offset, transferSize := IoBuf.sub64 buf.used offset }

/-- What is left when the socket took `ios` bytes, which is not all. -/
def leftMem (c : Composed) (ios : Nat) : Option (Except Errno Unit × IoBuf) :=
  let hdrsSize := c.iovs.flatten.length
  if ios < hdrsSize then hdrsLeftMem c.buf c.iovs hdrsSize c.dataSize ios
  else some (.ok (), bodyLeft c.buf (ios - hdrsSize))

/-- The call from `sendmsg` on. -/
def sendMem (c : Composed) (accepted : Except Errno Nat) (start : Except Errno Unit) :
    Option (Except Errno SndRc × IoBuf) :=
  match accepted with
  | .error e => some (.error e, c.buf)
  | .ok n =>
    let size := c.iovs.flatten.length + c.dataSize
    let ios := min n size
    if size = ios then some (.ok .done, c.buf)
    else (leftMem c ios).map fun left =>
      (left.1.bind fun () => start.map fun () => .inProgress, left.2)

/-- `http_srv_snd`: what it returns, and the buffer then. -/
def httpSrvSndMem (cli : Cli) (accepted : Except Errno Nat) (start : Except Errno Unit) :
    Option (Except Errno SndRc × IoBuf) :=
  match compose cli with
  | .error e => some (.error e, cli.buf)
  | .ok c => sendMem c accepted start

/-! ## The writes -/

variable {buf : IoBuf} {data : List Byte} {iovs : List (List Byte)} {pos ios : Nat}

theorem copyLoop_eq : ∀ {iovs : List (List Byte)} {data : List Byte} {pos ios : Nat},
    pos + (copyRest iovs ios).length ≤ data.length →
    copyLoop data pos iovs ios = some (splice data pos (copyRest iovs ios))
  | [], data, pos, _, _ => by
    rw [copyLoop, copyRest, splice_nil]
  | iov :: iovs, data, pos, ios, h => by
    rw [copyRest] at h ⊢
    rw [copyLoop]
    by_cases hskip : iov.length < ios
    · rw [if_pos hskip] at h ⊢
      rw [if_pos hskip]
      exact copyLoop_eq h
    · have hlen : (iov.drop ios).length = iov.length - ios := List.length_drop
      rw [if_neg hskip] at h ⊢
      rw [List.length_append, hlen] at h
      -- the part of this vector that was not sent, and then the others behind it
      rw [if_neg hskip, putAll_eq (by omega), Option.bind_eq_bind, Option.bind_some,
        copyLoop_eq (by rw [length_splice (by omega)]; omega), ← hlen, splice_splice (by omega)]

theorem hdrsLeftMem_eq (hoff : buf.offset ≤ buf.used) (hused : buf.used ≤ buf.data.length)
    (hsize : buf.data.length < 2 ^ 64) (hios : ios < iovs.flatten.length) :
    ∃ rc buf', hdrsLeftMem buf iovs iovs.flatten.length (buf.used - buf.offset) ios =
        some (rc, buf') ∧ buf'.data.length = buf.data.length ∧
      (rc = .ok () → hdrsLeft buf iovs iovs.flatten.length (buf.used - buf.offset) ios =
        .ok buf') := by
  have hrest : (copyRest iovs ios).length = iovs.flatten.length - ios := by
    rw [copyRest_eq, List.length_drop]
  have hbody : ((buf.data.drop buf.offset).take (buf.used - buf.offset)).length =
      buf.used - buf.offset := by
    rw [List.length_take, List.length_drop]
    omega
  have hfree : IoBuf.sub64 buf.data.length buf.used = buf.data.length - buf.used := by
    rw [IoBuf.sub64]
    omega
  have hdec : IoBuf.valueInRangeDec buf.offset (iovs.flatten.length - ios) =
      buf.offset - (iovs.flatten.length - ios) := IoBuf.valueInRangeDec_eq (by omega)
  rw [hdrsLeftMem, hdrsLeft]
  dsimp only
  rw [hfree, hdec]
  generalize iovs.flatten.length - ios = left at hrest ⊢
  -- the headers fit before the data, or the data has to move up to `left`
  by_cases hfront : buf.offset < left
  · rw [if_pos hfront, if_pos hfront]
    by_cases hroom : buf.data.length - buf.used < left - buf.offset
    · rw [if_pos hroom]
      exact ⟨_, _, rfl, rfl, fun h => by cases h⟩
    · have hmove := @length_splice _ buf.data
        ((buf.data.drop buf.offset).take (buf.used - buf.offset)) left (by omega)
      rw [if_neg hroom, if_neg hroom, if_neg (by omega), putAll_eq (by omega),
        Option.bind_eq_bind, Option.bind_some, copyLoop_eq (by omega), Option.bind_some]
      refine ⟨.ok (), _, rfl, ?_, fun _ => rfl⟩
      rw [length_splice (by omega)]
      exact hmove
  · rw [if_neg hfront, if_neg hfront, copyLoop_eq (by omega)]
    refine ⟨.ok (), _, rfl, ?_, fun _ => rfl⟩
    exact length_splice (by omega)

theorem bodyLeft_eq {sent : Nat} (hoff : buf.offset ≤ buf.used) (hused : buf.used ≤ buf.data.length)
    (hsize : buf.data.length < 2 ^ 64) (hsent : sent ≤ buf.used - buf.offset) :
    bodyLeft buf sent = ⟨buf.data, buf.used, min (buf.offset + sent) buf.data.length,
      buf.used - min (buf.offset + sent) buf.data.length⟩ := by
  have hinc : IoBuf.valueInRangeInc buf.offset buf.data.length sent =
      min (buf.offset + sent) buf.data.length := IoBuf.valueInRangeInc_eq (by omega) hsize
  have hsub : IoBuf.sub64 buf.used (min (buf.offset + sent) buf.data.length) =
      buf.used - min (buf.offset + sent) buf.data.length := by
    rw [IoBuf.sub64]
    omega
  rw [bodyLeft, hinc, hsub]

/-! ## The call -/

/-- What the call is to send: the status line, the headers, the empty line and the body. -/
def response (cli : Cli) : Except Errno (List Byte) := do
  let hdrs ← stdHdrs cli (← respLine cli)
  return hdrs ++ (customHdrs cli.resp.hdrs).flatten ++ crlf ++ cli.body

/-- The bytes that `sendmsg` is given. -/
def Composed.bytes (c : Composed) : List Byte :=
  c.iovs.flatten ++ (c.buf.data.drop c.buf.offset).take c.dataSize

theorem sendMem_inProgress {c : Composed} (hoff : c.buf.offset ≤ c.buf.used)
    (hused : c.buf.used ≤ c.buf.data.length) (hsize : c.buf.data.length < 2 ^ 64)
    (hdata : c.dataSize = c.buf.used - c.buf.offset) (n : Nat) (start : Except Errno Unit) :
    ∃ rc buf', sendMem c (.ok n) start = some (rc, buf') ∧
      buf'.data.length = c.buf.data.length ∧
      (rc = .ok .inProgress → n < c.bytes.length ∧
        c.bytes.take n ++ (buf'.data.drop buf'.offset).take buf'.transferSize = c.bytes) := by
  have hbody : ((c.buf.data.drop c.buf.offset).take c.dataSize).length = c.dataSize := by
    rw [List.length_take, List.length_drop]
    omega
  have htotal : c.bytes.length = c.iovs.flatten.length + c.dataSize := by
    rw [Composed.bytes, List.length_append, hbody]
  by_cases hall : c.iovs.flatten.length + c.dataSize ≤ n
  · refine ⟨.ok .done, c.buf, ?_, rfl, fun h => by cases h⟩
    rw [sendMem]
    rw [Nat.min_eq_right hall, if_pos rfl]
  have hmin : min n (c.iovs.flatten.length + c.dataSize) = n := by omega
  have hne : ¬ c.iovs.flatten.length + c.dataSize = n := by omega
  -- the layouts, and that each of them holds what was not sent
  have hleft : ∃ rc buf', leftMem c n = some (rc, buf') ∧
      buf'.data.length = c.buf.data.length ∧
      (rc = .ok () → (buf'.data.drop buf'.offset).take buf'.transferSize = c.bytes.drop n) := by
    rw [leftMem]
    by_cases hhdrs : n < c.iovs.flatten.length
    · obtain ⟨rc, buf', hrun, hlen, hok⟩ := hdrsLeftMem_eq hoff hused hsize hhdrs
      rw [if_pos hhdrs, hdata]
      refine ⟨rc, buf', hrun, hlen, fun hrc => ?_⟩
      rw [hdrsLeft_ok hoff hused (hok hrc), Composed.bytes, hdata,
        List.drop_append_of_le_length (Nat.le_of_lt hhdrs)]
    · obtain ⟨sent, rfl⟩ : ∃ sent, n = c.iovs.flatten.length + sent :=
        ⟨n - c.iovs.flatten.length, by omega⟩
      have hoffset : min (c.buf.offset + sent) c.buf.data.length = c.buf.offset + sent := by omega
      rw [if_neg hhdrs, Nat.add_sub_cancel_left, bodyLeft_eq hoff hused hsize (by omega), hoffset]
      refine ⟨.ok (), _, rfl, rfl, fun _ => ?_⟩
      show List.take (c.buf.used - (c.buf.offset + sent))
        (c.buf.data.drop (c.buf.offset + sent)) = _
      rw [Composed.bytes, List.drop_length_add_append, List.drop_take, List.drop_drop, hdata,
        Nat.sub_sub]
  obtain ⟨rc, buf', hrun, hlen, hok⟩ := hleft
  have hsend : sendMem c (.ok n) start =
      some (rc.bind fun () => start.map fun () => .inProgress, buf') := by
    rw [sendMem]
    rw [hmin, if_neg hne, hrun]
    rfl
  refine ⟨_, buf', hsend, hlen, fun h => ⟨by omega, ?_⟩⟩
  cases rc with
  | error e => cases h
  | ok u => rw [hok rfl, List.take_append_drop]

theorem compose_ok {cli : Cli} (hpage : cli.genPage = false) {c : Composed}
    (h : compose cli = .ok c) : c.buf = cli.buf ∧ cli.buf.offset ≤ cli.buf.used ∧
      c.dataSize = cli.buf.used - cli.buf.offset ∧ response cli = .ok c.bytes := by
  unfold compose at h
  by_cases hbuf : cli.buf.used < cli.buf.offset ∨ respHdsMax < cli.resp.hdrs.length
  · rw [if_pos hbuf] at h
    cases h
  simp only [if_neg hbuf] at h
  by_cases hroom : hdrsBufSize < 256 + cli.reason.length +
      (if cli.has respServer then cli.httpServer.length else 0)
  · rw [if_pos hroom] at h
    cases h
  simp only [if_neg hroom] at h
  replace ⟨line, hline, h⟩ := Mem.bind_ok h
  replace ⟨hdrs, hhdrs, h⟩ := Mem.bind_ok h
  rw [hpage] at h
  replace h : Except.ok (Composed.mk _ _ _) = Except.ok c := h
  rw [← Except.ok.inj h]
  refine ⟨rfl, by omega, rfl, ?_⟩
  rw [response, hline]
  show (stdHdrs cli line >>= _) = _
  rw [hhdrs]
  show Except.ok (hdrs ++ (customHdrs cli.resp.hdrs).flatten ++ crlf ++ cli.body) =
    Except.ok (([hdrs] ++ customHdrs cli.resp.hdrs ++ [crlf]).flatten ++ cli.body)
  rw [List.flatten_append, List.flatten_append, List.flatten_singleton, List.flatten_singleton]

/-- Whatever the socket takes of a response without a generated page, every write is inside the
buffer, and where the call returns `EINPROGRESS` the buffer holds the rest. -/
theorem httpSrvSnd_inProgress (cli : Cli) (hpage : cli.genPage = false) (n : Nat)
    (start : Except Errno Unit) :
    ∃ rc buf', httpSrvSndMem cli (.ok n) start = some (rc, buf') ∧
      buf'.data.length = cli.buf.data.length ∧
      (rc = .ok .inProgress → ∃ bytes, response cli = .ok bytes ∧ n < bytes.length ∧
        bytes.take n ++ (buf'.data.drop buf'.offset).take buf'.transferSize = bytes) := by
  rw [httpSrvSndMem]
  cases hcomp : compose cli with
  | error e => exact ⟨_, _, rfl, rfl, fun h => by cases h⟩
  | ok c =>
    obtain ⟨hbuf, hoff, hdata, hbytes⟩ := compose_ok hpage hcomp
    obtain ⟨rc, buf', hrun, hlen, hrest⟩ := @sendMem_inProgress c (by rw [hbuf]; exact hoff)
      (by rw [hbuf]; exact cli.used_le) (by rw [hbuf]; exact cli.size_lt)
      (by rw [hbuf]; exact hdata) n start
    exact ⟨rc, buf', hrun, by rw [hlen, hbuf], fun hrc => ⟨c.bytes, hbytes, hrest hrc⟩⟩

/-- The socket takes fifty bytes, which end inside the headers. -/
theorem httpSrvSnd_inProgress_answer :
    ∃ buf' bytes, httpSrvSndMem (answer 200 respContentLen [str "X-A: b"]) (.ok 50) (.ok ()) =
        some (.ok .inProgress, buf') ∧
      response (answer 200 respContentLen [str "X-A: b"]) = .ok bytes ∧
      bytes.take 50 ++ (buf'.data.drop buf'.offset).take buf'.transferSize = bytes := by
  obtain ⟨rc, buf', hrun, -, hrest⟩ := httpSrvSnd_inProgress
    (answer 200 respContentLen [str "X-A: b"]) (by decide +kernel) 50 (.ok ())
  have hrc : (httpSrvSndMem (answer 200 respContentLen [str "X-A: b"]) (.ok 50) (.ok ())).map
      (fun r => r.1) = some (.ok .inProgress) := by decide +kernel
  rw [hrun, Option.map_some, Option.some.injEq] at hrc
  replace hrc : rc = .ok .inProgress := hrc
  obtain ⟨bytes, hbytes, -, heq⟩ := hrest hrc
  exact ⟨buf', bytes, by rw [hrun, hrc], hbytes, heq⟩

end Http
