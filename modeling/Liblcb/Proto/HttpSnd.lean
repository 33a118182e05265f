import Liblcb.Proto.Http
import Liblcb.Lib.Buffer
import Liblcb.Utils.Num2Str
import Mathlib.Data.List.DropRight

/-!
# HTTP responses

`http_srv_snd` of `proto/http_server.c`.  What `sendmsg` and `tp_task_start` answer are arguments.  The
result of a call that returns 0 or `EINPROGRESS` is the bytes that the socket took and the bytes that
the buffer holds for later.  The statistics of the server are left out.
-/

namespace Http

open Mem Buffer Num2Str

def str (s : String) : List Byte := s.toList.map chr

/-- `reason_phrase_1xx` to `reason_phrase_5xx`; a null pointer is an empty phrase. -/
def reasonPhrases1xx : List String := ["Continue", "Switching Protocols", "Processing"]

def reasonPhrases2xx : List String :=
  ["OK", "Created", "Accepted", "Non-Authoritative Information", "No Content", "Reset Content",
   "Partial Content", "Multi-Status", "Already Reported", "", "", "", "", "", "", "", "", "", "", "",
   "", "", "", "", "", "", "IM Used"]

def reasonPhrases3xx : List String :=
  ["Multiple Choices", "Moved Permanently", "Found", "See Other", "Not Modified", "Use Proxy", "",
   "Temporary Redirect", "Permanent Redirect"]

def reasonPhrases4xx : List String :=
  ["Bad request", "Unauthorized", "Payment Required", "Forbidden", "Not Found", "Method not Allowed",
   "Not Acceptable", "Proxy Authentication Required", "Request Timeout", "Conflict", "Gone",
   "Length Required", "Precondition Failed", "Request Entity Too Large", "Request-URI Too Long",
   "Unsupported Media Type", "Requested Range Not Satisfiable", "Expectation Failed", "", "", "", "",
   "Unprocessable Entity", "Locked", "Failed Dependency", "Unassigned", "Upgrade Required", "",
   "Precondition Required", "Too Many Requests", "", "Request Header Fields Too Large"]

def reasonPhrases5xx : List String :=
  ["Internal Server Error", "Not Implemented", "Bad Gateway", "Service Unavailable",
   "Gateway Timeout", "HTTP Version Not Supported", "Variant Also Negotiates", "Insufficient Storage",
   "Loop Detected", "", "Not Extended", "Network Authentication Required"]

def httpGetErrDescr (statusCode : Nat) : List Byte :=
  if statusCode < 100 then []
  else if statusCode < 200 then str (reasonPhrases1xx.getD (statusCode - 100) "")
  else if statusCode < 300 then str (reasonPhrases2xx.getD (statusCode - 200) "")
  else if statusCode < 400 then str (reasonPhrases3xx.getD (statusCode - 300) "")
  else if statusCode < 500 then str (reasonPhrases4xx.getD (statusCode - 400) "")
  else if statusCode < 600 then str (reasonPhrases5xx.getD (statusCode - 500) "")
  else []

/-- `HTTP_SRV_RESP_P_F_*`. -/
def respConnClose : BitVec 32 := 1#32
def respServer : BitVec 32 := 2#32
def respContentLen : BitVec 32 := 4#32
def respGenErrPages : BitVec 32 := 0x80000000#32

def respHdsMax : Nat := 16

/-- `http_srv_resp_t`.  A custom header with a null pointer is one without bytes. -/
structure Resp where
  statusCode : BitVec 32
  pFlags : BitVec 32
  reasonPhrase : Option (List Byte)
  hdrs : List (List Byte)

/-- `io_buf_t`; the length of `data` is `size`. -/
structure IoBuf where
  data : List Byte
  used : Nat
  offset : Nat
  transferSize : Nat

/-- A text without line breaks. -/
def NoBreak (text : List Byte) : Prop := cr ∉ text ∧ lf ∉ text

/-- `http_srv_cli_t` and what is read of its server and binding.  The version is as
`http_parse_req_line` leaves it. -/
structure Cli where
  major : Fin 10
  minor : Fin 10
  halfClosed : Bool
  buf : IoBuf
  /-- `cli->buf == cli->rcv_buf` -/
  bufIsRcv : Bool
  resp : Resp
  httpServer : List Byte
  rcvTimeout : BitVec 64
  used_le : buf.used ≤ buf.data.length
  size_lt : buf.data.length < 2 ^ 64
  httpServer_line : NoBreak httpServer

namespace Cli

/-- The flags as the function adjusts them. -/
def pFlags (cli : Cli) : BitVec 32 :=
  let flags := if cli.httpServer.length = 0 then cli.resp.pFlags &&& ~~~respServer
    else cli.resp.pFlags
  if cli.halfClosed then flags ||| respConnClose else flags

def has (cli : Cli) (flag : BitVec 32) : Bool := cli.pFlags &&& flag ≠ 0

/-- `http_err`. -/
def isError (cli : Cli) : Bool := 400 ≤ cli.resp.statusCode.toNat ∧ cli.resp.statusCode.toNat < 600

def reason (cli : Cli) : List Byte :=
  match cli.resp.reasonPhrase with
  | none => httpGetErrDescr cli.resp.statusCode.toNat
  | some phrase => phrase.rdropWhile fun b => b = cr ∨ b = lf

/-- The response body. -/
def body (cli : Cli) : List Byte := (cli.buf.data.drop cli.buf.offset).take (cli.buf.used - cli.buf.offset)

end Cli

/-- `sizeof(hdrs) - 1`. -/
def hdrsBufSize : Nat := 1023

/-- A number at the end of `hdrs`. -/
def putNum (hdrs : List Byte) (num : Nat) : Except Errno (List Byte) :=
  unum2str hdrs (hdrsBufSize - hdrs.length) num

/-- The response line. -/
def respLine (cli : Cli) : Except Errno (List Byte) := do
  let hdrs ← putNum (str "HTTP/") cli.major.val
  let hdrs ← putNum (hdrs ++ str ".") cli.minor.val
  let hdrs ← putNum (hdrs ++ str " ") cli.resp.statusCode.toNat
  return hdrs ++ str " " ++ cli.reason ++ crlf

def serverHdr (cli : Cli) (hdrs : List Byte) : List Byte :=
  if cli.has respServer then hdrs ++ str "Server: " ++ cli.httpServer ++ crlf else hdrs

def contentLengthHdr (cli : Cli) (hdrs : List Byte) : Except Errno (List Byte) := do
  if cli.has respContentLen then
    let hdrs ← putNum (hdrs ++ str "Content-Length: ") (cli.buf.used - cli.buf.offset)
    return hdrs ++ crlf
  else return hdrs

def connectionHdrs (cli : Cli) (hdrs : List Byte) : Except Errno (List Byte) := do
  if cli.has respConnClose then return hdrs ++ str "Connection: close\r\n"
  else if cli.major.val = 1 ∧ cli.minor.val = 1 ∧ cli.rcvTimeout ≠ 0 then
    let hdrs ← putNum (hdrs ++ str "Connection: keep-alive\r\nKeep-Alive: timeout=")
      (cli.rcvTimeout.toNat / 1000)
    return hdrs ++ crlf
  else return hdrs

/-- The standard headers. -/
def stdHdrs (cli : Cli) (hdrs : List Byte) : Except Errno (List Byte) := do
  let hdrs ← contentLengthHdr cli (serverHdr cli hdrs)
  connectionHdrs cli hdrs

/-- The custom headers, each with a CRLF behind it. -/
def customHdrs : List (List Byte) → List (List Byte)
  | [] => []
  | hdr :: hdrs =>
    if hdr.length < 3 then customHdrs hdrs
    else if hdr.drop (hdr.length - 2) = crlf then hdr :: customHdrs hdrs
    else hdr :: crlf :: customHdrs hdrs

def errPageHdrs : List Byte := str "Content-Type: text/html\r\nPragma: no-cache"

/-- The generated page; `%.*s` ends at a zero byte. -/
def errPage (cli : Cli) : List Byte :=
  let code := BtEncode.decimal cli.resp.statusCode.toNat
  let reason := cli.reason.takeWhile (· ≠ 0)
  str "<html>\r\n\t<head><title>" ++ code ++ str " " ++ reason ++
    str "</title></head>\r\n\t<body bgcolor=\"white\">\r\n\t\t<center><h1>" ++ code ++ str " " ++
    reason ++ str "</h1></center>\r\n\t\t<hr><center>HTTP core server by Rozhuk Ivan/1.7</center>\r\n" ++
    str "\t</body>\r\n</html>\r\n"

/-- The buffer that the page is printed to: without its data where these are the request, or none. -/
def pageBuf (cli : Cli) (hdrsSize : Nat) : IoBuf :=
  if (¬ cli.bufIsRcv ∧ cli.buf.used - cli.buf.offset = 0) ∨ (cli.bufIsRcv ∧ cli.has respConnClose) then
    ⟨cli.buf.data, hdrsSize + 4, hdrsSize + 4, cli.buf.transferSize⟩
  else cli.buf

/-- The page is printed behind the data.  A `used` that the reset sets behind the end of the buffer
makes the free size wrap around, and the page is written outside; there is no result. -/
def putPage (buf : IoBuf) (page : List Byte) : Except Errno IoBuf :=
  if buf.data.length < buf.used then .error .efault
  else if buf.data.length - buf.used ≤ page.length then .error .enospc
  else
    .ok ⟨splice buf.data buf.used (page ++ [0]), buf.used + page.length, buf.offset, buf.transferSize⟩

/-- Is the page generated? -/
def Cli.genPage (cli : Cli) : Bool := cli.isError ∧ cli.has respGenErrPages

/-- What the socket took and what was left for later. -/
structure Sent where
  now : List Byte
  later : List Byte

def copyRest : List (List Byte) → Nat → List Byte
  | [], _ => []
  | iov :: iovs, ios =>
    if iov.length < ios then copyRest iovs (ios - iov.length)
    else iov.drop ios ++ copyRest iovs 0

def hdrsLeft (buf : IoBuf) (iovs : List (List Byte)) (hdrsSize dataSize ios : Nat) :
    Except Errno IoBuf :=
  let left := hdrsSize - ios
  if buf.offset < left then
    if buf.data.length - buf.used < left - buf.offset then .error .enomem
    else
      let data := splice buf.data left ((buf.data.drop buf.offset).take dataSize)
      .ok ⟨splice data 0 (copyRest iovs ios), left + dataSize, 0, left + dataSize⟩
  else
    let offset := buf.offset - left
    .ok ⟨splice buf.data offset (copyRest iovs ios), buf.used, offset, left + dataSize⟩

/-- The headers `iovs` and the data are sent; `accepted` is the answer of `sendmsg`, which takes no
more than it is given. -/
def sendIov (buf : IoBuf) (iovs : List (List Byte)) (dataSize : Nat) (accepted : Except Errno Nat)
    (start : Except Errno Unit) : Except Errno Sent := do
  let hdrsSize := iovs.flatten.length
  let bytes := iovs.flatten ++ (buf.data.drop buf.offset).take dataSize
  let ios := min (← accepted) (hdrsSize + dataSize)
  if hdrsSize + dataSize = ios then return ⟨bytes, []⟩
  let buf ←
    if ios < hdrsSize then hdrsLeft buf iovs hdrsSize dataSize ios
    else
      let offset := min (buf.offset + (ios - hdrsSize)) buf.data.length
      pure ⟨buf.data, buf.used, offset, buf.used - offset⟩
  start
  return ⟨bytes.take ios, (buf.data.drop buf.offset).take buf.transferSize⟩

def httpSrvSnd (cli : Cli) (accepted : Except Errno Nat) (start : Except Errno Unit) :
    Except Errno Sent := do
  if cli.buf.used < cli.buf.offset ∨ respHdsMax < cli.resp.hdrs.length then throw .einval
  if hdrsBufSize < 256 + cli.reason.length + (if cli.has respServer then cli.httpServer.length else 0)
    then throw .enomem
  let hdrs ← stdHdrs cli (← respLine cli)
  if cli.genPage then
    let buf ← putPage (pageBuf cli (hdrs.length + errPageHdrs.length)) (errPage cli)
    sendIov buf [hdrs, errPageHdrs, crlf] (errPage cli).length accepted start
  else
    sendIov cli.buf ([hdrs] ++ customHdrs cli.resp.hdrs ++ [crlf]) (cli.buf.used - cli.buf.offset)
      accepted start

end Http
