import Liblcb.Utils.Mem

/-!
# The guard against request smuggling

`http_req_sec_chk` of `proto/http.c` and the header scanner it counts fields with.  A header block is
the list of its bytes, a pointer into it is an offset.  The scanner is called for its count only, so
the text of a value is left out.
-/

namespace Http

open Mem

inductive Err where
  | espipe
  /-- the loop did not end within the fuel -/
  | noReturn
  deriving DecidableEq, Repr

def cr : Byte := 0x0d#8
def lf : Byte := 0x0a#8
def ht : Byte := 0x09#8
def sp : Byte := 0x20#8

def crlf : List Byte := [cr, lf]

def methodGet : Nat := 2

/-- The inner loop of `http_hdr_val_get_ex`: the end of the value at `separator`.  A CRLF before SP
or HT is part of the value. -/
def separatorLoop (hdr : List Byte) : Nat → Nat → Except Err Nat
  | 0, _ => .error .noReturn
  | fuel + 1, separator =>
    match memFindOff separator hdr crlf with
    | none => .ok hdr.length
    | some separator =>
      if hdr.length ≤ separator + 2 then .ok separator
      else if hdr[separator + 2]? = some ht ∨ hdr[separator + 2]? = some sp then
        separatorLoop hdr fuel (separator + 2)
      else .ok separator

/-- The outer loop of `http_hdr_val_get_ex`: a field starts behind `separator`, and its name is what
stands before the next `:`, wherever that is. -/
def fieldLoop (hdr valName : List Byte) : Nat → Nat → Except Err Nat
  | 0, _ => .error .noReturn
  | fuel + 1, separator =>
    let name := separator + 2
    match memChrOff name hdr (chr ':') with
    | none => .error .espipe
    | some colon => do
      let val := colon + 1
      let separator ← separatorLoop hdr (hdr.length + 1) val
      if memCmpin ((hdr.drop name).take (val - name - 1)) valName then .ok separator
      else fieldLoop hdr valName fuel separator

/-- `http_hdr_val_get_ex`: `offset_next` of the first field from `offset` on with the name. -/
def httpHdrValGetEx (hdr valName : List Byte) (offset : Nat) : Except Err Nat :=
  match memFindOff offset hdr crlf with
  | none => .error .espipe
  | some separator => fieldLoop hdr valName (hdr.length + 1) separator

/-- The loop of `http_hdr_val_get_count`. -/
def countLoop (hdr valName : List Byte) : Nat → Nat → Nat → Except Err Nat
  | 0, _, _ => .error .noReturn
  | fuel + 1, offset, ret =>
    match httpHdrValGetEx hdr valName offset with
    | .error .noReturn => .error .noReturn
    | .error .espipe => .ok ret
    | .ok offset => countLoop hdr valName fuel offset (ret + 1)

def httpHdrValGetCount (hdr valName : List Byte) : Except Err Nat :=
  countLoop hdr valName (hdr.length + 1) 0 0

/-- The checks of the single bytes, as the code returns for them. -/
def chkBytes : List Byte → Nat
  | [] => 0
  | b :: rest =>
    if 126#8 < b then 2
    else if b = sp ∧ rest.head? = some (chr ':') then 1
    else if 31#8 < b ∨ b = ht then chkBytes rest
    else
      match rest with
      | [] => 2
      | c :: rest' => if b = cr ∧ c = lf then chkBytes rest' else 2

def host : List Byte := "host".toList.map chr
def contentLength : List Byte := "content-length".toList.map chr
def transferEncoding : List Byte := "transfer-encoding".toList.map chr

def httpReqSecChk (hdr : List Byte) (methodCode : Nat) : Except Err Nat :=
  if chkBytes hdr ≠ 0 then .ok (chkBytes hdr)
  else do
    let hostCount ← httpHdrValGetCount hdr host
    if 1 < hostCount then return 3
    let clCount ← httpHdrValGetCount hdr contentLength
    if 1 < clCount then return 4
    if clCount ≠ 0 ∧ methodCode = methodGet then return 5
    let teCount ← httpHdrValGetCount hdr transferEncoding
    if 1 < teCount then return 6
    if clCount ≠ 0 ∧ teCount ≠ 0 then return 7
    return 0

/-!
# Values of header fields

`skip_spwsp2` and `http_hdr_val_get_ex` of `proto/http.c` with the value that the lookup returns.  A
read outside the block has no outcome.
-/

/-- A byte that is skipped around a value. -/
def isBlank (b : Byte) : Bool := decide (b < 33#8)

/-- The loop over the head, with `n` bytes up to `buf_max`.  The byte is read before the bound is
checked, also behind the last one. -/
def skipHead (buf : List Byte) : Nat → Nat → Option Nat
  | 0, pos => buf[pos]?.map fun _ => pos
  | n + 1, pos => do
    let b ← buf[pos]?
    if isBlank b then skipHead buf n (pos + 1) else return pos

def skipTail (buf : List Byte) (pos : Nat) : Nat → Option Nat
  | 0 => if pos = 0 then none else buf[pos - 1]?.map fun _ => 0
  | n + 1 => do
    let b ← buf[pos + n]?
    if isBlank b then skipTail buf pos n else return n + 1

/-- `skip_spwsp2` of `size` bytes at `pos`: what it stores through the two pointers, of which either
can be NULL. -/
def skipSpwsp2 (buf : List Byte) (pos size : Nat) (bufRet sizeRet : Bool) :
    Option (Option Nat × Option Nat) := do
  let start ← if bufRet then skipHead buf size pos else some pos
  let rest ← if sizeRet then skipTail buf start (pos + size - start) else some 0
  return (if bufRet then some start else none, if sizeRet then some rest else none)

/-- The places of the field that the outer loop stops at. -/
structure FieldPlace where
  name : Nat
  val : Nat
  separator : Nat
  deriving DecidableEq, Repr

/-- The outer loop of `http_hdr_val_get_ex`, up to the field that is found. -/
def foundLoop (hdr valName : List Byte) : Nat → Nat → Except Err FieldPlace
  | 0, _ => .error .noReturn
  | fuel + 1, separator =>
    let name := separator + 2
    match memChrOff name hdr (chr ':') with
    | none => .error .espipe
    | some colon => do
      let val := colon + 1
      let separator ← separatorLoop hdr (hdr.length + 1) val
      if memCmpin ((hdr.drop name).take (val - name - 1)) valName then
        .ok ⟨name, val, separator⟩
      else foundLoop hdr valName fuel separator

/-- What the lookup stores. -/
structure HdrVal where
  valRet : Option Nat
  valRetSize : Option Nat
  offsetNext : Nat
  deriving DecidableEq, Repr

def storeVal (hdr : List Byte) (f : FieldPlace) (valRet valRetSize : Bool) :
    Option (Except Err HdrVal) :=
  (skipSpwsp2 hdr f.val (f.separator - f.val) valRet valRetSize).map fun r =>
    .ok ⟨r.1, r.2, f.separator⟩

/-- `http_hdr_val_get_ex`, with the pointers for the value and its size, which can be NULL. -/
def httpHdrValGetExRet (hdr valName : List Byte) (offset : Nat) (valRet valRetSize : Bool) :
    Option (Except Err HdrVal) :=
  match memFindOff offset hdr crlf with
  | none => some (.error .espipe)
  | some separator =>
    match foundLoop hdr valName (hdr.length + 1) separator with
    | .error e => some (.error e)
    | .ok f => storeVal hdr f valRet valRetSize

def httpHdrValGet (hdr valName : List Byte) : Option (Except Err (Option Nat × Option Nat)) :=
  (httpHdrValGetExRet hdr valName 0 true true).map fun r => r.map fun v => (v.valRet, v.valRetSize)

/-- A caller that goes from field to field through `offset_next`. -/
def visitLoop (hdr valName : List Byte) : Nat → Nat → Option (Except Err (List HdrVal))
  | 0, _ => some (.error .noReturn)
  | fuel + 1, offset => do
    match ← httpHdrValGetExRet hdr valName offset true true with
    | .error .noReturn => return .error .noReturn
    | .error .espipe => return .ok []
    | .ok v => return (← visitLoop hdr valName fuel v.offsetNext).map (v :: ·)

end Http
