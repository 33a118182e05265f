import Liblcb.Utils.Wire
import Mathlib.Logic.Function.Basic

/-!
# I/O buffers

`io_buf_t` of `utils/io_buf.h` and the functions that move its data.  A store says what the pointers
of the caller point to; a call that leaves `data[0 .. size)`, or hands `realloc` memory that is not
`malloc`'s, has no outcome.  What the allocator answers is an argument: the bytes of a new block, or
nothing.
-/

/-- `io_buf_t`.  `data` is the memory from the data pointer on, which may be more than `size`
bytes. -/
structure IoBuf where
  data : Option (List Mem.Byte)
  size : Nat
  used : Nat
  offset : Nat
  transferSize : Nat
  flags : BitVec 32
  /-- the memory came from `malloc` -/
  own : Bool

namespace IoBuf

open Mem Buffer

def fAllocBuf : BitVec 32 := 1#32
def fDataAlloc : BitVec 32 := 2#32
def fDataShared : BitVec 32 := 4#32
def flagsBadMask : BitVec 32 := fDataAlloc ||| fDataShared

/-- `sizeof(io_buf_t)`. -/
def sizeofIoBuf : Nat := 48

def sub64 (a b : Nat) : Nat := (a + 2 ^ 64 - b) % 2 ^ 64

def add64 (a b : Nat) : Nat := (a + b) % 2 ^ 64

def has (flags flag : BitVec 32) : Bool := flags &&& flag ≠ 0

variable (b : IoBuf)

def mem : List Byte := b.data.getD []

/-! ## Access to the data -/

def freeSize : Nat := sub64 b.size b.used

def read (pos n : Nat) : Option (List Byte) :=
  if pos + n ≤ b.size ∧ pos + n ≤ b.mem.length then some ((b.mem.drop pos).take n) else none

def write (pos : Nat) (bs : List Byte) : Option IoBuf :=
  if pos + bs.length ≤ b.size ∧ pos + bs.length ≤ b.mem.length then
    some { b with data := b.data.map fun mem => splice mem pos bs }
  else none

def memmove (dst src n : Nat) : Option IoBuf := do
  let bs ← b.read src n
  b.write dst bs

/-! ## The macros -/

def valueInRangeInc (val max size : Nat) : Nat :=
  if val < max ∧ size < sub64 max val then add64 val size else max

def valueInRangeDec (val size : Nat) : Nat := if size < val then sub64 val size else 0

def usedInc (size : Nat) : IoBuf := { b with used := valueInRangeInc b.used b.size size }
def usedDec (size : Nat) : IoBuf := { b with used := valueInRangeDec b.used size }
def offsetInc (size : Nat) : IoBuf := { b with offset := valueInRangeInc b.offset b.size size }
def offsetDec (size : Nat) : IoBuf := { b with offset := valueInRangeDec b.offset size }
def trSizeInc (size : Nat) : IoBuf :=
  { b with transferSize := valueInRangeInc b.transferSize b.size size }
def trSizeDec (size : Nat) : IoBuf := { b with transferSize := valueInRangeDec b.transferSize size }

/-! ## Allocation -/

/-- The bytes of a new block of a size, where the allocator has one. -/
abbrev Malloc := Nat → Option (Nat → Byte)

/-- A block of `n` bytes that begins as `old` does. -/
def block (old : List Byte) (n : Nat) (bytes : Nat → Byte) : List Byte :=
  old.take n ++ (List.range (n - old.length)).map bytes

/-- `io_buf_sign_set__int`. -/
def signSet : Option IoBuf :=
  if b.data = none ∨ has b.flags (fDataShared ||| fDataAlloc) = false then some b
  else if b.size < b.mem.length then some { b with data := b.data.map fun mem => mem.set b.size 0 }
  else none

/-- `io_buf_init`; `behind` is the memory behind the structure. -/
def ioBufInit (flags : BitVec 32) (behind : List Byte) (data : Option (List Byte)) (size : Nat)
    (own : Bool) : IoBuf :=
  let data := if has flags fDataShared then some behind else data
  { data := data
    size := if data = none then 0 else size
    used := 0
    offset := 0
    transferSize := 0
    flags := flags &&& ~~~fAllocBuf
    own := own }

/-- The block that holds the data holds the structure too, where these share it, and the end
marker. -/
def wanted (flags : BitVec 32) (size : Nat) : Nat :=
  (if has flags fDataShared then sizeofIoBuf + size else size) + 4

/-- The size that the allocator is asked for. -/
def request (flags : BitVec 32) (size : Nat) : Nat := wanted flags size % 2 ^ 64

def dataBytes (flags : BitVec 32) (n : Nat) : Nat :=
  if has flags fDataShared then n - sizeofIoBuf else n

/-- The end of `io_buf_alloc`, with the memory it has. -/
def allocInit (flags : BitVec 32) (data : Option (List Byte)) (size : Nat) :
    Option (Option IoBuf) := do
  let b ← (ioBufInit flags (data.getD []) data size true).signSet
  return some { b with flags := b.flags ||| fAllocBuf }

/-- `io_buf_alloc`: no outcome, a null pointer or the buffer. -/
def ioBufAlloc (flags : BitVec 32) (size : Nat) (malloc : Malloc) : Option (Option IoBuf) :=
  let data := block [] (dataBytes flags (request flags size))
  if flags &&& flagsBadMask = flagsBadMask then some none
  else if has flags fDataShared then
    match malloc (request flags size) with
    | none => some none
    | some bytes => allocInit flags (some (data bytes)) size
  else
    match malloc sizeofIoBuf with
    | none => some none
    | some _ =>
      if has flags fDataAlloc then
        match malloc (request flags size) with
        | none => some none
        | some bytes => allocInit flags (some (data bytes)) size
      else allocInit flags none size

/-- The guard of `io_buf_realloc` against memory that it does not manage. -/
def unmanaged : Bool :=
  has b.flags fDataShared ∧ has b.flags fAllocBuf = false ∧ has b.flags fDataAlloc = false

/-- `io_buf_realloc` of a pointer to a buffer or to a null pointer. -/
def ioBufRealloc (pioBuf : Option IoBuf) (flags : BitVec 32) (size : Nat) (malloc : Malloc) :
    Option (Except Errno Unit × Option IoBuf) :=
  match pioBuf with
  | none =>
    if flags &&& flagsBadMask = flagsBadMask then some (.error .einval, none)
    else do
      let b ← ioBufAlloc flags size malloc
      return (if b.isSome then .ok () else .error .enomem, b)
  | some b =>
    if b.unmanaged then some (.error .einval, some b)
    -- `realloc` takes `malloc`'s memory, or a null pointer
    else if b.own = false ∧ (has b.flags fDataShared ∨ b.data ≠ none) then none
    else
      match malloc (request b.flags size) with
      | none => some (.error .enomem, some b)
      | some bytes => do
        let data := block b.mem (dataBytes b.flags (request b.flags size)) bytes
        let b ← { b with data := some data, size := size, own := true }.signSet
        let b := { b with used := if size < b.used then size else b.used }
        let b := { b with offset := if size < b.offset then size else b.offset }
        return (.ok (), some { b with
          transferSize := if b.used < b.transferSize then b.used else b.transferSize })

/-! ## The functions -/

/-- Data that the caller hands on: a null pointer, or that many bytes. -/
inductive Src where
  | null (dataSize : Nat)
  | bytes (data : List Byte)

def Src.dataSize : Src → Nat
  | .null dataSize => dataSize
  | .bytes data => data.length

def ioBufCopyin (ioBuf : Option IoBuf) (src : Src) : Option (Except Errno Unit × Option IoBuf) :=
  if src.dataSize = 0 then some (.ok (), ioBuf)
  else
    match ioBuf, src with
    | none, _ => some (.error .einval, none)
    | some b, .null _ => some (.error .einval, some b)
    | some b, .bytes data =>
      if b.freeSize < data.length then some (.error .enobufs, some b)
      else do
        let b ← b.write b.used data
        return (.ok (), some { b with used := add64 b.used data.length })

/-- `data` and `used` of a buffer, as they are handed on. -/
def usedData : Option Src :=
  match b.data with
  | none => some (.null b.used)
  | some _ => (b.read 0 b.used).map .bytes

def ioBufCopyinBuf (same : Bool) (dst src : Option IoBuf) :
    Option (Except Errno Unit × Option IoBuf) :=
  if same then some (.ok (), dst)
  else
    match src with
    | none => some (.error .einval, dst)
    | some src => do ioBufCopyin dst (← src.usedData)

def ioBufCopyBuf (same : Bool) (dst src : Option IoBuf) :
    Option (Except Errno Unit × Option IoBuf) :=
  if same then some (.ok (), dst)
  else
    match dst, src with
    | some d, some s =>
      if d.size < s.used then some (.error .enobufs, some d)
      else do
        let d ← d.write 0 (← s.read 0 s.used)
        return (.ok (), some { d with
          used := s.used, offset := s.offset, transferSize := s.transferSize })
    | _, _ => some (.error .einval, dst)

def ioBufCutHead (ioBuf : Option IoBuf) (size : Nat) : Option (Except Errno Unit × Option IoBuf) :=
  if size = 0 then some (.ok (), ioBuf)
  else
    match ioBuf with
    | none => some (.error .einval, none)
    | some b =>
      if b.used < size then some (.error .einval, some b)
      else do
        let b := { b with used := sub64 b.used size }
        let b ← b.memmove 0 size b.used
        return (.ok (), some (b.offsetDec size))

def ioBufPrepend (ioBuf : Option IoBuf) (size : Nat) (allowDataLost : Bool) :
    Option (Except Errno Unit × Option IoBuf) :=
  if size = 0 then some (.ok (), ioBuf)
  else
    match ioBuf with
    | none => some (.error .einval, none)
    | some b =>
      if b.freeSize < size then
        if allowDataLost = false ∨ b.size < size then some (.error .einval, some b)
        else do
          let m ← b.memmove size 0 (sub64 b.used (sub64 size b.freeSize))
          return (.ok (), some ({ m with used := m.size }.offsetInc size))
      else do
        let m ← b.memmove size 0 b.used
        return (.ok (), some ({ m with used := add64 m.used size }.offsetInc size))

/-! ## Runs -/

/-- What the pointers point to; nothing is a null pointer. -/
abbrev Store := Nat → Option IoBuf

inductive Macro where
  | usedInc
  | usedDec
  | offsetInc
  | offsetDec
  | trSizeInc
  | trSizeDec

def Macro.apply : Macro → IoBuf → Nat → IoBuf
  | .usedInc => IoBuf.usedInc
  | .usedDec => IoBuf.usedDec
  | .offsetInc => IoBuf.offsetInc
  | .offsetDec => IoBuf.offsetDec
  | .trSizeInc => IoBuf.trSizeInc
  | .trSizeDec => IoBuf.trSizeDec

inductive Op where
  | copyin (src : Src)
  | copyinBuf (src : Nat)
  | copyBuf (src : Nat)
  | cutHead (size : BitVec 64)
  | prepend (size : BitVec 64) (allowDataLost : Bool)
  | realloc (flags : BitVec 32) (size : BitVec 64) (malloc : Malloc)
  | change (m : Macro) (size : BitVec 64)

/-- Are the pointers the same? -/
def same (s : Store) (dst src : Nat) : Bool := dst = src ∨ ((s dst).isNone ∧ (s src).isNone)

/-- A call with the pointer `i` as its first argument: what it returns, and what is at the pointer
then. -/
def call (s : Store) (i : Nat) : Op → Option (Except Errno Unit × Option IoBuf)
  | .copyin src => ioBufCopyin (s i) src
  | .copyinBuf src => ioBufCopyinBuf (same s i src) (s i) (s src)
  | .copyBuf src => ioBufCopyBuf (same s i src) (s i) (s src)
  | .cutHead size => ioBufCutHead (s i) size.toNat
  | .prepend size lost => ioBufPrepend (s i) size.toNat lost
  | .realloc flags size malloc => ioBufRealloc (s i) flags size.toNat malloc
  | .change m size => (s i).map fun b => (.ok (), some (m.apply b size.toNat))

def step (s : Store) (i : Nat) (op : Op) : Option (Except Errno Unit × Store) :=
  (call s i op).map fun r => (r.1, Function.update s i r.2)

end IoBuf
