import Liblcb.Lib.Buffer
import Mathlib.Data.BitVec

/-!
# Base64

The functions of `utils/base64.h`.  A destination buffer is the list of its bytes, so its length is
`dst_size`; a read or write outside an object has no outcome (`none`).  The source of a decoder may
be the destination itself.
-/

namespace Base64

open Buffer

abbrev Byte := BitVec 8

/-- Return values of the functions. -/
inductive Code where
  | ok
  | einval
  | enobufs
  deriving DecidableEq, Repr

/-- What a call returns: its code, and what it stores through the size pointer, if anything. -/
structure Ret where
  code : Code
  size : Option Nat
  deriving DecidableEq, Repr

/-- The bytes of a text. -/
def bytes (cs : List Char) : List Byte := cs.map fun c => BitVec.ofNat 8 c.toNat

def base64TblCoding : List Byte := bytes
  ['A', 'B', 'C', 'D', 'E', 'F', 'G', 'H', 'I', 'J', 'K', 'L', 'M', 'N', 'O', 'P',
   'Q', 'R', 'S', 'T', 'U', 'V', 'W', 'X', 'Y', 'Z', 'a', 'b', 'c', 'd', 'e', 'f',
   'g', 'h', 'i', 'j', 'k', 'l', 'm', 'n', 'o', 'p', 'q', 'r', 's', 't', 'u', 'v',
   'w', 'x', 'y', 'z', '0', '1', '2', '3', '4', '5', '6', '7', '8', '9', '+', '/']

def base64TblDecoding : List Byte :=
  [64, 64, 64, 64, 64, 64, 64, 64, 64, 64, 64, 64, 64, 64, 64, 64,
   64, 64, 64, 64, 64, 64, 64, 64, 64, 64, 64, 64, 64, 64, 64, 64,
   64, 64, 64, 64, 64, 64, 64, 64, 64, 64, 64, 62, 64, 64, 64, 63,
   52, 53, 54, 55, 56, 57, 58, 59, 60, 61, 64, 64, 64, 64, 64, 64,
   64,  0,  1,  2,  3,  4,  5,  6,  7,  8,  9, 10, 11, 12, 13, 14,
   15, 16, 17, 18, 19, 20, 21, 22, 23, 24, 25, 64, 64, 64, 64, 64,
   64, 26, 27, 28, 29, 30, 31, 32, 33, 34, 35, 36, 37, 38, 39, 40,
   41, 42, 43, 44, 45, 46, 47, 48, 49, 50, 51, 64, 64, 64, 64, 64,
   64, 64, 64, 64, 64, 64, 64, 64, 64, 64, 64, 64, 64, 64, 64, 64,
   64, 64, 64, 64, 64, 64, 64, 64, 64, 64, 64, 64, 64, 64, 64, 64,
   64, 64, 64, 64, 64, 64, 64, 64, 64, 64, 64, 64, 64, 64, 64, 64,
   64, 64, 64, 64, 64, 64, 64, 64, 64, 64, 64, 64, 64, 64, 64, 64,
   64, 64, 64, 64, 64, 64, 64, 64, 64, 64, 64, 64, 64, 64, 64, 64,
   64, 64, 64, 64, 64, 64, 64, 64, 64, 64, 64, 64, 64, 64, 64, 64,
   64, 64, 64, 64, 64, 64, 64, 64, 64, 64, 64, 64, 64, 64, 64, 64,
   64, 64, 64, 64, 64, 64, 64, 64, 64, 64, 64, 64, 64, 64, 64, 64]

def coding (v : Byte) : Byte := base64TblCoding.getD v.toNat 0

/-- The number of a symbol, 64 for a byte that is none. -/
def decoding (b : Byte) : Byte := base64TblDecoding.getD b.toNat 0

/-- The padding byte `=`. -/
def padding : Byte := 0x3d

/-! ## Encoding -/

/-- The four symbols of three bytes. -/
def encodeGroup (a b c : Byte) : List Byte :=
  [coding (a >>> 2), coding (((a <<< 4) &&& 0x30#8) ||| ((b >>> 4) &&& 0x0f#8)),
   coding (((b <<< 2) &&& 0x3c#8) ||| ((c >>> 6) &&& 0x03#8)), coding (c &&& 0x3f#8)]

/-- The main loop of `base64_encode`: what is left of the source, the write position and the
destination. -/
def encodeLoop : List Byte → Nat → List Byte → Option (List Byte × Nat × List Byte)
  | a :: b :: c :: src, wpos, dst => do
    let dst ← putAll dst wpos (encodeGroup a b c)
    encodeLoop src (wpos + 4) dst
  | src, wpos, dst => some (src, wpos, dst)

/-- The symbols of the one or two bytes after the main loop. -/
def encodeTail : List Byte → List Byte
  | [a] => [coding (a >>> 2), coding ((a <<< 4) &&& 0x30#8), padding, padding]
  | [a, b] => [coding (a >>> 2), coding (((a <<< 4) &&& 0x30#8) ||| ((b >>> 4) &&& 0x0f#8)),
      coding ((b <<< 2) &&& 0x3c#8), padding]
  | _ => []

def encSize (srcSize : Nat) : Nat :=
  (if srcSize / 3 * 3 ≠ srcSize then srcSize / 3 + 1 else srcSize / 3) * 4

def base64Encode (src dst : List Byte) : Option (Ret × List Byte) :=
  if src.length = 0 then some (⟨.ok, some 0⟩, dst)
  else if dst.length < encSize src.length then some (⟨.enobufs, some (encSize src.length)⟩, dst)
  else do
    let (rest, wpos, dst) ← encodeLoop src 0 dst
    let tail := encodeTail rest
    let dst ← putAll dst wpos tail
    let dst ← put dst (wpos + tail.length) 0
    some (⟨.ok, some (encSize src.length)⟩, dst)

/-! ## Decoding -/

/-- The source of a decoder: an object of its own, or the destination. -/
inductive Src where
  | own (src : List Byte)
  | dst

/-- `src[i]` while the destination holds `dst`. -/
def Src.read (src : Src) (dst : List Byte) (i : Nat) : Option Byte :=
  match src with
  | .own src => src[i]?
  | .dst => dst[i]?

def first (b0 b1 : Byte) : Byte := (decoding b0 <<< 2) ||| (decoding b1 >>> 4)

def second (b1 b2 : Byte) : Byte := (decoding b1 <<< 4) ||| (decoding b2 >>> 2)

def third (b2 b3 : Byte) : Byte := (decoding b2 <<< 6) ||| decoding b3

/-- `*wpos = f(rpos[0], rpos[1])`: the source is read right before the write. -/
def decodePut (src : Src) (f : Byte → Byte → Byte) (rpos wpos : Nat) (dst : List Byte) :
    Option (List Byte) := do
  let x ← src.read dst rpos
  let y ← src.read dst (rpos + 1)
  put dst wpos (f x y)

/-- The main loop of `base64_decode`, `n` times. -/
def decodeLoop (src : Src) : Nat → Nat → Nat → List Byte → Option (List Byte)
  | 0, _, _, dst => some dst
  | n + 1, rpos, wpos, dst => do
    let dst ← decodePut src first rpos wpos dst
    let dst ← decodePut src second (rpos + 1) (wpos + 1) dst
    let dst ← decodePut src third (rpos + 2) (wpos + 2) dst
    decodeLoop src n (rpos + 4) (wpos + 3) dst

/-- The switch of `base64_decode`: the destination and how many bytes were written. -/
def decodeTail (src : Src) (tail rpos wpos : Nat) (dst : List Byte) :
    Option (List Byte × Nat) :=
  match tail with
  | 2 => do
    let dst ← decodePut src first rpos wpos dst
    some (dst, 1)
  | 3 => do
    let dst ← decodePut src first rpos wpos dst
    let dst ← decodePut src second (rpos + 1) (wpos + 1) dst
    some (dst, 2)
  | _ => some (dst, 0)

/-- `src_size_real`: the size without the padding at the end. -/
def realSize (src : Src) (dst : List Byte) : Nat → Option Nat
  | 0 => some 0
  | n + 1 => do
    let b ← src.read dst n
    if b = padding then realSize src dst n else some (n + 1)

def dcdSize (real : Nat) : Nat := (if real / 4 * 4 ≠ real then real / 4 + 1 else real / 4) * 3

def base64Decode (src : Src) (srcSize : Nat) (dst : List Byte) : Option (Ret × List Byte) :=
  if srcSize = 0 then some (⟨.ok, some 0⟩, dst)
  else do
    let real ← realSize src dst srcSize
    if real = 0 then some (⟨.ok, some 0⟩, dst)
    else if real < 2 then some (⟨.einval, none⟩, dst)
    else if dst.length < dcdSize real then some (⟨.enobufs, some (dcdSize real)⟩, dst)
    else do
      let dst ← decodeLoop src (real / 4) 0 0 dst
      let (dst, n) ← decodeTail src (real - real / 4 * 4) (real / 4 * 4) (real / 4 * 3) dst
      let dst ← put dst (real / 4 * 3 + n) 0
      some (⟨.ok, some (real / 4 * 3 + n)⟩, dst)

/-- The loop of `base64_en_copy`: `n` bytes from `rpos` on are left; the final `wpos` is
returned with the destination. -/
def enCopyLoop (src : Src) : Nat → Nat → Nat → List Byte → Option (Nat × List Byte)
  | 0, _, wpos, dst => some (wpos, dst)
  | n + 1, rpos, wpos, dst => do
    let b ← src.read dst rpos
    if decoding b = 64 then enCopyLoop src n (rpos + 1) wpos dst
    else do
      let dst ← put dst wpos b
      enCopyLoop src n (rpos + 1) (wpos + 1) dst

/-- `base64_en_copy`: the new size and the destination. -/
def base64EnCopy (src : Src) (srcSize : Nat) (dst : List Byte) : Option (Nat × List Byte) :=
  enCopyLoop src srcSize 0 0 dst

def base64DecodeFmt (src : Src) (srcSize : Nat) (dst : List Byte) : Option (Ret × List Byte) :=
  if dst.length < srcSize then some (⟨.enobufs, none⟩, dst)
  else do
    let (real, dst) ← base64EnCopy src srcSize dst
    base64Decode .dst real dst

end Base64
