import Liblcb.Crypto.Words
import Liblcb.Lib.Feistel

/-!
# GOST 28147-89

The block functions of `crypto/cipher/gost28147.h` on a little-endian host.  The build without
`GOST28147_USE_SMALL_TABLES` unpacks the substitution table into four tables of 256 words, the other
one keeps a pointer to it.  A function that has a path for aligned buffers and one for the others has
both here.
-/

namespace Gost28147

open ByteMem Words

inductive Errno
  | einval
  deriving DecidableEq

/-- What a build keeps of the substitution table. -/
inductive Tables
  /-- `ctx->sboxx` -/
  | extended (sboxx : Vector (Vector W 256) 4)
  /-- `ctx->sbox`, the table the caller has given -/
  | small (sbox : Vector Byte 128)

structure Context where
  key : Vector W 8
  tables : Tables

theorem cell_lt (row : Fin 8) (col : W) : row.val <<< 4 + (col &&& 0x0000000f#32).toNat < 128 := by
  have hcol : (col &&& 0x0000000f#32).toNat < 16 := by
    rw [BitVec.toNat_and]
    exact Nat.and_lt_two_pow _ (by decide : (0x0000000f#32).toNat < 2 ^ 4)
  rw [Nat.shiftLeft_eq]
  omega

/-- `SBOX_RC`: the column is masked, the row is one of the eight. -/
def sboxRc (sbox : Vector Byte 128) (row : Fin 8) (col : W) : W :=
  have hcell := cell_lt row col
  sbox[row.val <<< 4 + (col &&& 0x0000000f#32).toNat].setWidth 32

def gost28147Block32 (ctx : Context) (src : W) : W :=
  match ctx.tables with
  | .extended sboxx =>
    (sboxx.get 0)[(src &&& 0x000000ff#32).toNat]! ^^^
      (sboxx.get 1)[((src &&& 0x0000ff00#32) >>> 8).toNat]! ^^^
      (sboxx.get 2)[((src &&& 0x00ff0000#32) >>> 16).toNat]! ^^^
      (sboxx.get 3)[(src >>> 24).toNat]!
  | .small sbox =>
    let res := 0#32
    let res := res ^^^ sboxRc sbox 0 (src >>> 0) <<< 0
    let res := res ^^^ sboxRc sbox 1 (src >>> 4) <<< 4
    let res := res ^^^ sboxRc sbox 2 (src >>> 8) <<< 8
    let res := res ^^^ sboxRc sbox 3 (src >>> 12) <<< 12
    let res := res ^^^ sboxRc sbox 4 (src >>> 16) <<< 16
    let res := res ^^^ sboxRc sbox 5 (src >>> 20) <<< 20
    let res := res ^^^ sboxRc sbox 6 (src >>> 24) <<< 24
    let res := res ^^^ sboxRc sbox 7 (src >>> 28) <<< 28
    rotl32 res 11

def directKeyRound8 (ctx : Context) (n : W × W) : W × W :=
  let (n1, n2) := n
  let n2 := n2 ^^^ gost28147Block32 ctx (n1 + ctx.key.get 0)
  let n1 := n1 ^^^ gost28147Block32 ctx (n2 + ctx.key.get 1)
  let n2 := n2 ^^^ gost28147Block32 ctx (n1 + ctx.key.get 2)
  let n1 := n1 ^^^ gost28147Block32 ctx (n2 + ctx.key.get 3)
  let n2 := n2 ^^^ gost28147Block32 ctx (n1 + ctx.key.get 4)
  let n1 := n1 ^^^ gost28147Block32 ctx (n2 + ctx.key.get 5)
  let n2 := n2 ^^^ gost28147Block32 ctx (n1 + ctx.key.get 6)
  let n1 := n1 ^^^ gost28147Block32 ctx (n2 + ctx.key.get 7)
  (n1, n2)

def reverseKeyRound8 (ctx : Context) (n : W × W) : W × W :=
  let (n1, n2) := n
  let n2 := n2 ^^^ gost28147Block32 ctx (n1 + ctx.key.get 7)
  let n1 := n1 ^^^ gost28147Block32 ctx (n2 + ctx.key.get 6)
  let n2 := n2 ^^^ gost28147Block32 ctx (n1 + ctx.key.get 5)
  let n1 := n1 ^^^ gost28147Block32 ctx (n2 + ctx.key.get 4)
  let n2 := n2 ^^^ gost28147Block32 ctx (n1 + ctx.key.get 3)
  let n1 := n1 ^^^ gost28147Block32 ctx (n2 + ctx.key.get 2)
  let n2 := n2 ^^^ gost28147Block32 ctx (n1 + ctx.key.get 1)
  let n1 := n1 ^^^ gost28147Block32 ctx (n2 + ctx.key.get 0)
  (n1, n2)

/-- `gost28147_block_encrypt`; the result is `(*dst_n1, *dst_n2)`. -/
def gost28147BlockEncrypt (ctx : Context) (n1 n2 : W) : W × W :=
  let n := directKeyRound8 ctx (n1, n2)
  let n := directKeyRound8 ctx n
  let n := directKeyRound8 ctx n
  let n := reverseKeyRound8 ctx n
  (n.2, n.1)

def gost28147BlockDecrypt (ctx : Context) (n1 n2 : W) : W × W :=
  let n := directKeyRound8 ctx (n1, n2)
  let n := reverseKeyRound8 ctx n
  let n := reverseKeyRound8 ctx n
  let n := reverseKeyRound8 ctx n
  (n.2, n.1)

def ptrIsAligned4 (p : Nat) : Bool := p &&& 3 == 0

/-! ## Blocks -/

/-- The loop of the functions on blocks: `block` loads, transforms and saves one of them. -/
def forBlocks (block : Memory → Nat → Nat → Memory) (src blocksCount dst : Nat) (m : Memory) :
    Memory :=
  (overBlocks 8 (fun src m dst => (src + 8, block m src dst)) blocksCount src m dst).2

def gost28147BlocksEncrypt (ctx : Context) (src blocksCount dst : Nat) (m : Memory) : Memory :=
  if blocksCount = 0 then m
  else if ptrIsAligned4 src && ptrIsAligned4 dst then
    forBlocks (fun m src dst =>
      let n := gost28147BlockEncrypt ctx (load32 m src) (load32 m (src + 4))
      store32 (store32 m dst n.1) (dst + 4) n.2) src blocksCount dst m
  else
    forBlocks (fun m src dst =>
      let n := gost28147BlockEncrypt ctx (u8To32Little m src) (u8To32Little m (src + 4))
      u32To8Little (u32To8Little m dst n.1) (dst + 4) n.2) src blocksCount dst m

def gost28147BlocksEncryptBe (ctx : Context) (src blocksCount dst : Nat) (m : Memory) : Memory :=
  if blocksCount = 0 then m
  else if ptrIsAligned4 src && ptrIsAligned4 dst then
    forBlocks (fun m src dst =>
      let n := gost28147BlockEncrypt ctx (ntohl (load32 m (src + 4))) (ntohl (load32 m src))
      store32 (store32 m dst (ntohl n.2)) (dst + 4) (ntohl n.1)) src blocksCount dst m
  else
    forBlocks (fun m src dst =>
      let n := gost28147BlockEncrypt ctx (ntohl (u8To32Little m (src + 4)))
        (ntohl (u8To32Little m src))
      u32To8Little (u32To8Little m dst (ntohl n.2)) (dst + 4) (ntohl n.1)) src blocksCount dst m

def gost28147BlocksDecrypt (ctx : Context) (src blocksCount dst : Nat) (m : Memory) : Memory :=
  if blocksCount = 0 then m
  else if ptrIsAligned4 src && ptrIsAligned4 dst then
    forBlocks (fun m src dst =>
      let n := gost28147BlockDecrypt ctx (load32 m src) (load32 m (src + 4))
      store32 (store32 m dst n.1) (dst + 4) n.2) src blocksCount dst m
  else
    -- The loads are those of the other byte order.
    forBlocks (fun m src dst =>
      let n := gost28147BlockDecrypt ctx (ntohl (u8To32Little m (src + 4)))
        (ntohl (u8To32Little m src))
      u32To8Little (u32To8Little m dst n.1) (dst + 4) n.2) src blocksCount dst m

def gost28147BlocksDecryptBe (ctx : Context) (src blocksCount dst : Nat) (m : Memory) : Memory :=
  if blocksCount = 0 then m
  else if ptrIsAligned4 src && ptrIsAligned4 dst then
    forBlocks (fun m src dst =>
      let n := gost28147BlockDecrypt ctx (ntohl (load32 m (src + 4))) (ntohl (load32 m src))
      store32 (store32 m dst (ntohl n.2)) (dst + 4) (ntohl n.1)) src blocksCount dst m
  else
    -- Here too: these are the loads of `gost28147_blocks_decrypt`.
    forBlocks (fun m src dst =>
      let n := gost28147BlockDecrypt ctx (u8To32Little m src) (u8To32Little m (src + 4))
      u32To8Little (u32To8Little m dst (ntohl n.2)) (dst + 4) (ntohl n.1)) src blocksCount dst m

/-! ## Contexts -/

/-- The buffers of a call: the destination is the source or shares nothing with it. -/
structure Call where
  src : Nat
  dst : Nat
  blocksCount : Nat
  apart : Apart src dst (8 * blocksCount)

/-- The pointers of a call as the functions test them. -/
def Call.aligned (c : Call) : Bool := ptrIsAligned4 c.src && ptrIsAligned4 c.dst

/-- The blocks a call finds at its source. -/
def Call.input (c : Call) (m : Memory) : List (List Byte) :=
  (List.range c.blocksCount).map fun i => read m (c.src + 8 * i) 8

/-- The blocks a call leaves at its destination. -/
def Call.output (c : Call) (m : Memory) : List (List Byte) :=
  (List.range c.blocksCount).map fun i => read m (c.dst + 8 * i) 8

end Gost28147
