import Liblcb.Crypto.BlockHash
import Liblcb.Crypto.Words

/-!
# SHA-1

`crypto/hash/sha1.h`: the context, `sha1_transform_generic`, `sha1_update` and `sha1_final`.
-/

namespace Sha1

open ByteMem BlockHash BlockStream Words

def msgBlkSize : Nat := 64

/-! ## The block -/

def sha1Rotl (n : Nat) (word : W) : W := rotl32 word n

def sha1Ch (x y z : W) : W := (x &&& y) ||| (~~~x &&& z)
def sha1Maj (x y z : W) : W := (x &&& y) ||| (x &&& z) ||| (y &&& z)
def sha1Parity (x y z : W) : W := x ^^^ y ^^^ z

/-- Constants defined in SHA-1. -/
def K : Fin 4 → W
  | 0 => 0x5a827999
  | 1 => 0x6ed9eba1
  | 2 => 0x8f1bbcdc
  | 3 => 0xca62c1d6

/-- The word buffers. -/
structure Vars where
  A : W
  B : W
  C : W
  D : W
  E : W

def sha1W (block : List Byte) : List W :=
  (List.range' 16 64).foldl
    (fun w t => w ++ [sha1Rotl 1 (w[t - 3]?.getD 0 ^^^ w[t - 8]?.getD 0 ^^^ w[t - 14]?.getD 0 ^^^
      w[t - 16]?.getD 0)])
    ((List.range 16).map (wordAt (memcpyBswap 4 block)))

/-- The body of the loops over `t`. -/
def sha1Round (f : W → W → W → W) (k : W) (w : List W) (v : Vars) (t : Nat) : Vars :=
  let temp := sha1Rotl 5 v.A + f v.B v.C v.D + v.E + w[t]?.getD 0 + k
  { A := temp, B := v.A, C := sha1Rotl 30 v.B, D := v.C, E := v.D }

/-- `sha1_transform_generic` for one block. -/
def sha1Block (hash : Vector W 5) (block : List Byte) : Vector W 5 :=
  let w := sha1W block
  let v := { A := hash[0], B := hash[1], C := hash[2], D := hash[3], E := hash[4] }
  let v := (List.range' 0 20).foldl (sha1Round sha1Ch (K 0) w) v
  let v := (List.range' 20 20).foldl (sha1Round sha1Parity (K 1) w) v
  let v := (List.range' 40 20).foldl (sha1Round sha1Maj (K 2) w) v
  let v := (List.range' 60 20).foldl (sha1Round sha1Parity (K 3) w) v
  #v[hash[0] + v.A, hash[1] + v.B, hash[2] + v.C, hash[3] + v.D, hash[4] + v.E]

def sha1TransformGeneric : Transform (Vector W 5) := fun s _ blocks =>
  (afterBlocks sha1Block msgBlkSize (blocks.length / msgBlkSize) s.1 blocks, s.2)

/-! ## The context -/

/-- `sha1_ctx_t` -/
structure Sha1Ctx where
  count : BitVec 64
  hash : Vector W 5
  buffer : List Byte

def sha1Init (ctx : Sha1Ctx) : Sha1Ctx :=
  { ctx with
    hash := #v[0x67452301, 0xefcdab89, 0x98badcfe, 0x10325476, 0xc3d2e1f0]
    count := 0 }

def sha1Update (ctx : Sha1Ctx) (addr : Nat) (data : List Byte) : Sha1Ctx :=
  if data.length = 0 then ctx
  else
    let bufferUsage := inBlock msgBlkSize ctx.count.toNat
    let s := (updateBuffer msgBlkSize sha1TransformGeneric (ctx.hash, ctx.buffer) bufferUsage addr
      data).1
    { count := ctx.count + BitVec.ofNat 64 data.length, hash := s.1, buffer := s.2 }

/-- `sha1_final`: the digest. -/
def sha1Final (ctx : Sha1Ctx) : List Byte :=
  let s := finalBuffer msgBlkSize (msgBlkSize - 8) sha1TransformGeneric (ctx.hash, ctx.buffer)
    (inBlock msgBlkSize ctx.count.toNat) (bytes 8 (bswap64 (ctx.count <<< 3)))
  memcpyBswap 4 (s.1.toList.flatMap (bytes 4))

/-! ## The digest -/

/-- The digest of a message: the block transform over the padded message. -/
def sha1 (msg : List Byte) : List Byte :=
  let padded := pad msgBlkSize (msgBlkSize - 8) (bytes 8 (BitVec.ofNat 64 (8 * msg.length))).reverse msg
  let hash := whole sha1Block msgBlkSize
    #v[0x67452301, 0xefcdab89, 0x98badcfe, 0x10325476, 0xc3d2e1f0] padded
  hash.toList.flatMap fun v => (bytes 4 v).reverse

/-!
# SHA-1 of a message in chunks
-/

/-- The initial state. -/
def iv : Vector W 5 := #v[0x67452301, 0xefcdab89, 0x98badcfe, 0x10325476, 0xc3d2e1f0]

/-- The context of a message so far. -/
structure Taken (msg : List Byte) (ctx : Sha1Ctx) : Prop where
  holds : Holds sha1Block msgBlkSize iv msg (ctx.hash, ctx.buffer)
  count : ctx.count = BitVec.ofNat 64 msg.length

theorem sha1TransformGeneric_runs : Runs sha1Block msgBlkSize sha1TransformGeneric where
  state _ _ _ _ _ := rfl
  buffer _ _ _ _ _ := rfl

theorem Taken.init (ctx : Sha1Ctx) (hsize : ctx.buffer.length = msgBlkSize) :
    Taken [] (sha1Init ctx) where
  holds := { state := rfl, buffer := rfl, size := hsize.ge }
  count := rfl

theorem Taken.usage {msg : List Byte} {ctx : Sha1Ctx} (h : Taken msg ctx) :
    inBlock msgBlkSize ctx.count.toNat = msg.length % msgBlkSize := by
  rw [h.count]
  exact inBlock_count (k := 6) (by decide)

theorem Taken.update {msg : List Byte} {ctx : Sha1Ctx} (h : Taken msg ctx) (c : Chunk) :
    Taken (msg ++ c.bytes) (sha1Update ctx c.addr c.bytes) := by
  unfold sha1Update
  by_cases hempty : c.bytes.length = 0
  · rw [if_pos hempty, List.eq_nil_of_length_eq_zero hempty, List.append_nil]
    exact h
  · rw [if_neg hempty]
    dsimp only
    rw [h.usage]
    have hnext := h.holds.update (k := 6) (by decide) sha1TransformGeneric_runs c.addr c.fits
    apply Taken.mk
    case holds => exact hnext.1
    case count => rw [h.count, List.length_append, BitVec.ofNat_add]

theorem Taken.final {msg : List Byte} {ctx : Sha1Ctx} (h : Taken msg ctx) :
    sha1Final ctx = sha1 msg := by
  unfold sha1Final sha1
  dsimp only
  rw [h.usage, h.count, bytes_bswap64, shiftLeft_count, h.holds.final sha1TransformGeneric_runs.takes (by rw [List.length_reverse, length_bytes]; rfl)
      (by decide)]
  exact memcpyBswap_flatMap (by decide) (fun _ => length_bytes) _

theorem sha1_stream (ctx : Sha1Ctx) (hsize : ctx.buffer.length = msgBlkSize) (chunks : List Chunk) :
    sha1Final (chunks.foldl (fun ctx c => sha1Update ctx c.addr c.bytes) (sha1Init ctx)) =
      sha1 (message chunks) := by
  have htaken := @foldl_message _ Taken (fun ctx c => sha1Update ctx c.addr c.bytes)
    (fun _ _ h c => h.update c) _ (Taken.init ctx hsize) chunks
  exact htaken.final

end Sha1
